import Juno.Lib.Except
import Juno.Propeller.Schedule
import Mathlib

/-!
# From a message to units and back

What a publisher makes of a message is meant to pass the checks of every member of the
committee, and enough of the units are meant to give the message back.

## The model

* `RoundTrips` — the units pass `Validate` at every member but the publisher when each comes from the peer the
  scheduler designates, in any order, and every set of at least `numDataShards` of them gives
  the message, with the shard and the proof of the local member.

The main result is `roundTrips_iff`.
-/

namespace Juno.Propeller

open Juno.Lib Merkle Uvarint List UnitValidator

variable {msg : Message}

/-! ### Padding -/

theorem length_putLoop_le (fuel n : ℕ) : (putLoop fuel n).length ≤ fuel := by
  induction fuel generalizing n with
  | zero => exact le_rfl
  | succ fuel ih =>
    rw [putLoop]
    split_ifs
    · exact Nat.succ_le_succ (Nat.zero_le fuel)
    · exact Nat.succ_le_succ (ih _)

/-- **A padded message is unpadded**, whatever follows it. -/
theorem unpadMessage_put (message : Message) (rest : Bytes) :
    unpadMessage (put message.bytes.length ++ message.bytes ++ rest) = .ok message.bytes := by
  have hfits := message.fits
  have hlen : (put message.bytes.length).length ≤ 10 := length_putLoop_le 10 _
  have hread := read_put (n := message.bytes.length) (by omega) (message.bytes ++ rest)
  rw [← append_assoc] at hread
  have hstop : ((put message.bytes.length).length + message.bytes.length) % 2 ^ 64 =
      (put message.bytes.length ++ message.bytes).length := by
    rw [length_append]
    exact Nat.mod_eq_of_lt (by omega)
  have hle : ¬((put message.bytes.length ++ message.bytes ++ rest).length <
      (put message.bytes.length ++ message.bytes).length) := by
    simp only [length_append]
    omega
  have hge : ¬((put message.bytes.length ++ message.bytes).length < (put message.bytes.length).length) := by
    rw [length_append]
    exact Nat.not_lt.mpr (Nat.le_add_right _ _)
  simp only [unpadMessage, hread, hstop, if_neg hle, if_neg hge, take_left, drop_left]

/-! ### Signing -/

theorem bigEndian_injective {n m : UInt64} (h : bigEndian n = bigEndian m) : n = m := by
  have hbyte : ∀ j < 8, n.toNat / 256 ^ j % 256 = m.toNat / 256 ^ j % 256 := by
    intro j hj
    have hget := congrArg (fun l : Bytes => l[7 - j]?) h
    have hlt : 7 - j < 8 := by omega
    have hback : 7 - (7 - j) = j := by omega
    simp only [bigEndian, getElem?_map, getElem?_range hlt, Option.map_some, Option.some.injEq, hback] at hget
    have hnat := congrArg UInt8.toNat hget
    rwa [toNat_ofNat_lt (Nat.mod_lt _ (by decide)), toNat_ofNat_lt (Nat.mod_lt _ (by decide))] at hnat
  have hn := n.toNat_lt
  have hm := m.toNat_lt
  have h0 := hbyte 0 (by decide)
  have h1 := hbyte 1 (by decide)
  have h2 := hbyte 2 (by decide)
  have h3 := hbyte 3 (by decide)
  have h4 := hbyte 4 (by decide)
  have h5 := hbyte 5 (by decide)
  have h6 := hbyte 6 (by decide)
  have h7 := hbyte 7 (by decide)
  norm_num at h0 h1 h2 h3 h4 h5 h6 h7
  apply UInt64.toNat_inj.mp
  omega

theorem buildSignPayload_nonce {root committeeID : Bytes32} {nonce nonce' : UInt64} :
    buildSignPayload root committeeID nonce = buildSignPayload root committeeID nonce' ↔ nonce = nonce' := by
  refine ⟨fun h => ?_, fun h => by rw [h]⟩
  rw [buildSignPayload, buildSignPayload, append_left_inj, append_right_inj] at h
  exact bigEndian_injective h

/-! ### The Merkle tree -/

variable {i k : ℕ}

section

variable (sum256 : Bytes → Bytes32)

theorem xor_one_eq_sibling (i : ℕ) : i ^^^ 1 = sibling i := by
  rw [sibling]
  split_ifs with h
  · exact Nat.xor_one_of_even (Nat.even_iff.mpr h)
  · exact Nat.xor_one_of_odd (Nat.odd_iff.mpr (Nat.mod_two_ne_zero.mp h))

/-- The loop computes the root and the siblings of every leaf. -/
theorem buildLoop_eq (k fuel : ℕ) (layer : List Bytes32) (proofs : List (List Bytes32 × ℕ))
    (hlayer : layer.length = 2 ^ k) (hfuel : k ≤ fuel) :
    buildLoop sum256 fuel layer proofs =
      ((root (merkleNodeHash sum256) k layer).getD zeroHash,
        proofs.map fun p => (p.1 ++ siblings (merkleNodeHash sum256) zeroHash k layer p.2, p.2 / 2 ^ k)) := by
  induction k generalizing fuel layer proofs with
  | zero =>
    have hone : layer.length = 1 := hlayer
    have hproofs : proofs = proofs.map fun p =>
        (p.1 ++ siblings (merkleNodeHash sum256) zeroHash 0 layer p.2, p.2 / 2 ^ 0) := by
      simp only [siblings, append_nil, pow_zero, Nat.div_one, Prod.mk.eta, map_id']
    have hroot : layer.headD zeroHash = (root (merkleNodeHash sum256) 0 layer).getD zeroHash :=
      headD_eq_head?_getD
    rw [← hproofs, ← hroot]
    cases fuel with
    | zero => rfl
    | succ fuel =>
      have hlt : ¬(1 < layer.length) := by omega
      rw [buildLoop, if_neg hlt]
  | succ k ih =>
    cases fuel with
    | zero => exact absurd hfuel (Nat.not_succ_le_zero k)
    | succ fuel =>
      have hlt : 1 < layer.length := by
        rw [hlayer]
        exact Nat.one_lt_two_pow (Nat.succ_ne_zero k)
      rw [buildLoop, if_pos hlt, ih fuel _ _ (length_pairs_pow hlayer) (Nat.le_of_succ_le_succ hfuel), root,
        map_map]
      congr 1
      refine map_congr_left fun p _ => ?_
      simp only [Function.comp_apply, siblings, xor_one_eq_sibling, append_assoc, singleton_append,
        Nat.div_div_eq_div_mul, pow_succ, Nat.mul_comm]

theorem nextPowerOfTwo_eq (n : ℕ) : ∃ k, nextPowerOfTwo n = 2 ^ k ∧ n ≤ 2 ^ k := by
  rw [nextPowerOfTwo]
  split_ifs with h
  · exact ⟨1, rfl, h⟩
  · have hlt := Nat.lt_size_self (n - 1)
    exact ⟨Nat.size (n - 1), rfl, by omega⟩

variable {leaves : List Bytes}

theorem length_bottomLayer (hk : nextPowerOfTwo leaves.length = 2 ^ k) (hle : leaves.length ≤ 2 ^ k) :
    (bottomLayer sum256 leaves).length = 2 ^ k := by
  rw [bottomLayer, length_append, length_map, length_replicate, hk]
  omega

theorem merkleNew_eq (hk : nextPowerOfTwo leaves.length = 2 ^ k) (hle : leaves.length ≤ 2 ^ k)
    (hne : leaves.length ≠ 0) : merkleNew sum256 leaves =
      ((root (merkleNodeHash sum256) k (bottomLayer sum256 leaves)).getD zeroHash,
        (List.range leaves.length).map
          fun j => siblings (merkleNodeHash sum256) zeroHash k (bottomLayer sum256 leaves) j) := by
  have hlen := length_bottomLayer sum256 hk hle
  have hfuel : k ≤ (bottomLayer sum256 leaves).length := by
    rw [hlen]
    exact Nat.lt_two_pow_self.le
  rw [merkleNew, if_neg hne]
  simp only [buildLoop_eq sum256 k _ _ _ hlen hfuel, map_map]
  congr 1

theorem length_merkleNew (leaves : List Bytes) : (merkleNew sum256 leaves).2.length = leaves.length := by
  rcases Nat.eq_zero_or_pos leaves.length with h | h
  · rw [merkleNew, if_pos h, h]
    rfl
  · obtain ⟨k, hk, hle⟩ := nextPowerOfTwo_eq leaves.length
    rw [merkleNew_eq sum256 hk hle h.ne', length_map, length_range]

theorem bottomLayer_set (hi : i < leaves.length) (leaf : Bytes) :
    bottomLayer sum256 (leaves.set i leaf) = (bottomLayer sum256 leaves).set i
      (merkleLeafHash sum256 leaf) := by
  have hi' : i < (leaves.map (merkleLeafHash sum256)).length := by rwa [length_map]
  rw [bottomLayer, bottomLayer, length_set, map_set, set_append_left _ _ hi']

/-- **What a proof proves**: the leaf may stand in its place without a change of the root. -/
theorem verifyProof_iff (hi : i < leaves.length) (leaf : Bytes) :
    verifyProof sum256 ((merkleNew sum256 leaves).2.getD i []) (merkleNew sum256 leaves).1 leaf i = true ↔
      (merkleNew sum256 (leaves.set i leaf)).1 = (merkleNew sum256 leaves).1 := by
  obtain ⟨k, hk, hle⟩ := nextPowerOfTwo_eq leaves.length
  have hne : leaves.length ≠ 0 := Nat.ne_zero_of_lt hi
  have hlen := length_bottomLayer sum256 hk hle
  have hset : (leaves.set i leaf).length = leaves.length := length_set
  have hclimb :
    root (merkleNodeHash sum256) k ((bottomLayer sum256 leaves).set i (merkleLeafHash sum256 leaf)) =
      some (climb (merkleNodeHash sum256) (merkleLeafHash sum256 leaf)
        (siblings (merkleNodeHash sum256) zeroHash k (bottomLayer sum256 leaves) i) i) :=
    climb_siblings zeroHash k _ hlen i (by omega) _
  have hget : (merkleNew sum256 leaves).2.getD i [] =
      siblings (merkleNodeHash sum256) zeroHash k (bottomLayer sum256 leaves) i := by
    rw [merkleNew_eq sum256 hk hle hne, getD_eq_getElem?_getD, getElem?_map, getElem?_range hi]
    rfl
  have hroot :
    (merkleNew sum256 (leaves.set i leaf)).1 = climb (merkleNodeHash sum256) (merkleLeafHash sum256 leaf)
      (siblings (merkleNodeHash sum256) zeroHash k (bottomLayer sum256 leaves) i) i := by
    rw [merkleNew_eq sum256 (by rwa [hset]) (by rwa [hset]) (by rwa [hset]),
      bottomLayer_set sum256 hi, hclimb]
    rfl
  rw [verifyProof, hget, beq_iff_eq, hroot]

end

variable {Peer PrivKey PubKey : Type} {K : Keys Peer PrivKey PubKey} {R : ReedSolomon}
  {sum256 : Bytes → Bytes32}
  {privKey : PrivKey} {committeeID : Bytes32} {nonce : UInt64} {message : Bytes} {numDataShards parity : ℕ}
    {publisher : Peer}
  {encoded : List Bytes} {units : List (PropellerUnit Peer)} {signature : Bytes}

/-! ### The units -/

variable {unit : PropellerUnit Peer}

def unitOf (sum256 : Bytes → Bytes32) (committeeID : Bytes32) (publisher : Peer) (encoded : List Bytes)
    (signature : Bytes) (i : ℕ) : PropellerUnit Peer :=
  { committeeID := committeeID
    publisher := publisher
    messageRoot := (merkleNew sum256 encoded).1
    merkleProof := (merkleNew sum256 encoded).2.getD i []
    signature := signature
    shardIndex := i
    shardData := [encoded.getD i []]
    nonce := 0 }

theorem createPropellerUnits_ok (hid : K.idFromPrivateKey privKey = some publisher)
    (hencoded : R.encodeData (padMessage message numDataShards) numDataShards parity = some encoded)
    (h : createPropellerUnits K R sum256 privKey committeeID nonce message numDataShards parity = .ok units) :
    ∃ signature, K.sign privKey (buildSignPayload (merkleNew sum256 encoded).1 committeeID nonce) =
      some signature ∧
      units = (List.range encoded.length).map (unitOf sum256 committeeID publisher encoded signature) := by
  rw [createPropellerUnits, hid, hencoded] at h
  simp only at h
  cases hsign : K.sign privKey (buildSignPayload (merkleNew sum256 encoded).1 committeeID nonce) with
  | none =>
    rw [hsign] at h
    cases h
  | some signature =>
    rw [hsign] at h
    exact ⟨signature, rfl, (Except.ok.inj h).symm⟩

theorem encodeData_ok {data : Bytes} (h : R.encodeData data numDataShards parity = some encoded) :
    R.encode data numDataShards parity = some encoded := by
  rw [ReedSolomon.encodeData] at h
  split_ifs at h
  exact h

/-- The Merkle root of the shards does not tell the shards from their protobuf encodings. -/
def Blind (sum256 : Bytes → Bytes32) (encoded : List Bytes) : Prop :=
  ∀ i < encoded.length,
    (merkleNew sum256 (encoded.set i (marshalProto [encoded.getD i []]))).1 = (merkleNew sum256 encoded).1

theorem verifyDataShards_ok : verifyDataShards sum256 unit = .ok () ↔
    unit.shardData.length = 1 ∧
      verifyProof sum256 unit.merkleProof unit.messageRoot (marshalProto unit.shardData) unit.shardIndex =
        true := by
  rw [verifyDataShards]
  split_ifs with hlen hproof
  · exact iff_of_false (by simp) fun h => hlen h.1
  · exact iff_of_true rfl ⟨not_not.mp hlen, hproof⟩
  · exact iff_of_false (by simp) fun h => hproof h.2

theorem verifyDataShards_unitOf (hi : i < encoded.length) :
    verifyDataShards sum256 (unitOf sum256 committeeID publisher encoded signature i) = .ok () ↔
      (merkleNew sum256 (encoded.set i (marshalProto [encoded.getD i []]))).1 =
        (merkleNew sum256 encoded).1 := by
  rw [← verifyProof_iff sum256 hi, verifyDataShards_ok]
  exact and_iff_right rfl

theorem mem_units
    (h : unit ∈ (List.range encoded.length).map (unitOf sum256 committeeID publisher encoded signature)) :
    unit.shardIndex < encoded.length ∧
      unit = unitOf sum256 committeeID publisher encoded signature unit.shardIndex := by
  obtain ⟨i, hi, rfl⟩ := mem_map.mp h
  exact ⟨mem_range.mp hi, rfl⟩

/-! ### Putting the message together -/

structure Received (units : List (PropellerUnit Peer)) (numDataShards : ℕ)
    (known : List (Option (PropellerUnit Peer))) :
    Prop where
  length : known.length = units.length
  units : ∀ (i : ℕ) unit, known[i]? = some (some unit) → units[i]? = some unit
  enough : numDataShards ≤ (known.filter Option.isSome).length

theorem shardsOf_eq (known : List (Option (PropellerUnit Peer)))
    (h : ∀ unit, some unit ∈ known → ∃ shard, unit.shardData = [shard]) :
    shardsOf known = .ok (known.map fun unit => unit.bind fun unit => unit.shardData.head?) := by
  induction known with
  | nil => rfl
  | cons unit known ih =>
    have hih := ih fun unit hunit => h unit (mem_cons_of_mem _ hunit)
    cases unit with
    | none =>
      rw [shardsOf, hih]
      rfl
    | some unit =>
      obtain ⟨shard, hshard⟩ := h unit mem_cons_self
      rw [shardsOf, hshard, map_cons, Option.bind_some, hshard, hih]
      rfl

section

variable {known : List (Option (PropellerUnit Peer))}

theorem getElem?_map_range {α : Type} {f : ℕ → α} {n : ℕ} {a : α}
    (h : ((List.range n).map f)[i]? = some a) : i < n ∧ a = f i := by
  rw [getElem?_map, Option.map_eq_some_iff] at h
  obtain ⟨j, hj, rfl⟩ := h
  obtain ⟨hlt, hj⟩ := List.getElem?_eq_some_iff.mp hj
  rw [length_range] at hlt
  rw [getElem_range] at hj
  exact ⟨hlt, by rw [hj]⟩

theorem Received.unitOf
    (h : Received ((List.range encoded.length).map (unitOf sum256 committeeID publisher encoded signature))
      numDataShards known)
    (hunit : known[i]? = some (some unit)) :
    i < encoded.length ∧ unit = Propeller.unitOf sum256 committeeID publisher encoded signature i := by
  exact getElem?_map_range (h.units i unit hunit)

theorem Received.recover
    (hencode : R.encode (padMessage message numDataShards) numDataShards parity = some encoded)
    (h : Received
      ((List.range encoded.length).map (Propeller.unitOf sum256 committeeID publisher encoded signature))
      numDataShards known)
    (hne : encoded.length ≠ 0) :
    ∃ shards, shardsOf known = .ok shards ∧ R.recoverData shards numDataShards parity = some encoded := by
  have hlen : known.length = encoded.length := by
    rw [h.length, length_map, length_range]
  have hshards := shardsOf_eq known (by
    intro unit hunit
    obtain ⟨i, hi⟩ := mem_iff_getElem?.mp hunit
    exact ⟨encoded.getD i [], by rw [(h.unitOf hi).2]; rfl⟩)
  refine ⟨_, hshards, ?_⟩
  have hne' : (known.map fun unit => unit.bind fun unit : PropellerUnit Peer => unit.shardData.head?).length ≠
      0 := by
    rw [length_map, hlen]
    exact hne
  rw [ReedSolomon.recoverData, if_neg hne']
  refine R.reconstruct_encode hencode _ (by rw [length_map, hlen]) ?_ ?_
  · intro i shard hshard
    rw [getElem?_map, Option.map_eq_some_iff] at hshard
    obtain ⟨unit, hunit, hshard⟩ := hshard
    rw [Option.bind_eq_some_iff] at hshard
    obtain ⟨unit', rfl, hhead⟩ := hshard
    obtain ⟨hi, rfl⟩ := h.unitOf hunit
    rw [← hhead, Propeller.unitOf, head?_cons, getD_eq_getElem _ _ hi, getElem?_eq_getElem hi]
  · refine h.enough.trans (le_of_eq ?_)
    rw [filter_map, length_map]
    congr 1
    refine filter_congr fun unit hunit => ?_
    cases unit with
    | none => rfl
    | some unit =>
      obtain ⟨i, hi⟩ := mem_iff_getElem?.mp hunit
      rw [(h.unitOf hi).2]
      rfl

theorem unpad_flatten
    (hencode : R.encode (padMessage msg.bytes numDataShards) numDataShards parity = some encoded) :
    unpadMessage encoded.flatten = .ok msg.bytes := by
  obtain ⟨zeros, hzeros⟩ := R.data_encode hencode
  have hflat : encoded.flatten = put msg.bytes.length ++ msg.bytes ++
      (replicate (paddedLen (put msg.bytes.length ++ msg.bytes).length numDataShards -
        (put msg.bytes.length ++ msg.bytes).length) 0 ++ zeros ++ (encoded.drop numDataShards).flatten) := by
    rw [← take_append_drop numDataShards encoded, flatten_append, ← hzeros, take_append_drop, padMessage]
    simp only [append_assoc]
  rw [hflat]
  exact unpadMessage_put msg _

/-- **The message comes back exactly if the first unit is there.** -/
theorem constructs_iff
    (hencode : R.encode (padMessage msg.bytes numDataShards) numDataShards parity = some encoded)
    (h : Received ((List.range encoded.length).map (unitOf sum256 committeeID publisher encoded signature))
      numDataShards known)
    (hi : i < encoded.length) :
    constructMessageFromUnits R sum256 known i numDataShards parity =
        .ok (msg.bytes, [encoded.getD i []], (merkleNew sum256 encoded).2.getD i []) ↔
      ∃ unit, known[0]? = some (some unit) := by
  have hne : encoded.length ≠ 0 := Nat.ne_zero_of_lt hi
  have hlen : known.length ≠ 0 := by
    rwa [h.length, length_map, length_range]
  obtain ⟨shards, hshards, hrecover⟩ := h.recover hencode hne
  obtain ⟨size, hsize⟩ := R.size_encode hencode
  have hsame : ¬((encoded.take numDataShards).any
      (fun shard => shard.length != (encoded.headD []).length) = true) := by
    rw [any_eq_true]
    rintro ⟨shard, hshard, hdiff⟩
    rw [bne_iff_ne, hsize shard (mem_of_mem_take hshard)] at hdiff
    cases hhead : encoded with
    | nil => exact hne (by rw [hhead]; rfl)
    | cons first rest =>
      rw [hhead, headD_cons, hsize first (by rw [hhead]; exact mem_cons_self)] at hdiff
      exact hdiff rfl
  have hproof : i < (merkleNew sum256 encoded).2.length := by rwa [length_merkleNew]
  rw [constructMessageFromUnits, if_neg hlen, hshards, ok_bind]
  simp only [hrecover, if_neg hsame, unpad_flatten hencode, getElem?_eq_getElem hi,
    getElem?_eq_getElem hproof,
    getD_eq_getElem _ _ hi, getD_eq_getElem _ _ hproof, head?_eq_getElem?]
  cases hfirst : known[0]? with
  | none => simp
  | some first =>
    cases first with
    | none => simp
    | some unit =>
      have hroot : unit.messageRoot = (merkleNew sum256 encoded).1 := by
        rw [(h.unitOf hfirst).2]
        rfl
      simp [hroot]

end

variable {sender : Peer}

section

variable [LinearOrder Peer] {nodes : List (PeerCommittee Peer)} {s s' : Scheduler Peer}

/-! ### Validation -/

variable {v : UnitValidator Peer PubKey}

omit [LinearOrder Peer] in
theorem verifySignature_ok (hv : v.verifiedSignature = none) :
    v.verifySignature K unit = .ok () ↔ unit.signature ≠ [] ∧
      K.verify v.publisherPubKey (buildSignPayload unit.messageRoot unit.committeeID unit.nonce)
        unit.signature = true := by
  rw [verifySignature, hv]
  simp only
  split_ifs with hempty hverify
  · exact iff_of_false (by simp) fun h => h.1 hempty
  · exact iff_of_true rfl ⟨hempty, hverify⟩
  · exact iff_of_false (by simp) fun h => hverify h.2

structure Watching (K : Keys Peer PrivKey PubKey) (privKey : PrivKey) (s : Scheduler Peer) (signature : Bytes)
    (v : UnitValidator Peer PubKey) : Prop where
  pubKey : v.publisherPubKey = K.publicKey privKey
  scheduler : v.scheduler = s
  seen : v.verifiedSignature = none ∨ v.verifiedSignature = some signature

theorem Watching.validate (h : Watching K privKey s signature v)
    (hsign : K.sign privKey (buildSignPayload (merkleNew sum256 encoded).1 committeeID 0) = some signature)
    (hblind : Blind sum256 encoded) (hpub : publisher ≠ s.localPeerID) (hi : i < encoded.length)
    (hsender : s.Designates publisher i sender) (hnew : i ∉ v.receivedShards) :
    ∃ v', v.validate K sum256 (unitOf sum256 committeeID publisher encoded signature i) sender = .ok v' ∧
      Watching K privKey s signature v' ∧ v'.receivedShards = i :: v.receivedShards := by
  have horigin : v.scheduler.validateShardOrigin sender publisher i = .ok () := by
    rw [h.scheduler]
    exact validateShardOrigin_designated hsender hpub
  have hdata : verifyDataShards sum256 (unitOf sum256 committeeID publisher encoded signature i) = .ok () :=
    (verifyDataShards_unitOf hi).mpr (hblind i hi)
  have hsig : v.verifySignature K (unitOf sum256 committeeID publisher encoded signature i) = .ok () := by
    rcases h.seen with hseen | hseen
    · rw [verifySignature_ok hseen, h.pubKey]
      exact ⟨K.sign_ne_nil hsign, (K.verify_sign hsign _).mpr rfl⟩
    · rw [verifySignature, hseen]
      exact if_pos rfl
  have hnew' : ¬((unitOf sum256 committeeID publisher encoded signature i).shardIndex ∈ v.receivedShards) :=
    hnew
  refine ⟨{ v with receivedShards := i :: v.receivedShards, verifiedSignature := some signature }, ?_,
    ⟨h.pubKey, h.scheduler, .inr rfl⟩, rfl⟩
  rw [UnitValidator.validate, if_neg hnew', hdata, hsig]
  have horigin' :
    v.scheduler.validateShardOrigin sender (unitOf sum256 committeeID publisher encoded signature i).publisher
      (unitOf sum256 committeeID publisher encoded signature i).shardIndex = .ok () := horigin
  rw [horigin']
  rfl

theorem Watching.validateAll (h : Watching K privKey s signature v)
    (hsign : K.sign privKey (buildSignPayload (merkleNew sum256 encoded).1 committeeID 0) = some signature)
    (hblind : Blind sum256 encoded) (hpub : publisher ≠ s.localPeerID) (arrivals : List (ℕ × Peer))
    (hdistinct : (arrivals.map Prod.fst).Nodup)
    (harrivals : ∀ a ∈ arrivals, a.1 < encoded.length ∧ s.Designates publisher a.1 a.2)
    (hnew : ∀ a ∈ arrivals, a.1 ∉ v.receivedShards) :
    ∃ v', v.validateAll K sum256
      (arrivals.map fun a => (unitOf sum256 committeeID publisher encoded signature a.1, a.2)) = .ok v' := by
  induction arrivals generalizing v with
  | nil => exact ⟨v, rfl⟩
  | cons a arrivals ih =>
    obtain ⟨hi, hsender⟩ := harrivals a mem_cons_self
    obtain ⟨v₁, hv₁, hwatch, hseen⟩ := h.validate hsign hblind hpub hi hsender (hnew a mem_cons_self)
    rw [map_cons, nodup_cons] at hdistinct
    have hnew₁ : ∀ b ∈ arrivals, b.1 ∉ v₁.receivedShards := by
      intro b hb hmem
      rw [hseen, mem_cons] at hmem
      rcases hmem with heq | hmem
      · exact hdistinct.1 (heq ▸ mem_map_of_mem hb)
      · exact hnew b (mem_cons_of_mem a hb) hmem
    obtain ⟨v', hv'⟩ := ih hwatch hdistinct.2 (fun b hb => harrivals b (mem_cons_of_mem a hb)) hnew₁
    refine ⟨v', ?_⟩
    rw [map_cons, validateAll, hv₁]
    exact hv'

theorem validate_ok {v' : UnitValidator Peer PubKey} (hv : newValidator K publisher s = some v)
    (hid : K.idFromPrivateKey privKey = some publisher)
    (hsign : K.sign privKey (buildSignPayload (merkleNew sum256 encoded).1 committeeID nonce) =
      some signature)
    (hi : i < encoded.length)
    (h : v.validate K sum256 (unitOf sum256 committeeID publisher encoded signature i) sender = .ok v') :
    nonce = 0 ∧
      (merkleNew sum256 (encoded.set i (marshalProto [encoded.getD i []]))).1 =
        (merkleNew sum256 encoded).1 := by
  rw [newValidator, K.extract_id hid] at hv
  cases hv
  rw [validate, if_neg not_mem_nil] at h
  obtain ⟨_, -, h⟩ := bind_eq_ok.mp h
  obtain ⟨_, hdata, h⟩ := bind_eq_ok.mp h
  obtain ⟨_, hsig, -⟩ := bind_eq_ok.mp h
  refine ⟨?_, (verifyDataShards_unitOf hi).mp hdata⟩
  have hverify := ((verifySignature_ok rfl).mp hsig).2
  exact (buildSignPayload_nonce.mp ((K.verify_sign hsign _).mp hverify)).symm

/-! ### The round trip -/

/-- **The round trip**: every unit passes at every member but the publisher when it comes from the peer the
scheduler designates, in any order, and every set of at least `numDataShards` units gives the message and
the unit of the local member. -/
structure RoundTrips (K : Keys Peer PrivKey PubKey) (R : ReedSolomon) (sum256 : Bytes → Bytes32)
    (nodes : List (PeerCommittee Peer)) (publisher : Peer) (message : Bytes) (numDataShards parity : ℕ)
    (units : List (PropellerUnit Peer)) : Prop where
  validated : ∀ member ∈ nodes, member.id ≠ publisher → ∀ s, newScheduler member.id nodes = .ok s →
    ∀ arrivals : List (PropellerUnit Peer × Peer), (arrivals.map fun a => a.1.shardIndex).Nodup →
    (∀ a ∈ arrivals, a.1 ∈ units ∧ s.Designates publisher a.1.shardIndex a.2) →
    ∃ v v', newValidator K publisher s = some v ∧ v.validateAll K sum256 arrivals = .ok v'
  constructed : ∀ known, Received units numDataShards known → ∀ i unit, units[i]? = some unit →
    constructMessageFromUnits R sum256 known i numDataShards parity =
      .ok (message, unit.shardData, unit.merkleProof)

theorem validates_iff (hs : Scheduled nodes s) (hpub : s.localPeerID = publisher)
    (hid : K.idFromPrivateKey privKey = some publisher) (hlen : encoded.length = nodes.length - 1)
    (hsign : K.sign privKey (buildSignPayload (merkleNew sum256 encoded).1 committeeID nonce) =
      some signature) :
    (∀ member ∈ nodes, member.id ≠ publisher → ∀ s, newScheduler member.id nodes = .ok s →
      ∀ arrivals : List (PropellerUnit Peer × Peer), (arrivals.map fun a => a.1.shardIndex).Nodup →
      (∀ a ∈ arrivals,
        a.1 ∈ (List.range encoded.length).map (unitOf sum256 committeeID publisher encoded signature) ∧
        s.Designates publisher a.1.shardIndex a.2) →
      ∃ v v', newValidator K publisher s = some v ∧ v.validateAll K sum256 arrivals = .ok v') ↔
      nonce = 0 ∧ Blind sum256 encoded := by
  obtain ⟨j, hj⟩ := hs.member
  rw [hpub] at hj
  constructor
  · intro h
    obtain ⟨p, hp, hne⟩ := hs.other publisher
    obtain ⟨s', hs'⟩ := hs.newScheduler hp
    obtain ⟨hsched, -, -⟩ := newScheduler_ok hs'
    have hunit : ∀ i < encoded.length, nonce = 0 ∧
        (merkleNew sum256 (encoded.set i (marshalProto [encoded.getD i []]))).1 =
          (merkleNew sum256 encoded).1 := by
      intro i hi
      obtain ⟨peer, hpeer⟩ := hsched.peerForShardIndex hj (hlen ▸ hi)
      obtain ⟨v, v', hv, hall⟩ := h p hp hne s' hs'
        [(unitOf sum256 committeeID publisher encoded signature i,
          if peer = s'.localPeerID then publisher else peer)]
        (nodup_singleton _) (by
          intro a ha
          rw [mem_singleton] at ha
          rw [ha]
          exact ⟨mem_map_of_mem (mem_range.mpr hi), peer, hpeer, rfl⟩)
      rw [validateAll] at hall
      obtain ⟨v₁, hv₁, -⟩ := bind_eq_ok.mp hall
      exact validate_ok hv hid hsign hi hv₁
    have htwo := hs.two
    exact ⟨(hunit 0 (by omega)).1, fun i hi => (hunit i hi).2⟩
  · rintro ⟨rfl, hblind⟩ member - hmember s' hs' arrivals hnodup harrivals
    obtain ⟨-, hlocal, -⟩ := newScheduler_ok hs'
    have hwatch : Watching K privKey s' signature ⟨K.publicKey privKey, s', [], none⟩ := ⟨rfl, rfl, .inl rfl⟩
    have hne : publisher ≠ s'.localPeerID := by
      rw [hlocal]
      exact hmember.symm
    have hmap : arrivals = (arrivals.map fun a => (a.1.shardIndex, a.2)).map
        fun a => (unitOf sum256 committeeID publisher encoded signature a.1, a.2) := by
      rw [map_map]
      have hself : arrivals.map ((fun a => (unitOf sum256 committeeID publisher encoded signature a.1, a.2)) ∘
          fun a : PropellerUnit Peer × Peer => (a.1.shardIndex, a.2)) = arrivals.map id :=
        map_congr_left fun a ha => Prod.ext (mem_units (harrivals a ha).1).2.symm rfl
      rw [hself, map_id]
    obtain ⟨v', hv'⟩ := hwatch.validateAll hsign hblind hne (arrivals.map fun a => (a.1.shardIndex, a.2))
      (by rw [map_map]; exact hnodup)
      (by
        intro a ha
        obtain ⟨b, hb, rfl⟩ := mem_map.mp ha
        exact ⟨(mem_units (harrivals b hb).1).1, (harrivals b hb).2⟩)
      (fun _ _ => not_mem_nil)
    rw [← hmap] at hv'
    exact ⟨_, v', by rw [newValidator, K.extract_id hid]; rfl, hv'⟩

/-- **The round trip works exactly for** a committee of two, nonce 0 and a hash that does not tell the shards
from their protobuf encodings. -/
theorem roundTrips_iff (K : Keys Peer PrivKey PubKey) (R : ReedSolomon) (sum256 : Bytes → Bytes32)
    (nodes : List (PeerCommittee Peer)) (privKey : PrivKey) (publisher : Peer) (committeeID : Bytes32)
    (nonce : UInt64) (message : Message) (s : Scheduler Peer) (encoded : List Bytes)
    (units : List (PropellerUnit Peer)) (hid : K.idFromPrivateKey privKey = some publisher)
    (hs : newScheduler publisher nodes = .ok s)
    (hencoded : R.encodeData (padMessage message.bytes s.numDataShards) s.numDataShards s.numCodingShards =
      some encoded)
    (hunits : createPropellerUnits K R sum256 privKey committeeID nonce message.bytes s.numDataShards
      s.numCodingShards = .ok units) :
    RoundTrips K R sum256 nodes publisher message.bytes s.numDataShards s.numCodingShards units ↔
      nodes.length = 2 ∧ nonce = 0 ∧ Blind sum256 encoded := by
  obtain ⟨hsched, hlocal, -⟩ := newScheduler_ok hs
  obtain ⟨signature, hsign, rfl⟩ := createPropellerUnits_ok hid hencoded hunits
  have hencode := encodeData_ok hencoded
  have htotal := hsched.total
  have htwo := hsched.two
  have hlen : encoded.length = nodes.length - 1 := (R.length_encode hencode).trans htotal
  have hvalid := validates_iff hsched hlocal hid hlen hsign
  have hunitsLen :
    ((range encoded.length).map (unitOf sum256 committeeID publisher encoded signature)).length =
      encoded.length := by rw [length_map, length_range]
  constructor
  · intro h
    refine ⟨?_, hvalid.mp h.validated⟩
    by_contra hmore
    -- all units but the first
    have hknown :
      Received ((range encoded.length).map (unitOf sum256 committeeID publisher encoded signature))
        s.numDataShards
        (none ::
          (((range encoded.length).map (unitOf sum256 committeeID publisher encoded signature)).tail.map
          some)) := by
      refine ⟨?_, ?_, ?_⟩
      · rw [length_cons, length_map, length_tail, hunitsLen]
        omega
      · intro i unit hunit
        cases i with
        | zero => cases hunit
        | succ i =>
          rw [getElem?_cons_succ, getElem?_map, getElem?_tail, Option.map_eq_some_iff] at hunit
          obtain ⟨unit', hunit', heq⟩ := hunit
          cases heq
          exact hunit'
      · rw [filter_cons_of_neg (by simp), filter_map, length_map]
        have hall : filter (Option.isSome ∘ some)
            ((range encoded.length).map (unitOf sum256 committeeID publisher encoded signature)).tail =
            ((range encoded.length).map (unitOf sum256 committeeID publisher encoded signature)).tail :=
          filter_eq_self.mpr fun _ _ => rfl
        rw [hall, length_tail, hunitsLen, hlen, hsched.data]
        omega
    have hzero : 0 < encoded.length := by omega
    have hget : ((range encoded.length).map (unitOf sum256 committeeID publisher encoded signature))[0]? =
        some (unitOf sum256 committeeID publisher encoded signature 0) := by
      rw [getElem?_map, getElem?_range hzero]
      rfl
    obtain ⟨unit, hunit⟩ := (constructs_iff hencode hknown hzero).mp (h.constructed _ hknown 0 _ hget)
    cases hunit
  · rintro ⟨hnodes, hrest⟩
    refine ⟨hvalid.mpr hrest, fun known hknown i unit hunit => ?_⟩
    obtain ⟨hlt, rfl⟩ := getElem?_map_range hunit
    refine (constructs_iff hencode hknown hlt).mpr ?_
    -- the only unit is there
    have hone : known.length = 1 := by
      rw [hknown.length, hunitsLen]
      omega
    obtain ⟨first, rfl⟩ := length_eq_one_iff.mp hone
    cases first with
    | some unit => exact ⟨unit, rfl⟩
    | none =>
      have henough := hknown.enough
      rw [hsched.data] at henough
      exact absurd henough (by simp)

end

/-! ### Examples of messages -/

/-- Keys that are their own ids, with signatures that show what was signed. -/
def plainKeys : Keys ℕ ℕ ℕ where
  idFromPrivateKey := some
  publicKey k := k
  extractPublicKey := some
  sign _ payload := some (0 :: payload)
  verify _ payload signature := decide (signature = 0 :: payload)
  extract_id h := congrArg some (Option.some.inj h).symm
  verify_sign := by
    intro privKey payload signature h payload'
    cases h
    rw [decide_eq_true_iff, List.cons.injEq]
    exact ⟨fun h => h.2.symm, fun h => ⟨rfl, h.symm⟩⟩
  sign_ne_nil := by
    intro privKey payload signature h
    cases h
    exact List.cons_ne_nil _ _

/-- A code with one data shard: every shard is the data. -/
def repetition : ReedSolomon where
  encode data numDataShards parity :=
    if numDataShards = 1 then some (List.replicate (1 + parity) data) else none
  reconstruct known numDataShards parity :=
    (known.findSome? id).map fun shard => List.replicate (numDataShards + parity) shard
  length_encode := by
    intro data numDataShards parity shards h
    split_ifs at h with hone
    cases h
    rw [List.length_replicate, hone]
  size_encode := by
    intro data numDataShards parity shards h
    split_ifs at h with hone
    cases h
    exact ⟨data.length, fun shard hshard => by rw [List.eq_of_mem_replicate hshard]⟩
  data_encode := by
    intro data numDataShards parity shards h
    split_ifs at h with hone
    cases h
    rw [hone, Nat.add_comm, List.replicate_succ, List.take_succ_cons, List.take_zero]
    exact ⟨[], by rw [List.append_nil, List.flatten_singleton]⟩
  reconstruct_encode := by
    intro data numDataShards parity shards h known hlen hknown henough
    split_ifs at h with hone
    cases h
    cases hfind : known.findSome? id with
    | none =>
      rw [List.findSome?_eq_none_iff] at hfind
      have hnil : known.filter Option.isSome = [] :=
        List.filter_eq_nil_iff.mpr fun shard hshard => by rw [show shard = none from hfind shard hshard]; simp
      rw [hnil, hone] at henough
      exact absurd henough (by simp)
    | some shard =>
      obtain ⟨found, hmem, hfound⟩ := List.exists_of_findSome?_eq_some hfind
      obtain ⟨i, hi⟩ := List.mem_iff_getElem?.mp hmem
      have hfound' : found = some shard := hfound
      rw [hfound'] at hi
      have hdata := List.eq_of_mem_replicate (List.mem_of_getElem? (hknown i shard hi))
      rw [Option.map_some, hone, hdata]

/-- A hash that tells nothing apart. -/
def blindHash : Bytes → Bytes32 := fun _ => zeroHash

/-- A hash that tells some bytes apart. -/
def checksum : Bytes → Bytes32 := fun bytes => Vector.replicate 32 (bytes.foldl (fun a b => 3 * a + b) 0)

def pair : List (PeerCommittee ℕ) := [⟨1, 0⟩, ⟨2, 0⟩]

def trio : List (PeerCommittee ℕ) := [⟨1, 0⟩, ⟨2, 0⟩, ⟨3, 0⟩]

def short : Message := ⟨[7], by decide⟩

/-- The round trip of a short message in a committee of two. -/
theorem roundTrips_pair :
    ∃ units, createPropellerUnits plainKeys repetition blindHash 1 zeroHash 0 short.bytes 1 0 = .ok units ∧
      RoundTrips plainKeys repetition blindHash pair 1 short.bytes 1 0 units := by
  refine ⟨_, rfl, ?_⟩
  refine (roundTrips_iff plainKeys repetition blindHash pair 1 1 zeroHash 0 short ⟨1, 0, pair, 1, 0⟩
    [padMessage short.bytes 1] _ rfl rfl rfl rfl).mpr ⟨rfl, rfl, ?_⟩
  intro i hi
  have hzero : i = 0 := Nat.lt_one_iff.mp hi
  subst hzero
  rfl

/-- **Honest units are refused, and a missing first unit panics.** In a committee of three, the units of the
publisher 1 with nonce 1 come to the member 2 from the peers the scheduler designates: the Merkle check
refuses them all, and where the hash does not matter the signature check does; and the second unit alone,
enough to recover the shards, does not give the message. -/
theorem honest_units_refused : ∃ units units' : List (PropellerUnit ℕ),
    createPropellerUnits plainKeys repetition checksum 1 zeroHash 1 short.bytes 1 1 = .ok units ∧
      createPropellerUnits plainKeys repetition blindHash 1 zeroHash 1 short.bytes 1 1 = .ok units' ∧
      newScheduler 2 trio = .ok ⟨2, 1, trio, 1, 1⟩ ∧
      newValidator plainKeys 1 ⟨2, 1, trio, 1, 1⟩ = some ⟨1, ⟨2, 1, trio, 1, 1⟩, [], none⟩ ∧
      (∀ unit ∈ units, validate plainKeys checksum ⟨1, ⟨2, 1, trio, 1, 1⟩, [], none⟩ unit
        (if unit.shardIndex = 0 then 1 else 3) = .error .dataShards) ∧
      (∀ unit ∈ units', validate plainKeys blindHash ⟨1, ⟨2, 1, trio, 1, 1⟩, [], none⟩ unit
        (if unit.shardIndex = 0 then 1 else 3) = .error .invalidSignature) ∧
      constructMessageFromUnits repetition checksum [none, units[1]?] 1 1 1 = .error .panic := by
  refine ⟨_, _, rfl, rfl, rfl, rfl, ?_, ?_, ?_⟩
  · decide +kernel
  · decide +kernel
  · decide +kernel

end Juno.Propeller
