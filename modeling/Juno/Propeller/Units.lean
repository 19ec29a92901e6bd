import Juno.Lib.Merkle
import Juno.Lib.Uvarint
import Mathlib

/-!
# The units of a propeller message

Package `consensus/propeller`: a publisher pads a message, cuts it into shards with a
Reed-Solomon code, and gives every other member of the committee one shard in a signed unit
with a Merkle proof. The members check the units, pass them on, and put the message together
from enough of them.

## The model

* `Keys`, `ReedSolomon` — the third-party code: keys and signatures, and the erasure code, with
  what is assumed of them. The Merkle hash is a parameter, any function from bytes to 32 bytes.
* `padMessage`, `unpadMessage`, `buildSignPayload`, `merkleNew`, `marshalProto` — the bytes that are cut,
  signed and hashed.
* `newScheduler`, `validateShardOrigin` — the committee, and who sends which shard.
-/

namespace Juno.Propeller

open Juno.Lib

/-- `[]byte`. -/
abbrev Bytes := List UInt8

/-- `[32]byte`. -/
abbrev Bytes32 := Vector UInt8 32

def tag (s : String) : Bytes := s.toUTF8.toList

/-- A message to publish: its length is an `int`. -/
structure Message where
  bytes : Bytes
  /-- A slice is shorter than `2 ^ 63`. -/
  fits : bytes.length < 2 ^ 63

/-! ### Third-party code -/

structure Keys (Peer PrivKey PubKey : Type) where
  idFromPrivateKey : PrivKey → Option Peer
  publicKey : PrivKey → PubKey
  extractPublicKey : Peer → Option PubKey
  sign : PrivKey → Bytes → Option Bytes
  /-- `Verify`; an error counts as `false`. -/
  verify : PubKey → Bytes → Bytes → Bool
  extract_id : ∀ {privKey id}, idFromPrivateKey privKey = some id →
    extractPublicKey id = some (publicKey privKey)
  verify_sign : ∀ {privKey payload signature}, sign privKey payload = some signature →
    ∀ payload', verify (publicKey privKey) payload' signature = true ↔ payload' = payload
  sign_ne_nil : ∀ {privKey payload signature}, sign privKey payload = some signature → signature ≠ []

structure ReedSolomon where
  /-- `New`, `Split` and `Encode`. -/
  encode : Bytes → ℕ → ℕ → Option (List Bytes)
  /-- `New`, `Reconstruct` and `Verify`; a missing shard is `none`. -/
  reconstruct : List (Option Bytes) → ℕ → ℕ → Option (List Bytes)
  /-- There are as many shards as asked for. -/
  length_encode : ∀ {data numDataShards parity shards}, encode data numDataShards parity = some shards →
    shards.length = numDataShards + parity
  size_encode : ∀ {data numDataShards parity shards}, encode data numDataShards parity = some shards →
    ∃ size, ∀ shard ∈ shards, shard.length = size
  data_encode : ∀ {data numDataShards parity shards}, encode data numDataShards parity = some shards →
    data <+: (shards.take numDataShards).flatten
  reconstruct_encode : ∀ {data numDataShards parity shards}, encode data numDataShards parity = some shards →
    ∀ known : List (Option Bytes), known.length = shards.length →
    (∀ (i : ℕ) shard, known[i]? = some (some shard) → shards[i]? = some shard) →
    numDataShards ≤ (known.filter Option.isSome).length → reconstruct known numDataShards parity = some shards

def ReedSolomon.encodeData (R : ReedSolomon) (data : Bytes) (numDataShards parity : ℕ) :
    Option (List Bytes) :=
  if data.length = 0 then none else R.encode data numDataShards parity

def ReedSolomon.recoverData (R : ReedSolomon) (shards : List (Option Bytes)) (numDataShards parity : ℕ) :
    Option (List Bytes) :=
  if shards.length = 0 then none else R.reconstruct shards numDataShards parity

/-! ### Padding -/

/-- The length rounded up to a multiple of `2 * numDataShards`. -/
def paddedLen (len numDataShards : ℕ) : ℕ :=
  let divisor := 2 * numDataShards
  if len % divisor ≠ 0 then len + (divisor - len % divisor) else len

/-- `PadMessage`: the length as a varint, the message, and zeros. -/
def padMessage (msg : Bytes) (numDataShards : ℕ) : Bytes :=
  let unpadded := Uvarint.put msg.length ++ msg
  unpadded ++ List.replicate (paddedLen unpadded.length numDataShards - unpadded.length) 0

inductive UnpadError where
  /-- `invalid varint prefix in padded message`. -/
  | invalidVarint
  /-- `varint length … exceeds available data`. -/
  | exceeds
  | panic
  deriving DecidableEq

def unpadMessage (padded : Bytes) : Except UnpadError Bytes :=
  match Uvarint.read padded with
  | none => .error .invalidVarint
  | some (msgLen, varintLen) =>
    let stop := (varintLen + msgLen) % 2 ^ 64
    if padded.length < stop then .error .exceeds
    else if stop < varintLen then .error .panic
    else .ok ((padded.take stop).drop varintLen)

/-! ### Signing -/

/-- `binary.BigEndian.PutUint64`. -/
def bigEndian (n : UInt64) : Bytes :=
  (List.range 8).map fun k => UInt8.ofNat (n.toNat / 256 ^ (7 - k) % 256)

def buildSignPayload (root committeeID : Bytes32) (nonce : UInt64) : Bytes :=
  tag "<propeller>" ++ root.toList ++ committeeID.toList ++ bigEndian nonce ++ tag "<propeller/>"

/-! ### The Merkle tree -/

section

variable (sum256 : Bytes → Bytes32)

def merkleLeafHash (data : Bytes) : Bytes32 := sum256 (tag "<leaf>" ++ data ++ tag "</leaf>")

def merkleNodeHash (left right : Bytes32) : Bytes32 :=
  sum256 (tag "<node><left>" ++ left.toList ++ tag "</left><right>" ++ right.toList ++ tag "</right></node>")

def zeroHash : Bytes32 := Vector.replicate 32 0

def nextPowerOfTwo (n : ℕ) : ℕ := if n ≤ 2 then 2 else 2 ^ Nat.size (n - 1)

/-- The loop of `New` on the layer at hand; each leaf has its siblings so far and its ancestor in the layer.
Every turn halves the layer, so its length bounds the turns. -/
def buildLoop : ℕ → List Bytes32 → List (List Bytes32 × ℕ) → Bytes32 × List (List Bytes32 × ℕ)
  | 0, layer, proofs => (layer.headD zeroHash, proofs)
  | fuel + 1, layer, proofs =>
    if 1 < layer.length then
      buildLoop fuel (Merkle.pairs (merkleNodeHash sum256) layer)
        (proofs.map fun p => (p.1 ++ [layer.getD (p.2 ^^^ 1) zeroHash], p.2 / 2))
    else (layer.headD zeroHash, proofs)

/-- The bottom layer: the hashes of the leaves, filled up with those of empty ones. -/
def bottomLayer (leaves : List Bytes) : List Bytes32 :=
  leaves.map (merkleLeafHash sum256) ++
    List.replicate (nextPowerOfTwo leaves.length - leaves.length) (merkleLeafHash sum256 [])

/-- `merkle.New`: the root, and the proof of each leaf. -/
def merkleNew (leaves : List Bytes) : Bytes32 × List (List Bytes32) :=
  if leaves.length = 0 then (zeroHash, [])
  else
    let r := buildLoop sum256 (bottomLayer sum256 leaves).length (bottomLayer sum256 leaves)
      ((List.range leaves.length).map fun j => ([], j))
    (r.1, r.2.map Prod.fst)

def verifyProof (siblings : List Bytes32) (root : Bytes32) (leaf : Bytes) (index : ℕ) : Bool :=
  Merkle.climb (merkleNodeHash sum256) (merkleLeafHash sum256 leaf) siblings index == root

end

/-! ### Units -/

/-- `pb.Shard` on the wire: an empty field is left out. -/
def marshalShard (data : Bytes) : Bytes := if data = [] then [] else 0x0a :: Uvarint.put data.length ++ data

def marshalProto (shardData : List Bytes) : Bytes :=
  shardData.flatMap fun shard => 0x0a :: Uvarint.put (marshalShard shard).length ++ marshalShard shard

structure PropellerUnit (Peer : Type) where
  committeeID : Bytes32
  publisher : Peer
  messageRoot : Bytes32
  merkleProof : List Bytes32
  signature : Bytes
  shardIndex : ℕ
  shardData : List Bytes
  nonce : UInt64

variable {Peer PrivKey PubKey : Type}

/-- The errors of `CreatePropellerUnits`. -/
inductive CreateError where
  /-- `getting publisher id … from private key`. -/
  | publisher
  /-- `encoding the message`. -/
  | encoding
  /-- `signing message root`. -/
  | signing
  deriving DecidableEq

/-- `CreatePropellerUnits`. The nonce is signed and not put into the units. -/
def createPropellerUnits (K : Keys Peer PrivKey PubKey) (R : ReedSolomon) (sum256 : Bytes → Bytes32)
    (privKey : PrivKey) (committeeID : Bytes32) (nonce : UInt64) (message : Bytes)
      (numDataShards parity : ℕ) :
    Except CreateError (List (PropellerUnit Peer)) :=
  match K.idFromPrivateKey privKey with
  | none => .error .publisher
  | some publisherID =>
    match R.encodeData (padMessage message numDataShards) numDataShards parity with
    | none => .error .encoding
    | some encodedMessage =>
      let tree := merkleNew sum256 encodedMessage
      match K.sign privKey (buildSignPayload tree.1 committeeID nonce) with
      | none => .error .signing
      | some signature =>
        .ok ((List.range encodedMessage.length).map fun i =>
          { committeeID := committeeID
            publisher := publisherID
            messageRoot := tree.1
            merkleProof := tree.2.getD i []
            signature := signature
            shardIndex := i
            shardData := [encodedMessage.getD i []]
            nonce := 0 })

/-! ### The committee -/

structure PeerCommittee (Peer : Type) where
  id : Peer
  stake : ℕ
  deriving DecidableEq

structure Scheduler (Peer : Type) where
  localPeerID : Peer
  localPeerIDIndex : ℕ
  peers : List (PeerCommittee Peer)
  numDataShards : ℕ
  numCodingShards : ℕ
  deriving DecidableEq

inductive ValidateError where
  /-- `at least 2 peers are required to form a new committee`. -/
  | tooFewPeers
  /-- `the local peer id is not part of the supplied list`. -/
  | notMember
  /-- `duplicated ids in the supplied list of peers`. -/
  | duplicatedIDs
  /-- `shard index out of range`. -/
  | shardIndex
  /-- `publisher … not found in the peer list`. -/
  | publisherNotFound
  /-- `self sending message`. -/
  | selfSending
  /-- `self published shard was sent back`. -/
  | selfPublished
  /-- `received shard index from unexpected sender`. -/
  | unexpectedSender
  /-- `duplicated shard received`. -/
  | duplicatedShard
  /-- `unexpected amount of shards`. -/
  | shardCount
  /-- `data shards verification failed`. -/
  | dataShards
  /-- `signature missmatch`. -/
  | signatureMismatch
  | emptySignature
  | invalidSignature
  | panic
  deriving DecidableEq

def Scheduler.numTotalShards (s : Scheduler Peer) : ℕ := s.numDataShards + s.numCodingShards

def verifyDataShards (sum256 : Bytes → Bytes32) (unit : PropellerUnit Peer) : Except ValidateError Unit :=
  if unit.shardData.length ≠ 1 then .error .shardCount
  else if verifyProof sum256 unit.merkleProof unit.messageRoot (marshalProto unit.shardData) unit.shardIndex
    then .ok ()
  else .error .dataShards

section

variable [LinearOrder Peer]

/-- The binary search for an id in the sorted list of peers. -/
def searchPeer (peers : List (PeerCommittee Peer)) (id : Peer) : Option ℕ :=
  peers.findIdx? fun p => p.id == id

def sortPeers (nodes : List (PeerCommittee Peer)) : List (PeerCommittee Peer) :=
  nodes.insertionSort fun a b => a.id ≤ b.id

def noDuplicates (nodes : List (PeerCommittee Peer)) : Bool :=
  (nodes.zip nodes.tail).all fun p => p.1.id != p.2.id

def newScheduler (id : Peer) (nodes : List (PeerCommittee Peer)) : Except ValidateError (Scheduler Peer) :=
  if nodes.length < 2 then .error .tooFewPeers
  else
    match searchPeer (sortPeers nodes) id with
    | none => .error .notMember
    | some idIndex =>
      if noDuplicates (sortPeers nodes) then
        let numDataShards := max 1 ((nodes.length - 1) / 3)
        .ok ⟨id, idIndex, sortPeers nodes, numDataShards, nodes.length - 1 - numDataShards⟩
      else .error .duplicatedIDs

/-- `PeerForShardIndex`: the publisher is skipped. -/
def Scheduler.peerForShardIndex (s : Scheduler Peer) (publisher : Peer) (shardIndex : ℕ) :
    Except ValidateError Peer :=
  if s.numTotalShards ≤ shardIndex then .error .shardIndex
  else
    match searchPeer s.peers publisher with
    | none => .error .publisherNotFound
    | some pubIdx =>
      match s.peers[if pubIdx ≤ shardIndex then shardIndex + 1 else shardIndex]? with
      | none => .error .panic
      | some peer => .ok peer.id

inductive ShardIndexError where
  /-- `scheduler peer is the same as the publisher and has no assigned shard`. -/
  | isPublisher
  /-- `couldn't locate shard index for publisher`. -/
  | publisherNotFound
  deriving DecidableEq

/-- `ShardIndexForPublisher`; the index is cast to 32 bits. -/
def Scheduler.shardIndexForPublisher (s : Scheduler Peer) (publisher : Peer) : Except ShardIndexError ℕ :=
  if s.localPeerID = publisher then .error .isPublisher
  else
    match searchPeer s.peers publisher with
    | none => .error .publisherNotFound
    | some pubIdx =>
      .ok ((if pubIdx ≤ s.localPeerIDIndex then s.localPeerIDIndex - 1 else s.localPeerIDIndex) % 2 ^ 32)

def Scheduler.validateShardOrigin (s : Scheduler Peer) (sender publisher : Peer) (shardIndex : ℕ) :
    Except ValidateError Unit :=
  if sender = s.localPeerID then .error .selfSending
  else if publisher = s.localPeerID then .error .selfPublished
  else
    match s.peerForShardIndex publisher shardIndex with
    | .error e => .error e
    | .ok expectedBroadcaster =>
      if expectedBroadcaster = s.localPeerID ∧ sender = publisher then .ok ()
      else if expectedBroadcaster = sender then .ok ()
      else .error .unexpectedSender

/-! ### Validation -/

structure UnitValidator (Peer PubKey : Type) where
  publisherPubKey : PubKey
  scheduler : Scheduler Peer
  receivedShards : List ℕ
  verifiedSignature : Option Bytes
  deriving DecidableEq

variable (K : Keys Peer PrivKey PubKey) (sum256 : Bytes → Bytes32)

/-- `NewValidator`; `none` is its panic. -/
def newValidator (publisher : Peer) (scheduler : Scheduler Peer) : Option (UnitValidator Peer PubKey) :=
  (K.extractPublicKey publisher).map fun pubKey => ⟨pubKey, scheduler, [], none⟩

def UnitValidator.verifySignature (v : UnitValidator Peer PubKey) (unit : PropellerUnit Peer) :
    Except ValidateError Unit :=
  match v.verifiedSignature with
  | some signature => if signature = unit.signature then .ok () else .error .signatureMismatch
  | none =>
    if unit.signature = [] then .error .emptySignature
    else if K.verify v.publisherPubKey (buildSignPayload unit.messageRoot unit.committeeID unit.nonce)
      unit.signature
      then .ok ()
    else .error .invalidSignature

/-- `Validate`; a unit that is refused changes nothing. -/
def UnitValidator.validate (v : UnitValidator Peer PubKey) (unit : PropellerUnit Peer) (sender : Peer) :
    Except ValidateError (UnitValidator Peer PubKey) :=
  if unit.shardIndex ∈ v.receivedShards then .error .duplicatedShard
  else do
    v.scheduler.validateShardOrigin sender unit.publisher unit.shardIndex
    verifyDataShards sum256 unit
    v.verifySignature K unit
    .ok { v with
      receivedShards := unit.shardIndex :: v.receivedShards
      verifiedSignature := some unit.signature }

def UnitValidator.validateAll (v : UnitValidator Peer PubKey) :
    List (PropellerUnit Peer × Peer) → Except ValidateError (UnitValidator Peer PubKey)
  | [] => .ok v
  | (unit, sender) :: arrivals => do
    let v ← v.validate K sum256 unit sender
    v.validateAll arrivals

end

/-! ### Putting the message together -/

inductive ConstructError where
  /-- `no propeller units to decode`. -/
  | noUnits
  /-- `recovering shards data`. -/
  | recovering
  /-- `missmatch on shard size`. -/
  | shardSize
  /-- `wrong message root hash`. -/
  | messageRoot
  /-- `unpadding reconstructed message`. -/
  | unpadding
  /-- A missing unit is read, or an index is out of range. -/
  | panic
  deriving DecidableEq

/-- The shards that are there: the first one of each unit. -/
def shardsOf : List (Option (PropellerUnit Peer)) → Except ConstructError (List (Option Bytes))
  | [] => .ok []
  | none :: units => do
    let shards ← shardsOf units
    .ok (none :: shards)
  | some unit :: units =>
    match unit.shardData with
    | [] => .error .panic
    | shard :: _ => do
      let shards ← shardsOf units
      .ok (some shard :: shards)

/-- `ConstructMessageFromUnits`; a missing unit is `nil`. The root is taken from the first unit. -/
def constructMessageFromUnits (R : ReedSolomon) (sum256 : Bytes → Bytes32)
    (units : List (Option (PropellerUnit Peer))) (localShardIndex numDataShards parity : ℕ) :
    Except ConstructError (Bytes × List Bytes × List Bytes32) :=
  if units.length = 0 then .error .noUnits
  else do
    let known ← shardsOf units
    match R.recoverData known numDataShards parity with
    | none => .error .recovering
    | some shards =>
      let shardSize := (shards.headD []).length
      if (shards.take numDataShards).any (fun shard => shard.length != shardSize) then .error .shardSize
      else
        let tree := merkleNew sum256 shards
        match units.head? with
        | some (some unit) =>
          if unit.messageRoot ≠ tree.1 then .error .messageRoot
          else
            match unpadMessage shards.flatten with
            | .error _ => .error .unpadding
            | .ok message =>
              match shards[localShardIndex]?, tree.2[localShardIndex]? with
              | some localShard, some localProof => .ok (message, [localShard], localProof)
              | _, _ => .error .panic
        | _ => .error .panic

end Juno.Propeller
