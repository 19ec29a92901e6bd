import Juno.Core.TrieSpec
import Juno.Lib.Except
import Juno.Trie2.Trie
import Mathlib

/-!
# Verifying a proof of the node-based trie

`VerifyProof` of `core/trie2/proof.go`. The nodes of a proof are trie nodes of any kind:
their children may be hash nodes, value nodes or whole subtrees, and they carry flags.

The verifier relies on more than the hash of a node binds: a cached hash is believed, a
value node ends the walk wherever it stands, a hash node is followed to itself, and after
an embedded child without a cached hash the same node is taken again with a shorter key.

`verifyProof_of_usable`: **the value returned is that of the map, and the walk ends**, for
every proof whose accepted nodes on the way of the key are fit (`Usable`).
`verifyProof_embedded`: a node of the map's own tree, with its child embedded, proves the
absence of a key that is there.
-/

namespace Juno.Trie2

open Lib Lib.Patricia Except Option Node List

/-- `ProofNodeSet`: the nodes of a proof, each under a hash that need not be its own. -/
abbrev ProofNodeSet := Felt → Option Node

/-- `get` without `skipResolved`: the child of a node towards a key, and what is left of the key. -/
def getChild : Node → Path → Node × Path
  | .edge path c _, key => if !equalMSBs path key then (.nil, key) else (c, key.drop path.length)
  | .binary left right _, key => (child (bit key 0) left right, key.drop 1)
  | n, key => (n, key)

/-- The `switch` of `VerifyProof`, and what comes after it with the next hash and the rest of the key. -/
def follow (expected : Felt) (cld : Node × Path) (next : Felt → Path → Except ProofError Felt) :
    Except ProofError Felt :=
  match cld with
  | (.nil, _) => .ok 0
  | (.hash h, key) => if key.length = 0 then .ok h else next h key
  | (.value v, _) => .ok v
  | (n, key) => next (n.cache.1.getD expected) key

def verifyFrom (H : HashFn) (proof : ProofNodeSet) : ℕ → Felt → Path → Except ProofError Felt
  | 0, _, _ => .error .diverge
  | fuel + 1, expected, key =>
    match proof expected with
    | none => .error .nodeNotFound
    | some node =>
      match hash H node with
      | .ok (.hash h, _) =>
        if h ≠ expected then .error .hashMismatch
          else follow expected (getChild node key) (verifyFrom H proof fuel)
      -- the hash of a value node is no hash node: the type assertion panics
      | _ => .error .panic

variable (H : HashFn)

/-- `VerifyProof`, for as many nodes as the fuel says. -/
def verifyProof (root key : Felt) (proof : ProofNodeSet) (fuel : ℕ) : Except ProofError Felt :=
  verifyFrom H proof fuel root (feltToPath 251 key)

abbrev verifyErrors : List ProofError := [.nodeNotFound, .hashMismatch, .panic]

/-! ### What the hash of a node binds -/

/-- The node a trie has for its own proof: the children collapsed. -/
def hashedNode : Node → Except TrieError (HashedNode Felt)
  | .edge path c _ => do
    let (c, _) ← hash H c
    return .edge (← c.hashOf H) path
  | .binary left right _ => do
    let (l, _) ← hash H (if left = .nil then .value 0 else left)
    let (r, _) ← hash H (if right = .nil then .value 0 else right)
    return .binary (← l.hashOf H) (← r.hashOf H)
  | _ => .error .panic

def ProofNodeSet.nodes (proof : ProofNodeSet) : Set (HashedNode Felt) :=
  {x | ∃ h n, proof h = some n ∧ hashedNode H n = .ok x}

/-- The child can be followed: it has a hash, or is a value where the key ends. -/
def Node.Followable (c : Node) (key : Path) : Prop :=
  match c with
  | .hash _ => True
  | .value _ => key = []
  | c => key ≠ [] ∧ c.cache.1.isSome = true

/-- The node is an edge or a binary node, its cached hash is its own, and its child towards the key can be
followed. -/
def Node.Fit (n : Node) (key : Path) : Prop :=
  (∀ x, n.cache.1 = some x → (hashedNode H n).map (HashedNode.hash (hasher H)) = .ok x) ∧
    match n with
    | .edge path c _ => equalMSBs path key = true → c.Followable (key.drop path.length)
    | .binary left right _ => (child (bit key 0) left right).Followable (key.drop 1)
    | _ => False

/-- The proof has a node for the hash, and the node passes the check. -/
def Accepts (proof : ProofNodeSet) (x : Felt) (n : Node) : Prop :=
  proof x = some n ∧ ∃ n', hash H n = .ok (.hash x, n')

/-- The nodes that are accepted on the way of a key along the tree are fit. -/
def Usable (H : HashFn) (proof : ProofNodeSet) : BitTree Felt → Path → Prop
  | .leaf _, _ => True
  | .binary l r, key => ∀ n, Accepts H proof (Patricia.hash (hasher H) (.binary l r)) n →
      n.Fit H key ∧ if bit key 0 then Usable H proof r (key.drop 1) else Usable H proof l (key.drop 1)
  | .edge p c, key => ∀ n, Accepts H proof (Patricia.hash (hasher H) (.edge p c)) n →
      n.Fit H key ∧ (p <+: key → Usable H proof c (key.drop p.length))

variable {H : HashFn} {proof : ProofNodeSet} {fuel : ℕ} {n : Node} {x : Felt}

theorem hash_cached (h : n.cache.1 = some x) : hash H n = .ok (.hash x, n) := by
  cases n <;> simp_all [hash, cache]

theorem hash_uncached (hinner : n.isInner = true) (hcache : n.cache.1 = none) :
    (hash H n).map Prod.fst = (hashedNode H n).map fun y => .hash (y.hash (hasher H)) := by
  cases n with
  | edge path c flags =>
    replace hcache : flags.hash = none := hcache
    have hc : hash H (.edge path c flags) = (hash H c >>= fun cc => do
        let h ← (edge path cc.1 flags).hashOf H
        return (.hash h, .edge path cc.2 { flags with hash := some h })) := by
      cases c <;> simp [hash, hcache, isInner, hashOf]
    rw [hc, hashedNode]
    cases hash H c with
    | error e => rfl
    | ok cc =>
      simp only [ok_bind, hashOf]
      cases cc.1.hashOf H <;> rfl
  | binary l r flags =>
    replace hcache : flags.hash = none := hcache
    have hlr : hash H (.binary l r flags) = (hash H (if l = .nil then .value 0 else l) >>= fun ll =>
        hash H (if r = .nil then .value 0 else r) >>= fun rr => do
          let h ← (binary ll.1 rr.1 flags).hashOf H
          return (.hash h, .binary ll.2 rr.2 { flags with hash := some h })) := by
      simp only [hash, hcache]
      split <;> split <;> rfl
    rw [hlr, hashedNode]
    cases hash H (if l = .nil then .value 0 else l) with
    | error e => rfl
    | ok ll =>
      cases hash H (if r = .nil then .value 0 else r) with
      | error e => rfl
      | ok rr =>
        simp only [ok_bind, hashOf]
        cases ll.1.hashOf H <;> cases rr.1.hashOf H <;> rfl
  | _ => cases hinner

variable {key : Path}

theorem Accepts.hashedNode (h : Accepts H proof x n) (hfit : n.Fit H key) :
    ∃ y, hashedNode H n = .ok y ∧ y.hash (hasher H) = x := by
  rw [← map_eq_ok]
  obtain ⟨n', hn⟩ := h.2
  cases hcache : n.cache.1 with
  | some z =>
    obtain rfl : z = x := by simpa using congrArg Prod.fst (ok.inj ((hash_cached hcache).symm.trans hn))
    exact hfit.1 z hcache
  | none =>
    have hinner : n.isInner = true := by cases n <;> first | rfl | exact hfit.2.elim
    have heq := hash_uncached (H := H) hinner hcache
    rw [hn] at heq
    cases hy : Trie2.hashedNode H n with
    | error e => simp [hy, Except.map] at heq
    | ok y => simpa [hy, Except.map] using heq.symm

variable {expected : Felt}

/-- Following a child leads to its hash, and ends with it where the key does. -/
theorem Node.Followable.follow {c : Node} {cc : Node × Node} (hc : c.Followable key)
    (hcc : Trie2.hash H c = .ok cc) (hx : cc.1.hashOf H = .ok x)
    (next : Felt → Path → Except ProofError Felt) :
    Trie2.follow expected (c, key) next = if key = [] then .ok x else next x key := by
  have hcached : key ≠ [] ∧ c.cache.1.isSome = true → c.cache.1 = some x ∧ key ≠ [] := by
    rintro ⟨hkey, hsome⟩
    obtain ⟨z, hz⟩ := isSome_iff_exists.mp hsome
    obtain rfl := ok.inj ((hash_cached hz).symm.trans hcc)
    obtain rfl : z = x := by simpa [hashOf] using hx
    exact ⟨hz, hkey⟩
  cases c with
  | nil => cases hcc
  | hash h =>
    obtain rfl : h = x := by simpa [Trie2.hash, ← ok.inj hcc, hashOf] using hx
    simp [Trie2.follow]
  | value v =>
    obtain rfl : v = x := by simpa [Trie2.hash, ← ok.inj hcc, hashOf] using hx
    exact (if_pos hc).symm
  | edge | binary =>
    obtain ⟨hx, hkey⟩ := hcached hc
    simp [Trie2.follow, hx, hkey]

variable {k : Path}

theorem follow_binary {b : Bool} {y : Felt} (hn : hashedNode H n = .ok (.binary x y))
    (hfit : n.Fit H (b :: k)) (next : Felt → Path → Except ProofError Felt) :
    follow expected (getChild n (b :: k)) next = if k = [] then .ok (if b then y else x)
      else next (if b then y else x) k := by
  obtain ⟨-, hfit⟩ := hfit
  cases n with
  | binary l r flags =>
    obtain ⟨ll, hl, hn⟩ := bind_eq_ok.mp hn
    obtain ⟨rr, hr, hn⟩ := bind_eq_ok.mp hn
    obtain ⟨x', hx, hn⟩ := bind_eq_ok.mp hn
    obtain ⟨y', hy, hn⟩ := bind_eq_ok.mp hn
    obtain ⟨rfl, rfl⟩ : x' = x ∧ y' = y := by simpa using hn
    have hne : child b l r ≠ .nil := by
      intro hnil
      simp [bit, hnil, Followable, cache] at hfit
    cases b
    · rw [if_neg (show l ≠ .nil from hne)] at hl
      exact Followable.follow hfit hl hx next
    · rw [if_neg (show r ≠ .nil from hne)] at hr
      exact Followable.follow hfit hr hy next
  | edge p c flags =>
    obtain ⟨cc, -, hn⟩ := bind_eq_ok.mp hn
    obtain ⟨x', -, hn⟩ := bind_eq_ok.mp hn
    cases hn
  | _ => exact hfit.elim

/-- Following an edge that is fit, through it or off it. -/
theorem follow_edge {p : Path} (hn : hashedNode H n = .ok (.edge x p)) (hfit : n.Fit H key)
    (next : Felt → Path → Except ProofError Felt) : follow expected (getChild n key) next =
      if equalMSBs p key then if key.drop p.length = [] then .ok x else next x (key.drop p.length)
        else .ok 0 := by
  obtain ⟨-, hfit⟩ := hfit
  cases n with
  | edge p' c flags =>
    obtain ⟨cc, hc, hn⟩ := bind_eq_ok.mp hn
    obtain ⟨x', hx, hn⟩ := bind_eq_ok.mp hn
    obtain ⟨rfl, rfl⟩ : x' = x ∧ p' = p := by simpa using hn
    simp only [getChild]
    cases hmatch : equalMSBs p' key with
    | false => rfl
    | true => exact Followable.follow (hfit hmatch) hc hx next
  | binary l r flags =>
    obtain ⟨ll, -, hn⟩ := bind_eq_ok.mp hn
    obtain ⟨rr, -, hn⟩ := bind_eq_ok.mp hn
    obtain ⟨x', -, hn⟩ := bind_eq_ok.mp hn
    obtain ⟨y', -, hn⟩ := bind_eq_ok.mp hn
    cases hn
  | _ => exact hfit.elim

/-- A turn of the loop: an accepted node is the tree's own. -/
theorem verifyFrom_succ {v : Felt} {node : HashedNode Felt}
    (honly : ∀ y ∈ proof.nodes H, y.hash (hasher H) = x → y = node)
    (hfit : ∀ n, Accepts H proof x n → n.Fit H key)
    (h : ∀ n, Accepts H proof x n → hashedNode H n = .ok node →
      Proves verifyErrors (follow x (getChild n key) (verifyFrom H proof fuel)) v) :
    Proves verifyErrors (verifyFrom H proof (fuel + 1) x key) v := by
  rw [verifyFrom]
  cases hnode : proof x with
  | none => exact .inr ⟨_, by decide, rfl⟩
  | some n =>
    simp only
    split
    next y n' hy =>
      split
      next => exact .inr ⟨_, by decide, rfl⟩
      next hyx =>
        rw [ne_eq, not_not] at hyx
        have haccepts : Accepts H proof x n := ⟨hnode, n', hyx ▸ hy⟩
        obtain ⟨z, hz, hzx⟩ := haccepts.hashedNode (hfit n haccepts)
        obtain rfl := honly z ⟨x, n, hnode, hz⟩ hzx
        exact h n haccepts hz
    next => exact .inr ⟨_, by decide, rfl⟩

variable {t : BitTree Felt}

/-- What comes after the `switch`, from what the rest of the walk does. -/
theorem next_proves (next : Felt → Path → Except ProofError Felt) (ht : Canonical t k.length)
    (hrest : k ≠ [] → Proves verifyErrors (next (Patricia.hash (hasher H) t) k) (Patricia.get t k)) :
    Proves verifyErrors
      (if k = [] then .ok (Patricia.hash (hasher H) t) else next (Patricia.hash (hasher H) t) k)
      (Patricia.get t k) := by
  split
  next hk =>
    subst hk
    obtain ⟨v, -, rfl⟩ := ht.eq_leaf
    exact .inl rfl
  next hk => exact hrest hk

/-- The walk from a node of the tree on, with the key `k` left. -/
theorem verifyFrom_proves (ht : Along t k) : ∀ {fuel : ℕ}, k ≠ [] →
    CollisionFree (hasher H) (proof.nodes H) t → Usable H proof t k → k.length ≤ fuel →
      Proves verifyErrors (verifyFrom H proof fuel (Patricia.hash (hasher H) t) k) (Patricia.get t k) := by
  induction ht with
  | leaf hv => exact fun hk => absurd rfl hk
  | @binary l r b k h hside ih =>
    intro fuel _ hfree husable hfuel
    obtain ⟨fuel, rfl⟩ := Nat.exists_eq_add_of_le' (Nat.one_le_of_lt hfuel)
    refine verifyFrom_succ hfree.1 (fun n hn => (husable n hn).1) fun n hn hnode => ?_
    obtain ⟨hfit, hrest⟩ := husable n hn
    rw [follow_binary hnode hfit, get_binary_cons]
    have hnext := next_proves (H := H) (verifyFrom H proof fuel) (h.side b) fun hk =>
      ih hk (by cases b <;> simp [hfree.2]) (by cases b <;> simpa [bit] using hrest) (by simpa using hfuel)
    cases b <;> exact hnext
  | @through p k c hp hc hm h ih =>
    intro fuel _ hfree husable hfuel
    have hp' := length_pos_iff.mpr hp
    rw [length_append] at hfuel
    obtain ⟨fuel, rfl⟩ := Nat.exists_eq_add_of_le' (show 1 ≤ fuel by omega)
    refine verifyFrom_succ hfree.1 (fun n hn => (husable n hn).1) fun n hn hnode => ?_
    obtain ⟨hfit, hrest⟩ := husable n hn
    rw [follow_edge hnode hfit, if_pos (equalMSBs_append p k), get_edge_append, drop_left]
    refine next_proves _ hm fun hk => ih hk hfree.2 ?_ (by omega)
    simpa using hrest (prefix_append p k)
  | @leaves q p k b c h =>
    intro fuel _ hfree husable hfuel
    obtain ⟨fuel, rfl⟩ := Nat.exists_eq_add_of_le' (show 1 ≤ fuel by simp at hfuel; omega)
    refine verifyFrom_succ hfree.1 (fun n hn => (husable n hn).1) fun n hn hnode => ?_
    rw [follow_edge hnode (husable n hn).1, equalMSBs_split, get_edge_off c (by simp)]
    exact .inl rfl

/-- **`VerifyProof` ends and returns no other value than that of the map**, `0` for a key that is not in it,
if the nodes that it accepts on the way of the key are fit and no node of the proof collides with a node of
the map's tree. -/
theorem verifyProof_of_usable {m : Felt → Felt} {t : BitTree Felt} (ht : canon 251 (onPaths m) = some t)
    {key : Felt} (hkey : key.val < 2 ^ 251) (hfree : CollisionFree (hasher H) (proof.nodes H) t)
    (husable : Usable H proof t (feltToPath 251 key)) (hfuel : 251 ≤ fuel) :
    Proves verifyErrors (verifyProof H (mapRoot H 251 m) key proof fuel) (m key) := by
  obtain ⟨hway, hget⟩ := canon_eq_some le_rfl ht hkey
  have hlen := length_feltToPath 251 key
  rw [mapRoot, commitment, ht, ← hget, verifyProof]
  generalize feltToPath 251 key = k at hlen hway husable
  refine verifyFrom_proves hway ?_ hfree husable (by rwa [hlen])
  rintro rfl
  cases hlen

/-- The nodes of the tree of two keys, each under its hash. -/
def twoKeysProof : ProofNodeSet := fun h =>
  if h = 501 then some (.edge [false] (.hash 500) newNodeFlag)
  else if h = 500 then some (.binary (.hash 250) (.hash 250) newNodeFlag)
  else if h = 250 then some (.edge (replicate 249 false) (.value 1) newNodeFlag)
  else none

theorem twoKeysProof_nodes : ∀ n ∈ twoKeysProof.nodes (· + ·),
    n = .edge 500 [false] ∨ n = .binary 250 250 ∨ n = .edge 1 (replicate 249 false) := by
  rintro n ⟨h, n', hn, hn'⟩
  rw [twoKeysProof] at hn
  split_ifs at hn <;> obtain rfl := some.inj hn
  · exact .inl (ok.inj hn').symm
  · exact .inr (.inl (ok.inj hn').symm)
  · exact .inr (.inr (ok.inj hn').symm)

theorem twoKeysProof_usable : Usable (· + ·) twoKeysProof twoKeysTree (feltToPath 251 (2 ^ 249)) := by
  have honly : ∀ {x : Felt} {n : Node} (n' : Node), twoKeysProof x = some n' →
      Accepts (· + ·) twoKeysProof x n → n = n' :=
    fun _ hn' hn => some.inj (hn.1.symm.trans hn')
  have hend : (((feltToPath 251 (2 ^ 249)).drop 1).drop 1).drop (replicate 249 false).length = [] := by
    decide +kernel
  intro n hn
  obtain rfl := honly (.edge [false] (.hash 500) newNodeFlag) (by decide +kernel) hn
  refine ⟨⟨nofun, fun _ => trivial⟩, fun _ n hn => ?_⟩
  obtain rfl := honly (.binary (.hash 250) (.hash 250) newNodeFlag) (by decide +kernel) hn
  refine ⟨⟨nofun, ?_⟩, ?_⟩
  · cases bit ((feltToPath 251 (2 ^ 249)).drop 1) 0 <;> trivial
  · rw [ite_self]
    intro n hn
    obtain rfl := honly (.edge (replicate 249 false) (.value 1) newNodeFlag) (by decide +kernel) hn
    exact ⟨⟨nofun, fun _ => hend⟩, fun _ => trivial⟩

/-- A map of two keys, and the proof of one of them. -/
theorem verifyProof_of_usable_twoKeys :
    verifyProof (· + ·) (mapRoot (· + ·) 251 twoKeys) (2 ^ 249) twoKeysProof 251 = .ok 1 ∧
      Proves verifyErrors (verifyProof (· + ·) (mapRoot (· + ·) 251 twoKeys) (2 ^ 249) twoKeysProof 251)
        (twoKeys (2 ^ 249)) := by
  refine ⟨?_,
    verifyProof_of_usable canon_twoKeys (by decide +kernel) (collisionFree_twoKeys twoKeysProof_nodes)
    twoKeysProof_usable le_rfl⟩
  rw [mapRoot, commitment, canon_twoKeys]
  decide +kernel

/-! ### A node of the trie itself -/

/-- The root node of a trie of the map, as it is before it is hashed. -/
def twoKeysRoot : Node :=
  let below : Node := .edge (replicate 249 false) (.value 1) newNodeFlag
  .edge [false] (.binary below below newNodeFlag) newNodeFlag

/-- **The root node alone is accepted as a proof that a key is absent**, though the map has it: the edge leads
to a child without a hash, so the edge is taken again, and the rest of the key is not on it. -/
theorem verifyProof_embedded :
    canon 251 (onPaths twoKeys) = some twoKeysTree ∧
      CollisionFree (hasher (· + ·))
        (ProofNodeSet.nodes (· + ·) fun h => if h = 501 then some twoKeysRoot else none) twoKeysTree ∧
      verifyProof (· + ·) (mapRoot (· + ·) 251 twoKeys) (2 ^ 249)
        (fun h => if h = 501 then some twoKeysRoot else none) 251 =
        .ok 0 ∧ twoKeys (2 ^ 249) = 1 := by
  have hnodes : ∀ n ∈ ProofNodeSet.nodes (· + ·) (fun h => if h = 501 then some twoKeysRoot else none),
      n = .edge 500 [false] := by
    rintro n ⟨h, n', hn, hn'⟩
    simp only [ite_none_right_eq_some, some.injEq] at hn
    obtain ⟨-, rfl⟩ := hn
    have hroot : hashedNode (· + ·) twoKeysRoot = .ok (.edge 500 [false]) := by decide +kernel
    exact ok.inj (hn'.symm.trans hroot)
  refine ⟨canon_twoKeys, collisionFree_twoKeys fun n hn => .inl (hnodes n hn), ?_, by decide +kernel⟩
  rw [mapRoot, commitment, canon_twoKeys]
  decide +kernel

end Juno.Trie2
