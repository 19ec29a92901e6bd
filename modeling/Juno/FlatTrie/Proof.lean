import Juno.FlatTrie.Rep

/-!
# Verifying a proof of the flat trie

`VerifyProof` of `core/trie/proof.go` walks from a root hash down the nodes of a proof,
which may come from anyone: it finds each node under the hash it expects, checks the
hash, and goes on with the child towards the key. The position in the key is a `uint8`
that an edge advances by its own length.

`verifyProof_sound`: **whatever the proof, the value returned is that of the map**, and
the walk ends. A node that passes the check is the node of the tree, as long as no
node of the proof collides with one; so an edge never goes past the end of the key, and
the position does not wrap around.
-/

namespace Juno.FlatTrie

open Lib Lib.Patricia

/-- `ProofNode`: a `Binary` or an `Edge`. -/
abbrev ProofNode := HashedNode Felt

/-- `ProofNodeSet`: the nodes of a proof, each under a hash that need not be its own. -/
abbrev ProofNodeSet := Felt → Option ProofNode

def ProofNodeSet.nodes (proof : ProofNodeSet) : Set ProofNode := {n | ∃ h, proof h = some n}

abbrev verifyErrors : List ProofError := [.nodeNotFound, .hashMismatch, .keyTooShort]

def verifyEdgePath (key edgePath : Path) (curPos : ℕ) : Bool := equalMSBs (key.drop curPos) edgePath

/-- The `switch` of `VerifyProof`, and what comes after it with the child and the new position. -/
def follow (key : Path) (node : ProofNode) (curPos : ℕ) (next : Felt → ℕ → Except ProofError Felt) :
    Except ProofError Felt :=
  match node with
  | .binary left right =>
    if key.length ≤ curPos then .error .keyTooShort
    else next (if bit key curPos then right else left) ((curPos + 1) % 2 ^ 8)
  | .edge child path =>
    if !verifyEdgePath key path curPos then .ok 0 else next child ((curPos + path.length) % 2 ^ 8)

def verifyFrom (H : HashFn) (proof : ProofNodeSet) (key : Path) : ℕ → Felt → ℕ → Except ProofError Felt
  | 0, _, _ => .error .diverge
  | fuel + 1, expectedHash, curPos =>
    match proof expectedHash with
    | none => .error .nodeNotFound
    | some node =>
      if node.hash (hasher H) ≠ expectedHash then .error .hashMismatch
      else
        follow key node curPos fun child pos =>
          if pos ≥ key.length then .ok child else verifyFrom H proof key fuel child pos

/-- `VerifyProof`, for as many nodes as the fuel says. -/
def verifyProof (H : HashFn) (root key : Felt) (proof : ProofNodeSet) (fuel : ℕ) : Except ProofError Felt :=
  verifyFrom H proof (feltToPath 251 key) fuel root 0

variable {H : HashFn} {proof : ProofNodeSet} {key : Path} {fuel pos : ℕ}

/-- A turn of the loop: the proof has no other node to follow than `node`. -/
theorem verifyFrom_succ {x v : Felt} {node : ProofNode}
    (honly : ∀ n ∈ proof.nodes, n.hash (hasher H) = x → n = node)
    (h : Proves verifyErrors
      (follow key node pos fun child pos => if pos ≥ key.length then .ok child else verifyFrom H proof key
      fuel child pos) v) :
    Proves verifyErrors (verifyFrom H proof key (fuel + 1) x pos) v := by
  rw [verifyFrom]
  cases hnode : proof x with
  | none => exact .inr ⟨_, by decide, rfl⟩
  | some n =>
    simp only
    split
    next => exact .inr ⟨_, by decide, rfl⟩
    next hhash =>
      obtain rfl := honly n ⟨x, hnode⟩ (not_not.mp hhash)
      exact h

variable {t : BitTree Felt} {k : Path}

variable (proof) in
/-- What comes after the `switch`, from what the rest of the walk does. -/
theorem next_proves (pre : Path) (ht : Canonical t k.length) (hlen : (pre ++ k).length = 251)
    (hrest : k ≠ [] →
      Proves verifyErrors (verifyFrom H proof (pre ++ k) fuel (Patricia.hash (hasher H) t) pre.length)
        (get t k)) :
    Proves verifyErrors (if pre.length % 2 ^ 8 ≥ (pre ++ k).length then .ok (Patricia.hash (hasher H) t)
      else verifyFrom H proof (pre ++ k) fuel (Patricia.hash (hasher H) t) (pre.length % 2 ^ 8))
        (get t k) := by
  rw [List.length_append] at hlen
  rw [Nat.mod_eq_of_lt (by omega), List.length_append]
  cases k with
  | nil =>
    obtain ⟨v, -, rfl⟩ := ht.eq_leaf
    rw [if_pos (by simp)]
    exact .inl rfl
  | cons b k =>
    rw [if_neg (by simp)]
    exact hrest (by simp)

/-- The walk from a node of the tree on, with the key `k` left. -/
theorem verifyFrom_proves (ht : Along t k) : ∀ (pre : Path) {fuel : ℕ}, k ≠ [] →
    (pre ++ k).length = 251 → CollisionFree (hasher H) proof.nodes t → k.length ≤ fuel →
      Proves verifyErrors (verifyFrom H proof (pre ++ k) fuel (Patricia.hash (hasher H) t) pre.length)
        (get t k) := by
  induction ht with
  | leaf hv => exact fun _ _ hk => absurd rfl hk
  | @binary l r b k h hside ih =>
    intro pre fuel _ hlen hfree hfuel
    obtain ⟨fuel, rfl⟩ := Nat.exists_eq_add_of_le' (Nat.one_le_of_lt hfuel)
    refine verifyFrom_succ hfree.1 ?_
    have hnext := next_proves proof (pre ++ [b]) (h.side b) (by simpa using hlen) fun hk =>
      ih _ hk (by simpa using hlen) (by cases b <;> simp [hfree.2]) (by simpa using hfuel)
    have hpos : ¬ pre.length + (k.length + 1) ≤ pre.length := by omega
    cases b <;> simpa [follow, bit, hpos] using hnext
  | @through p k c hp hc hm h ih =>
    intro pre fuel _ hlen hfree hfuel
    have hp' := List.length_pos_iff.mpr hp
    rw [List.length_append] at hfuel
    obtain ⟨fuel, rfl⟩ := Nat.exists_eq_add_of_le' (show 1 ≤ fuel by omega)
    refine verifyFrom_succ hfree.1 ?_
    have hnext := next_proves proof (pre ++ p) hm (by simpa using hlen) fun hk =>
      ih _ hk (by simpa using hlen) hfree.2 (show k.length ≤ fuel by omega)
    simpa [follow, verifyEdgePath, equalMSBs_pre] using hnext
  | @leaves q p k b c h =>
    intro pre fuel _ hlen hfree hfuel
    obtain ⟨fuel, rfl⟩ := Nat.exists_eq_add_of_le' (show 1 ≤ fuel by simp at hfuel; omega)
    refine verifyFrom_succ hfree.1 ?_
    have hoff := equalMSBs_split q k p (!b)
    rw [Bool.not_not] at hoff
    rw [get_edge_off c (by simp)]
    exact .inl (by simp [follow, verifyEdgePath, hoff])

/-- **Whatever the proof, `VerifyProof` ends, without a panic, and returns no other value than that of the
map**, `0` for a key that is not in it, if no node of the proof collides with a node of the map's tree. -/
theorem verifyProof_sound {m : Felt → Felt} {t : BitTree Felt} (ht : canon 251 (onPaths m) = some t)
    {key : Felt} (hkey : key.val < 2 ^ 251) (hfree : CollisionFree (hasher H) proof.nodes t)
    (hfuel : 251 ≤ fuel) : Proves verifyErrors (verifyProof H (mapRoot H 251 m) key proof fuel) (m key) := by
  obtain ⟨hway, hget⟩ := canon_eq_some le_rfl ht hkey
  have hlen := length_feltToPath 251 key
  rw [mapRoot, commitment, ht, ← hget, verifyProof]
  generalize feltToPath 251 key = k at hlen hway
  refine verifyFrom_proves hway [] ?_ hlen hfree (by rwa [hlen])
  rintro rfl
  cases hlen

/-- The nodes of the tree of two keys, each under its hash. -/
def twoKeysProof : ProofNodeSet := fun h =>
  if h = 501 then some (.edge 500 [false])
  else if h = 500 then some (.binary 250 250)
  else if h = 250 then some (.edge 1 (List.replicate 249 false))
  else none

theorem twoKeysProof_nodes : ∀ n ∈ twoKeysProof.nodes,
    n = .edge 500 [false] ∨ n = .binary 250 250 ∨ n = .edge 1 (List.replicate 249 false) := by
  rintro n ⟨h, hn⟩
  rw [twoKeysProof] at hn
  split_ifs at hn <;> obtain rfl := Option.some.inj hn
  · exact .inl rfl
  · exact .inr (.inl rfl)
  · exact .inr (.inr rfl)

/-- A map of two keys, and the proof of one of them. -/
theorem verifyProof_sound_twoKeys :
    verifyProof (· + ·) (mapRoot (· + ·) 251 twoKeys) (2 ^ 249) twoKeysProof 251 = .ok 1 ∧
      Proves verifyErrors (verifyProof (· + ·) (mapRoot (· + ·) 251 twoKeys) (2 ^ 249) twoKeysProof 251)
        (twoKeys (2 ^ 249)) := by
  refine ⟨?_,
    verifyProof_sound canon_twoKeys (by decide +kernel) (collisionFree_twoKeys twoKeysProof_nodes) le_rfl⟩
  rw [mapRoot, commitment, canon_twoKeys]
  decide +kernel

end Juno.FlatTrie
