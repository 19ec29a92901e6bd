import Juno.Propeller.RoundTrip

/-!
# What a Merkle proof proves

A member checks the proof of a shard against a root it did not compute, with siblings and an index that
come from a peer.

## The model

`merkleNew` and `verifyProof` are those of the units. `newInputs` and `verifyInputs` are the strings that the
two hash; the theorems assume that the hash does not collide on these, which for leaves and nodes means that
both are injective there with disjoint images, as the tags keep their strings apart.

The main result is `inclusion_iff`.
-/

namespace Juno.Propeller

open Juno.Lib Merkle List

/-! ### The strings that are hashed -/

/-- The string that `merkleLeafHash` hashes. -/
def leafInput (data : Bytes) : Bytes := tag "<leaf>" ++ data ++ tag "</leaf>"

/-- The string that `merkleNodeHash` hashes. -/
def nodeInput (left right : Bytes32) : Bytes :=
  tag "<node><left>" ++ left.toList ++ tag "</left><right>" ++ right.toList ++ tag "</right></node>"

/-- The leaves, filled up with empty ones. -/
def paddedLeaves (leaves : List Bytes) : List Bytes :=
  leaves ++ List.replicate (nextPowerOfTwo leaves.length - leaves.length) []

theorem leafInput_injective {data data' : Bytes} (h : leafInput data = leafInput data') : data = data' :=
  append_cancel_left (append_cancel_right h)

theorem nodeInput_injective {l r l' r' : Bytes32} (h : nodeInput l r = nodeInput l' r') :
    (l, r) = (l', r') := by
  have hlen : ∀ b b' : Bytes32, b.toList.length = b'.toList.length := fun b b' => by
    rw [Vector.length_toList, Vector.length_toList]
  rw [nodeInput, nodeInput] at h
  obtain ⟨h, hright⟩ := append_inj' (append_cancel_right h) (hlen r r')
  have hleft := append_cancel_left (append_cancel_right h)
  rw [Vector.toList_inj.mp hleft, Vector.toList_inj.mp hright]

/-- The second byte of the tags tells leaves from nodes. -/
theorem leafInput_ne_nodeInput (data : Bytes) (l r : Bytes32) : leafInput data ≠ nodeInput l r := by
  intro h
  have hleaf : (leafInput data)[1]? = some 108 := by
    have htag : tag "<leaf>" = [60, 108, 101, 97, 102, 62] := by decide +kernel
    rw [leafInput, htag]
    rfl
  have hnode : (nodeInput l r)[1]? = some 110 := by
    have htag : tag "<node><left>" = [60, 110, 111, 100, 101, 62, 60, 108, 101, 102, 116, 62] := by
      decide +kernel
    rw [nodeInput, htag]
    rfl
  rw [h, hnode] at hleaf
  exact absurd hleaf (by decide)

section

variable (sum256 : Bytes → Bytes32)

def newInputs (leaves : List Bytes) : List Bytes :=
  (paddedLeaves leaves).map leafInput ++
    (treePairs (merkleNodeHash sum256) (bottomLayer sum256 leaves).length (bottomLayer sum256 leaves)).map
      fun p => nodeInput p.1 p.2

def verifyInputs (siblings : List Bytes32) (leaf : Bytes) (index : ℕ) : List Bytes :=
  leafInput leaf :: (climbPairs (merkleNodeHash sum256) (merkleLeafHash sum256 leaf) siblings index).map
    fun p => nodeInput p.1 p.2

/-- The siblings of a position of the padded tree, from the leaf to the root. -/
def proofAt (leaves : List Bytes) (position : ℕ) : List Bytes32 :=
  siblings (merkleNodeHash sum256) zeroHash (Nat.log 2 (nextPowerOfTwo leaves.length))
    (bottomLayer sum256 leaves) position

end

/-! ### Acceptance -/

variable {sum256 : Bytes → Bytes32} {leaves : List Bytes} {leaf : Bytes} {index : ℕ}
  {proof : List Bytes32} {k : ℕ}

theorem bottomLayer_eq (leaves : List Bytes) :
    bottomLayer sum256 leaves = (paddedLeaves leaves).map (merkleLeafHash sum256) := by
  rw [bottomLayer, paddedLeaves, map_append, map_replicate]

theorem leafInput_mem (h : leaf ∈ paddedLeaves leaves) : leafInput leaf ∈ newInputs sum256 leaves :=
  mem_append_left _ (mem_map_of_mem h)

theorem root_eq (sum256 : Bytes → Bytes32) (hk : nextPowerOfTwo leaves.length = 2 ^ k) (hne : leaves ≠ []) :
    root (merkleNodeHash sum256) k (bottomLayer sum256 leaves) = some (merkleNew sum256 leaves).1 := by
  obtain ⟨k', hk', hle⟩ := nextPowerOfTwo_eq leaves.length
  obtain rfl : k' = k := Nat.pow_right_injective le_rfl (hk'.symm.trans hk)
  have hlen := length_bottomLayer sum256 hk hle
  have hpos : 0 < (bottomLayer sum256 leaves).length := by
    rw [hlen]
    exact Nat.two_pow_pos k'
  have hset :=
    @climb_siblings _ (merkleNodeHash sum256) zeroHash k' _ hlen 0 hpos (bottomLayer sum256 leaves)[0]
  rw [set_getElem_self] at hset
  rw [merkleNew_eq sum256 hk hle (fun h => hne (length_eq_zero_iff.mp h)), hset]
  rfl

/-- **The proofs of a tree are accepted**, for any hash. -/
theorem verifyProof_new (sum256 : Bytes → Bytes32) {i : ℕ} (hi : i < leaves.length) :
    verifyProof sum256 ((merkleNew sum256 leaves).2.getD i []) (merkleNew sum256 leaves).1 leaves[i] i =
      true := by
  rw [verifyProof_iff sum256 hi, set_getElem_self]

/-- **What is accepted**: the leaf and the proof of the position that the low bits of the index give. -/
theorem verifyProof_eq_true_iff (hne : leaves ≠ [])
    (hinj : Set.InjOn sum256 {s | s ∈ newInputs sum256 leaves ∨ s ∈ verifyInputs sum256 proof leaf index}) :
    verifyProof sum256 proof (merkleNew sum256 leaves).1 leaf index = true ↔
      (paddedLeaves leaves)[index % nextPowerOfTwo leaves.length]? = some leaf ∧
        proof = proofAt sum256 leaves (index % nextPowerOfTwo leaves.length) := by
  obtain ⟨k, hk, hle⟩ := nextPowerOfTwo_eq leaves.length
  have hlen := length_bottomLayer sum256 hk hle
  have hroot := root_eq sum256 hk hne
  have hpos : index % 2 ^ k < 2 ^ k := Nat.mod_lt _ (Nat.two_pow_pos k)
  rw [proofAt, hk, Nat.log_pow Nat.one_lt_two, verifyProof, beq_iff_eq]
  constructor
  · intro h
    rw [← h] at hroot
    -- the strings of pairs and of leaves, on both sides
    have hpair : ∀ p ∈ treePairs (merkleNodeHash sum256) k (bottomLayer sum256 leaves),
        nodeInput p.1 p.2 ∈ newInputs sum256 leaves := fun p hp =>
      mem_append_right _ (mem_map_of_mem (treePairs_mono (by rw [hlen]; exact Nat.lt_two_pow_self.le) hp))
    have hclimb : ∀ q ∈ climbPairs (merkleNodeHash sum256) (merkleLeafHash sum256 leaf) proof index,
        nodeInput q.1 q.2 ∈ verifyInputs sum256 proof leaf index := fun q hq =>
      mem_cons_of_mem _ (mem_map_of_mem hq)
    have hnode : ∀ p ∈ treePairs (merkleNodeHash sum256) k (bottomLayer sum256 leaves),
        ∀ q ∈ climbPairs (merkleNodeHash sum256) (merkleLeafHash sum256 leaf) proof index,
        merkleNodeHash sum256 p.1 p.2 = merkleNodeHash sum256 q.1 q.2 → p = q := fun p hp q hq heq =>
      nodeInput_injective (hinj (.inl (hpair p hp)) (.inr (hclimb q hq)) heq)
    have hfull : proof.length = k := by
      refine length_of_climb_eq_root hlen hnode (fun p hp heq => ?_) (fun y hy q hq heq => ?_) hroot
      · exact leafInput_ne_nodeInput _ _ _ (hinj (.inl (hpair p hp)) (.inr mem_cons_self) heq).symm
      · rw [bottomLayer_eq, mem_map] at hy
        obtain ⟨d, hd, rfl⟩ := hy
        exact leafInput_ne_nodeInput _ _ _
          (hinj (.inr (hclimb q hq)) (.inl (leafInput_mem hd)) heq).symm
    obtain ⟨hget, hproof⟩ := climb_eq_root zeroHash hlen hfull hnode hroot
    refine ⟨?_, hproof⟩
    rw [bottomLayer_eq, getElem?_map, Option.map_eq_some_iff] at hget
    obtain ⟨d, hd, heq⟩ := hget
    have hmem : leafInput d ∈ newInputs sum256 leaves := leafInput_mem (mem_of_getElem? hd)
    rw [hd, leafInput_injective (hinj (.inl hmem) (.inr mem_cons_self) heq)]
  · rintro ⟨hget, rfl⟩
    have hset := @climb_siblings _ (merkleNodeHash sum256) zeroHash k _ hlen (index % 2 ^ k) (by omega)
      (merkleLeafHash sum256 leaf)
    have hsame : (bottomLayer sum256 leaves).set (index % 2 ^ k) (merkleLeafHash sum256 leaf) =
        bottomLayer sum256 leaves := by
      have hbottom : (bottomLayer sum256 leaves)[index % 2 ^ k]? = some (merkleLeafHash sum256 leaf) := by
        rw [bottomLayer_eq, getElem?_map, hget]
        rfl
      obtain ⟨hlt, heq⟩ := List.getElem?_eq_some_iff.mp hbottom
      rw [← heq, set_getElem_self]
    rw [hsame, hroot, Option.some.injEq] at hset
    rw [hset, ← climb_mod, length_siblings]

/-- **When the index is the position of the leaf.** The proofs of a tree are accepted; and what is accepted is
a leaf at its index, if the index is below the padded size, or if leaf and siblings are not those of the index
without its high bits. -/
theorem inclusion_iff (sum256 : Bytes → Bytes32) (leaves : List Bytes) (hne : leaves ≠ []) :
    (∀ (index : UInt32) (hi : index.toNat < leaves.length),
      verifyProof sum256 ((merkleNew sum256 leaves).2.getD index.toNat []) (merkleNew sum256 leaves).1
        leaves[index.toNat] index.toNat = true) ∧
    ∀ (leaf : Bytes) (index : UInt32) (proof : List Bytes32),
      Set.InjOn sum256 {s | s ∈ newInputs sum256 leaves ∨ s ∈ verifyInputs sum256 proof leaf index.toNat} →
      ((verifyProof sum256 proof (merkleNew sum256 leaves).1 leaf index.toNat = true →
          index.toNat < nextPowerOfTwo leaves.length ∧ (paddedLeaves leaves)[index.toNat]? = some leaf) ↔
        (index.toNat < nextPowerOfTwo leaves.length ∨
          ¬((paddedLeaves leaves)[index.toNat % nextPowerOfTwo leaves.length]? = some leaf ∧
            proof = proofAt sum256 leaves (index.toNat % nextPowerOfTwo leaves.length)))) := by
  refine ⟨fun index hi => verifyProof_new sum256 hi, fun leaf index proof hinj => ?_⟩
  rw [verifyProof_eq_true_iff hne hinj]
  constructor
  · intro h
    by_cases hacc : (paddedLeaves leaves)[index.toNat % nextPowerOfTwo leaves.length]? = some leaf ∧
        proof = proofAt sum256 leaves (index.toNat % nextPowerOfTwo leaves.length)
    · exact .inl (h hacc).1
    · exact .inr hacc
  · rintro (hlt | hrej) hacc
    · rw [Nat.mod_eq_of_lt hlt] at hacc
      exact ⟨hlt, hacc.1⟩
    · exact absurd hacc hrej

def two : List Bytes := [[1], [2]]

/-- The first of two leaves, with a hash that tells their strings apart. -/
theorem inclusion_iff_two :
    verifyProof checksum ((merkleNew checksum two).2.getD 0 []) (merkleNew checksum two).1 [1]
      (0 : UInt32).toNat = true ∧
      (0 : UInt32).toNat < nextPowerOfTwo two.length ∧
        (paddedLeaves two)[(0 : UInt32).toNat]? = some [1] := by
  have hall :
    ∀ s ∈ newInputs checksum two ++ verifyInputs checksum ((merkleNew checksum two).2.getD 0 []) [1] 0,
      ∀ t ∈ newInputs checksum two ++ verifyInputs checksum ((merkleNew checksum two).2.getD 0 []) [1] 0,
      checksum s = checksum t → s = t := by decide +kernel
  obtain ⟨hproofs, hsound⟩ := inclusion_iff checksum two (by decide)
  have haccepted := hproofs 0 (by decide)
  refine ⟨haccepted, (hsound [1] 0 _ fun s hs t ht => ?_).mpr (.inl (by decide)) haccepted⟩
  exact hall s (mem_append.mpr hs) t (mem_append.mpr ht)

/-- **An index beyond the tree is accepted**: the proof of the first of two leaves at the index 2. -/
theorem high_index_accepted :
    verifyProof checksum ((merkleNew checksum two).2.getD 0 []) (merkleNew checksum two).1 [1]
      (2 : UInt32).toNat = true ∧
      ¬(2 : UInt32).toNat < nextPowerOfTwo two.length := by
  refine ⟨?_, by decide⟩
  rw [verifyProof, beq_iff_eq]
  rfl

end Juno.Propeller
