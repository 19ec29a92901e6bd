import Mathlib

/-!
# Binary Merkle trees over a power of two of leaves

A tree is given by its bottom layer, a list of `2 ^ k` hashes; the layer above has the hashes of
the pairs. The proof of a leaf is the list of its siblings from the bottom to the root.

* `root`, `siblings`, `climb` — the root of a layer, the proof of a position, and the root that
  a proof leads to.
* `climb_siblings` — **a proof leads to the root of the layer with the leaf in its place**.
* `treePairs`, `climbPairs` — the pairs that are hashed above a layer, and on the way up of a proof.
* `climb_eq_root` — a proof of full length that leads to the root is the one of its position, if no pair
  collides.
* `length_of_climb_eq_root` — it has full length, if leaves are not hashes of pairs.
-/

namespace Juno.Lib.Merkle

open List

variable {α : Type} (node : α → α → α)

def pairs : List α → List α
  | a :: b :: l => node a b :: pairs l
  | _ => []

/-- The root above a layer of `2 ^ k` hashes. -/
def root : ℕ → List α → Option α
  | 0, l => l.head?
  | k + 1, l => root k (pairs node l)

/-- The position next to a position. -/
def sibling (i : ℕ) : ℕ := if i % 2 = 0 then i + 1 else i - 1

/-- The siblings on the way up from a position; `zero` stands for those a layer does not have. -/
def siblings (zero : α) : ℕ → List α → ℕ → List α
  | 0, _, _ => []
  | k + 1, l, i => l.getD (sibling i) zero :: siblings zero k (pairs node l) (i / 2)

/-- The hash that the siblings lead to. -/
def climb : α → List α → ℕ → α
  | x, [], _ => x
  | x, s :: ss, i => climb (if i % 2 = 0 then node x s else node s x) ss (i / 2)

def pairsOf : List α → List (α × α)
  | a :: b :: l => (a, b) :: pairsOf l
  | _ => []

/-- The pairs that are hashed above a layer; `fuel` bounds the number of layers. -/
def treePairs : ℕ → List α → List (α × α)
  | 0, _ => []
  | fuel + 1, l => pairsOf l ++ treePairs fuel (pairs node l)

/-- The pair that is hashed with a sibling. -/
def joined (x s : α) (i : ℕ) : α × α := if i % 2 = 0 then (x, s) else (s, x)

/-- The pairs that are hashed on the way up. -/
def climbPairs : α → List α → ℕ → List (α × α)
  | _, [], _ => []
  | x, s :: ss, i => joined x s i :: climbPairs (node (joined x s i).1 (joined x s i).2) ss (i / 2)

variable {node}

theorem length_pairs (l : List α) : (pairs node l).length = l.length / 2 := by
  induction l using pairs.induct with
  | case1 a b l ih =>
    rw [pairs, length_cons, ih, length_cons, length_cons]
    omega
  | case2 l h =>
    rw [pairs.eq_2 node l h, length_nil]
    rcases l with - | ⟨a, - | ⟨b, l⟩⟩
    · exact (Nat.zero_div 2).symm
    · exact (Nat.div_eq_of_lt Nat.one_lt_two).symm
    · exact absurd rfl (h a b l)

theorem length_pairs_pow {k : ℕ} {l : List α} (h : l.length = 2 ^ (k + 1)) :
    (pairs node l).length = 2 ^ k := by
  rw [length_pairs, h, pow_succ]
  exact Nat.mul_div_cancel _ Nat.two_pos

theorem pairs_set (zero x : α) (l : List α) (i : ℕ) (heven : l.length % 2 = 0) (hi : i < l.length) :
    pairs node (l.set i x) = (pairs node l).set (i / 2)
      (if i % 2 = 0 then node x (l.getD (sibling i) zero) else node (l.getD (sibling i) zero) x) := by
  induction l using pairs.induct generalizing i with
  | case1 a b l ih =>
    match i with
    | 0 => rfl
    | 1 => rfl
    | i + 2 =>
      have hdiv : (i + 2) / 2 = i / 2 + 1 := by omega
      have hmod : (i + 2) % 2 = i % 2 := by omega
      have hsib : sibling (i + 2) = sibling i + 2 := by
        rw [sibling, sibling, hmod]
        split_ifs <;> omega
      rw [length_cons, length_cons] at heven hi
      rw [set_cons_succ, set_cons_succ, pairs, pairs, hdiv, set_cons_succ, hmod, hsib,
        getD_cons_succ, getD_cons_succ, ih i (by omega) (by omega)]
  | case2 l h =>
    rcases l with - | ⟨a, - | ⟨b, l⟩⟩
    · exact absurd hi (Nat.not_lt_zero i)
    · exact absurd heven Nat.one_ne_zero
    · exact absurd rfl (h a b l)

/-- **Where a proof leads**: to the root of the layer with the hash in its place. -/
theorem climb_siblings (zero : α) (k : ℕ) (l : List α) (hl : l.length = 2 ^ k) (i : ℕ) (hi : i < l.length)
    (x : α) : root node k (l.set i x) = some (climb node x (siblings node zero k l i) i) := by
  induction k generalizing l i x with
  | zero =>
    have hone : l.length = 1 := hl
    obtain ⟨a, rfl⟩ := length_eq_one_iff.mp hone
    have hzero : i = 0 := by
      rw [length_singleton] at hi
      omega
    subst hzero
    rfl
  | succ k ih =>
    have hup : (pairs node l).length = 2 ^ k := length_pairs_pow hl
    have hi' : i / 2 < (pairs node l).length := by
      rw [length_pairs]
      rw [hl, pow_succ] at hi ⊢
      omega
    have heven : l.length % 2 = 0 := by
      rw [hl, pow_succ]
      exact Nat.mul_mod_left _ _
    rw [root, pairs_set zero x l i heven hi, ih _ hup _ hi', siblings, climb]

theorem length_siblings (zero : α) (k : ℕ) (l : List α) (i : ℕ) : (siblings node zero k l i).length = k := by
  induction k generalizing l i with
  | zero => rfl
  | succ k ih => rw [siblings, length_cons, ih]

/-! ### Soundness -/

theorem climb_cons (x s : α) (ss : List α) (i : ℕ) :
    climb node x (s :: ss) i = climb node (node (joined x s i).1 (joined x s i).2) ss (i / 2) := by
  rw [climb, joined]
  split_ifs <;> rfl

theorem climb_append (x : α) (ss ts : List α) (i : ℕ) :
    climb node x (ss ++ ts) i = climb node (climb node x ss i) ts (i / 2 ^ ss.length) := by
  induction ss generalizing x i with
  | nil => rw [nil_append, climb, length_nil, pow_zero, Nat.div_one]
  | cons s ss ih =>
    rw [cons_append, climb_cons, ih, climb_cons, length_cons, pow_succ', Nat.div_div_eq_div_mul]

theorem climbPairs_append (x : α) (ss ts : List α) (i : ℕ) :
    climbPairs node x (ss ++ ts) i =
      climbPairs node x ss i ++ climbPairs node (climb node x ss i) ts (i / 2 ^ ss.length) := by
  induction ss generalizing x i with
  | nil => rw [nil_append, climbPairs, climb, length_nil, pow_zero, Nat.div_one, nil_append]
  | cons s ss ih =>
    rw [cons_append, climbPairs, ih, climbPairs, climb_cons, length_cons, pow_succ', Nat.div_div_eq_div_mul,
      cons_append]

/-- Only the low bits of an index matter, one for each sibling. -/
theorem climb_mod (x : α) (ss : List α) (i : ℕ) :
    climb node x ss (i % 2 ^ ss.length) = climb node x ss i := by
  induction ss generalizing x i with
  | nil => rfl
  | cons s ss ih =>
    have hbit : i % 2 ^ (ss.length + 1) % 2 = i % 2 :=
      Nat.mod_mod_of_dvd i (dvd_pow_self 2 (Nat.succ_ne_zero _))
    have hhalf : i % 2 ^ (ss.length + 1) / 2 = i / 2 % 2 ^ ss.length := by
      rw [pow_succ', Nat.mod_mul_right_div_self]
    rw [length_cons, climb, climb, hbit, hhalf, ih]

/-- A way up that is not empty ends with the hash of a pair. -/
theorem climb_mem {x : α} {ss : List α} (hss : ss ≠ []) (i : ℕ) :
    ∃ q ∈ climbPairs node x ss i, node q.1 q.2 = climb node x ss i := by
  induction ss generalizing x i with
  | nil => exact absurd rfl hss
  | cons s ss ih =>
    rw [climb_cons, climbPairs]
    rcases eq_or_ne ss [] with rfl | hne
    · exact ⟨_, mem_cons_self, rfl⟩
    · obtain ⟨q, hq, heq⟩ := ih (x := node (joined x s i).1 (joined x s i).2) hne (i / 2)
      exact ⟨q, mem_cons_of_mem _ hq, heq⟩

theorem pairs_eq_map (l : List α) : pairs node l = (pairsOf l).map fun p => node p.1 p.2 := by
  induction l using pairs.induct with
  | case1 a b l ih => rw [pairs, pairsOf, map_cons, ih]
  | case2 l h => rw [pairs.eq_2 node l h, pairsOf.eq_2 l h, map_nil]

theorem getElem?_pairsOf {l : List α} {j : ℕ} {a b : α} (ha : l[2 * j]? = some a)
    (hb : l[2 * j + 1]? = some b) : (pairsOf l)[j]? = some (a, b) := by
  induction l using pairsOf.induct generalizing j with
  | case1 c d l ih =>
    cases j with
    | zero =>
      obtain rfl : c = a := Option.some.inj ha
      obtain rfl : d = b := Option.some.inj hb
      rfl
    | succ j => exact ih ha hb
  | case2 l h =>
    rcases l with - | ⟨c, - | ⟨d, l⟩⟩
    · exact absurd ha (by simp)
    · exact absurd hb (by simp)
    · exact absurd rfl (h c d l)

/-- **A proof of full length that leads to the root**: the hash is the one at its position, which the low bits
of the index give, and the siblings are those of the position. -/
theorem climb_eq_root (zero : α) {k : ℕ} {l : List α} (hl : l.length = 2 ^ k) {x : α} {ss : List α} {i : ℕ}
    (hss : ss.length = k)
    (hinj : ∀ p ∈ treePairs node k l, ∀ q ∈ climbPairs node x ss i, node p.1 p.2 = node q.1 q.2 → p = q)
    (h : root node k l = some (climb node x ss i)) :
    l[i % 2 ^ k]? = some x ∧ ss = siblings node zero k l (i % 2 ^ k) := by
  induction k generalizing l x ss i with
  | zero =>
    obtain rfl : ss = [] := length_eq_zero_iff.mp hss
    obtain ⟨a, rfl⟩ := length_eq_one_iff.mp hl
    rw [pow_zero, Nat.mod_one]
    exact ⟨h, rfl⟩
  | succ k ih =>
    obtain ⟨s, ss, rfl⟩ := exists_cons_of_length_eq_add_one hss
    rw [climb_cons, root] at h
    rw [treePairs, climbPairs] at hinj
    obtain ⟨hget, htail⟩ := ih (length_pairs_pow hl) (Nat.succ.inj hss)
      (fun p hp q hq => hinj p (mem_append_right _ hp) q (mem_cons_of_mem _ hq)) h
    -- the two hashes under the one that is found
    have hj : i / 2 % 2 ^ k < 2 ^ k := Nat.mod_lt _ (Nat.two_pow_pos k)
    have hindex : i % 2 ^ (k + 1) = 2 * (i / 2 % 2 ^ k) + i % 2 := by
      rw [pow_succ', Nat.mod_mul, Nat.add_comm]
    generalize i / 2 % 2 ^ k = j at hget htail hj hindex
    rw [pow_succ'] at hl
    obtain ⟨a, ha⟩ : ∃ a, l[2 * j]? = some a := ⟨_, getElem?_eq_getElem (by omega)⟩
    obtain ⟨b, hb⟩ : ∃ b, l[2 * j + 1]? = some b := ⟨_, getElem?_eq_getElem (by omega)⟩
    have hpair := getElem?_pairsOf ha hb
    have hnode : node a b = node (joined x s i).1 (joined x s i).2 := by
      rw [pairs_eq_map, getElem?_map, hpair] at hget
      exact Option.some.inj hget
    have heq : (a, b) = joined x s i :=
      hinj (a, b) (mem_append_left _ (mem_of_getElem? hpair)) _ mem_cons_self hnode
    rw [hindex, siblings]
    rcases Nat.mod_two_eq_zero_or_one i with heven | hodd
    · rw [joined, if_pos heven, Prod.mk.injEq] at heq
      obtain ⟨rfl, rfl⟩ := heq
      have hsib : sibling (2 * j) = 2 * j + 1 := by rw [sibling, if_pos (by omega)]
      have hhalf : 2 * j / 2 = j := by omega
      rw [heven, Nat.add_zero, hsib, getD_eq_getElem?_getD, hb, hhalf, ← htail]
      exact ⟨ha, rfl⟩
    · rw [joined, if_neg (by omega), Prod.mk.injEq] at heq
      obtain ⟨rfl, rfl⟩ := heq
      have hsib : sibling (2 * j + 1) = 2 * j := by rw [sibling, if_neg (by omega), Nat.add_sub_cancel]
      have hhalf : (2 * j + 1) / 2 = j := by omega
      rw [hodd, hsib, getD_eq_getElem?_getD, ha, hhalf, ← htail]
      exact ⟨hb, rfl⟩

variable {p : α × α}

theorem treePairs_mono {k n : ℕ} (h : k ≤ n) {l : List α} (hp : p ∈ treePairs node k l) :
    p ∈ treePairs node n l := by
  induction k generalizing n l with
  | zero => exact absurd hp not_mem_nil
  | succ k ih =>
    obtain ⟨n, rfl⟩ : ∃ m, n = m + 1 := ⟨n - 1, by omega⟩
    rw [treePairs, mem_append] at hp ⊢
    exact hp.imp_right (ih (Nat.le_of_succ_le_succ h))

theorem root_iterate (k d : ℕ) (l : List α) : root node (k + d) l = root node k ((pairs node)^[d] l) := by
  induction d generalizing l with
  | zero => rfl
  | succ d ih => rw [← Nat.add_assoc, root, ih, Function.iterate_succ_apply]

theorem length_iterate_pairs {k d : ℕ} {l : List α} (hl : l.length = 2 ^ (k + d)) :
    ((pairs node)^[d] l).length = 2 ^ k := by
  induction d generalizing l with
  | zero => exact hl
  | succ d ih => exact ih (length_pairs_pow (by rwa [Nat.add_assoc]))

theorem treePairs_iterate {k d : ℕ} {l : List α} (hp : p ∈ treePairs node k ((pairs node)^[d] l)) :
    p ∈ treePairs node (k + d) l := by
  induction d generalizing l with
  | zero => exact hp
  | succ d ih =>
    rw [← Nat.add_assoc, treePairs]
    exact mem_append_right _ (ih hp)

/-- Every hash above the bottom layer is one of a pair. -/
theorem mem_iterate_pairs {k d : ℕ} {l : List α} {x : α} (hx : x ∈ (pairs node)^[d + 1] l) :
    ∃ p ∈ treePairs node (k + (d + 1)) l, node p.1 p.2 = x := by
  rw [Function.iterate_succ_apply', pairs_eq_map, mem_map] at hx
  obtain ⟨p, hp, rfl⟩ := hx
  have hmem : p ∈ treePairs node (k + 1) ((pairs node)^[d] l) := by
    rw [treePairs]
    exact mem_append_left _ hp
  refine ⟨p, ?_, rfl⟩
  rw [Nat.add_comm d 1, ← Nat.add_assoc]
  exact treePairs_iterate hmem

/-- **A proof that leads to the root has full length**: a shorter one would start at the hash of a pair, a
longer one would pass a hash of the bottom layer. -/
theorem length_of_climb_eq_root {k : ℕ} {l : List α} (hl : l.length = 2 ^ k) {x : α} {ss : List α} {i : ℕ}
    (hinj : ∀ p ∈ treePairs node k l, ∀ q ∈ climbPairs node x ss i, node p.1 p.2 = node q.1 q.2 → p = q)
    (hleaf : ∀ p ∈ treePairs node k l, node p.1 p.2 ≠ x)
    (hbottom : ∀ y ∈ l, ∀ q ∈ climbPairs node x ss i, node q.1 q.2 ≠ y)
    (h : root node k l = some (climb node x ss i)) : ss.length = k := by
  rcases lt_trichotomy ss.length k with hlt | heq | hgt
  · obtain ⟨d, rfl⟩ := Nat.exists_eq_add_of_lt hlt
    rw [Nat.add_assoc] at hl hinj hleaf h
    rw [root_iterate] at h
    obtain ⟨hget, -⟩ := climb_eq_root x (length_iterate_pairs hl) rfl
      (fun p hp q hq => hinj p (treePairs_iterate hp) q hq) h
    obtain ⟨p, hp, hx⟩ := mem_iterate_pairs (k := ss.length) (mem_of_getElem? hget)
    exact absurd hx (hleaf p hp)
  · exact heq
  · -- the part of the way that is too long comes first
    obtain ⟨s₁, s₂, rfl, hs₂, hs₁⟩ : ∃ s₁ s₂, ss = s₁ ++ s₂ ∧ s₂.length = k ∧ s₁ ≠ [] := by
      refine ⟨ss.take (ss.length - k), ss.drop (ss.length - k), (take_append_drop _ _).symm, ?_, ?_⟩
      · rw [length_drop]
        omega
      · intro hnil
        have hlen := congrArg length hnil
        rw [length_take, length_nil] at hlen
        omega
    rw [climb_append] at h
    rw [climbPairs_append] at hinj hbottom
    obtain ⟨hget, -⟩ := climb_eq_root x hl hs₂ (fun p hp q hq => hinj p hp q (mem_append_right _ hq)) h
    obtain ⟨q, hq, hy⟩ := @climb_mem α node x s₁ hs₁ i
    exact absurd hy (hbottom _ (mem_of_getElem? hget) q (mem_append_left _ hq))

end Juno.Lib.Merkle
