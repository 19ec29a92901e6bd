import Mathlib.Data.List.Basic
import Mathlib.Algebra.Notation.Defs
import Mathlib.Tactic.Common

/-!
# Patricia trees over bit strings

A library on its own: path-compressed binary trees whose keys are bit strings of
one fixed length, over any type of values with a zero. A key that is not stored
reads as `0`.

## The model

A `BitTree` is a leaf, a branch with two subtrees, or an edge: a non-empty bit
string on the way to a subtree that is not itself an edge. `Canonical t n` says
that `t` is such a tree for keys of length `n` and stores no `0`. An
`Option (BitTree α)` is a tree that may be empty.
-/

namespace Juno.Lib

open List

/-- A bit string, most significant bit first. -/
abbrev Path := List Bool

variable {k p k' : Path}

namespace Patricia

variable {α : Type*}

inductive BitTree (α : Type*) where
  /-- The end of a key, with the value stored there. -/
  | leaf (v : α)
  /-- A branch: keys continue with `0` on the left and `1` on the right. -/
  | binary (l r : BitTree α)
  /-- A string of bits that every key below shares. -/
  | edge (p : Path) (c : BitTree α)
  deriving DecidableEq, Repr

variable {t : BitTree α}

namespace BitTree

/-- Whether the root of the tree is an edge. -/
def isEdge : BitTree α → Bool
  | edge _ _ => true
  | _ => false

variable (b : Bool)

/-- The subtree of a branch on the side of a bit. -/
def side (l r : BitTree α) : BitTree α := if b then r else l

@[simp] theorem side_false (l r : BitTree α) : side false l r = l := rfl

@[simp] theorem side_true (l r : BitTree α) : side true l r = r := rfl

/-- Put a bit string in front of every key: the edges on the way are merged. -/
def prepend : Path → BitTree α → BitTree α
  | [], t => t
  | b :: p, edge q c => edge (b :: p ++ q) c
  | b :: p, t => edge (b :: p) t

/-- A branch whose subtree on the side of `b` is `t`, and whose other subtree is `u`. -/
def fork (t u : BitTree α) : BitTree α := if b then binary u t else binary t u

@[simp] theorem prepend_nil (t : BitTree α) : prepend [] t = t := rfl

theorem prepend_of_not_edge (hp : p ≠ []) (ht : t.isEdge = false) : prepend p t = edge p t := by
  cases p with
  | nil => exact absurd rfl hp
  | cons b p => cases t <;> simp_all [prepend, isEdge]

theorem prepend_edge (p q : Path) (c : BitTree α) : prepend p (edge q c) = edge (p ++ q) c := by
  cases p <;> rfl

theorem fork_side (l r : BitTree α) : fork b (side b l r) (side (!b) l r) = binary l r := by
  cases b <;> rfl

@[simp] theorem isEdge_fork (t u : BitTree α) : (fork b t u).isEdge = false := by
  cases b <;> rfl

end BitTree

open BitTree

/-! ### Writing -/

def common : Path → Path → Path
  | a :: p, b :: q => if a = b then a :: common p q else []
  | _, _ => []

/-- Store `v` at a key of the tree. -/
def insert (v : α) : BitTree α → Path → BitTree α
  | leaf _, _ => leaf v
  | binary l r, [] => binary l r
  | binary l r, b :: k => if b then binary l (insert v r k) else binary (insert v l k) r
  | edge p c, k =>
    let m := (common p k).length
    match p.drop m, k.drop m with
    | b :: p', _ :: k' => prepend (p.take m) (fork b (prepend p' c) (prepend k' (leaf v)))
    | _, k' => edge p (insert v c k')

def delete : BitTree α → Path → Option (BitTree α)
  | leaf _, _ => none
  | binary l r, [] => some (binary l r)
  | binary l r, b :: k =>
    if b then
      match delete r k with
      | some r' => some (binary l r')
      | none => some (prepend [false] l)
    else
      match delete l k with
      | some l' => some (binary l' r)
      | none => some (prepend [true] r)
  | edge p c, k => if p <+: k then (delete c (k.drop p.length)).map (prepend p) else some (edge p c)

/-- Store `v` at a key of a tree that may be empty. -/
def insert? (t : Option (BitTree α)) (k : Path) (v : α) : BitTree α :=
  match t with
  | none => prepend k (leaf v)
  | some t => insert v t k

/-- After their longest common prefix, one of two strings ends or they differ in the next bit. -/
theorem common_split (p k : Path) : ∃ p' k', p = common p k ++ p' ∧ k = common p k ++ k' ∧
    (p' = [] ∨ k' = [] ∨ ∃ b p'' k'', p' = b :: p'' ∧ k' = (!b) :: k'') := by
  fun_induction common p k with
  | case1 p a k ih =>
    obtain ⟨p', k', hp, hk, h⟩ := ih
    exact ⟨p', k', by rw [cons_append, ← hp], by rw [cons_append, ← hk], h⟩
  | case2 a p b k hab =>
    refine ⟨_, _, rfl, rfl, .inr (.inr ⟨a, p, k, rfl, ?_⟩)⟩
    cases a <;> cases b <;> simp_all
  | case3 p k h =>
    refine ⟨p, k, rfl, rfl, ?_⟩
    cases p with
    | nil => exact .inl rfl
    | cons a p =>
      cases k with
      | nil => exact .inr (.inl rfl)
      | cons b k => exact absurd rfl (h a p b k rfl)

/-- The common prefix of two strings that differ after `m` is `m`. -/
theorem common_append_cons_not (m p k : Path) (b : Bool) : common (m ++ b :: p) (m ++ (!b) :: k) = m := by
  induction m with
  | nil => cases b <;> simp [common]
  | cons a m ih => simp [common, ih]

theorem common_append (p k : Path) : common p (p ++ k) = p := by
  induction p with
  | nil => simp [common]
  | cons a p ih => simp [common, ih]

theorem common_self (p : Path) : common p p = p := by
  simpa using common_append p []

theorem insert_binary_cons (v : α) (l r : BitTree α) (b : Bool) (k : Path) :
    insert v (binary l r) (b :: k) = fork b (insert v (side b l r) k) (side (!b) l r) := by
  cases b <;> rfl

theorem delete_binary_cons (l r : BitTree α) (b : Bool) (k : Path) :
    delete (binary l r) (b :: k) = some (match delete (side b l r) k with
      | some t => fork b t (side (!b) l r)
      | none => prepend [!b] (side (!b) l r)) := by
  cases b
  · simp only [delete, side_false, Bool.not_false, side_true]
    cases delete l k <;> rfl
  · simp only [delete, side_true, Bool.not_true, side_false]
    cases delete r k <;> rfl

theorem delete_edge_append (p k : Path) (c : BitTree α) :
    delete (edge p c) (p ++ k) = (delete c k).map (prepend p) := by
  simp [delete]

theorem delete_edge_split (q p k : Path) (b : Bool) (c : BitTree α) :
    delete (edge (q ++ b :: p) c) (q ++ (!b) :: k) = some (edge (q ++ b :: p) c) := by
  simp [delete]

theorem insert_edge_append (v : α) (p k : Path) (c : BitTree α) :
    insert v (edge p c) (p ++ k) = edge p (insert v c k) := by
  simp [insert, common_append]

/-- Inserting at a key that leaves an edge: the edge is split there. -/
theorem insert_edge_split (v : α) (m p k : Path) (b : Bool) (c : BitTree α) :
    insert v (edge (m ++ b :: p) c) (m ++ (!b) :: k) =
      prepend m (fork b (prepend p c) (prepend k (leaf v))) := by
  simp [insert, common_append_cons_not]

/-- A key as long as the tree is high either goes through an edge or leaves it at some bit. -/
theorem edge_key_cases (h : p.length ≤ k.length) :
    (∃ k', k = p ++ k') ∨ ∃ m b p' k', p = m ++ b :: p' ∧ k = m ++ (!b) :: k' := by
  obtain ⟨p', k', hp, hk, hcases⟩ := common_split p k
  generalize common p k = m at hp hk
  subst hp hk
  rcases hcases with rfl | rfl | ⟨b, p'', k'', rfl, rfl⟩
  · exact .inl ⟨k', by simp⟩
  · obtain rfl : p' = [] := by
      rw [← length_eq_zero_iff]
      simp only [length_append, append_nil] at h
      omega
    exact .inl ⟨[], by simp⟩
  · exact .inr ⟨m, b, p'', k'', rfl, rfl⟩

variable {v : α} {c l r : BitTree α} {f : Path → α}

section

variable [Zero α]

/-- The tree is for keys of length `n`: edges are non-empty and maximal, and no `0` is stored. -/
def Canonical : BitTree α → ℕ → Prop
  | leaf v, n => n = 0 ∧ v ≠ 0
  | binary l r, n => ∃ m, n = m + 1 ∧ Canonical l m ∧ Canonical r m
  | edge p c, n => p ≠ [] ∧ c.isEdge = false ∧ ∃ m, n = p.length + m ∧ Canonical c m

/-- The value stored at a key, `0` when there is none. -/
def get : BitTree α → Path → α
  | leaf v, [] => v
  | leaf _, _ :: _ => 0
  | binary _ _, [] => 0
  | binary l r, b :: k => if b then get r k else get l k
  | edge p c, k => if p <+: k then get c (k.drop p.length) else 0

/-- The value stored at a key of a tree that may be empty. -/
def get? : Option (BitTree α) → Path → α
  | none, _ => 0
  | some t, k => get t k

def Canonical? : Option (BitTree α) → ℕ → Prop
  | none, _ => True
  | some t, n => Canonical t n

@[simp] theorem get?_none (k : Path) : get? (none : Option (BitTree α)) k = 0 := rfl

@[simp] theorem get?_some (t : BitTree α) (k : Path) : get? (some t) k = get t k := rfl

@[simp] theorem canonical?_some (t : BitTree α) (n : ℕ) : Canonical? (some t) n ↔ Canonical t n := Iff.rfl

/-! ### Reading -/

@[simp] theorem get_binary_cons (l r : BitTree α) (b : Bool) (k : Path) :
    get (binary l r) (b :: k) = get (side b l r) k := by
  cases b <;> simp [get, side]

@[simp] theorem get_edge_append (p k : Path) (c : BitTree α) : get (edge p c) (p ++ k) = get c k := by
  simp [get]

theorem get_edge_off (c : BitTree α) (h : ¬ p <+: k) : get (edge p c) k = 0 := by
  simp [get, h]

@[simp] theorem get_prepend_append (p k : Path) (t : BitTree α) : get (prepend p t) (p ++ k) = get t k := by
  cases p with
  | nil => rfl
  | cons b p =>
    cases t with
    | edge q c =>
      rw [prepend_edge]
      by_cases hq : q <+: k
      · obtain ⟨k, rfl⟩ := hq
        rw [← append_assoc, get_edge_append, get_edge_append]
      · rw [get_edge_off _ (by simpa [prefix_append_right_inj] using hq), get_edge_off _ hq]
    | leaf | binary => exact get_edge_append (b :: p) k _

theorem get_prepend_off (t : BitTree α) (h : ¬ p <+: k) : get (prepend p t) k = 0 := by
  cases p with
  | nil => exact absurd k.nil_prefix h
  | cons b p =>
    cases t with
    | edge q c => exact get_edge_off c fun hk => h ((prefix_append _ _).trans hk)
    | leaf | binary => exact get_edge_off _ h

@[simp] theorem get_fork_same (b : Bool) (t u : BitTree α) (k : Path) :
    get (fork b t u) (b :: k) = get t k := by
  cases b <;> simp [fork]

@[simp] theorem get_fork_other (b : Bool) (t u : BitTree α) (k : Path) :
    get (fork b t u) ((!b) :: k) = get u k := by
  cases b <;> simp [fork]

/-! ### Canonical trees -/

variable {n : ℕ}

theorem Canonical.binary_inv (h : Canonical (binary l r) (n + 1)) : Canonical l n ∧ Canonical r n := by
  obtain ⟨m, hm, hl, hr⟩ := h
  obtain rfl : n = m := by omega
  exact ⟨hl, hr⟩

theorem Canonical.side (h : Canonical (binary l r) (n + 1)) (b : Bool) : Canonical (side b l r) n := by
  cases b
  · exact h.binary_inv.1
  · exact h.binary_inv.2

theorem canonical_fork {b : Bool} {u : BitTree α} (ht : Canonical t n) (hu : Canonical u n) :
    Canonical (fork b t u) (n + 1) := by
  cases b
  · exact ⟨n, rfl, ht, hu⟩
  · exact ⟨n, rfl, hu, ht⟩

theorem canonical_edge (hp : p ≠ []) (hc : c.isEdge = false) (h : Canonical c n) :
    Canonical (edge p c) (p.length + n) := ⟨hp, hc, n, rfl, h⟩

theorem Canonical.prepend (h : Canonical t n) (p : Path) : Canonical (prepend p t) (p.length + n) := by
  cases p with
  | nil => simpa using h
  | cons b p =>
    cases t with
    | edge q c =>
      obtain ⟨hq, hc, m, rfl, hm⟩ := h
      exact ⟨by simp, hc, m, by simp; omega, hm⟩
    | leaf | binary => exact canonical_edge (by simp) rfl h

theorem canonical_leaf (h : v ≠ 0) : Canonical (leaf v) 0 := ⟨rfl, h⟩

theorem Canonical.eq_leaf (h : Canonical t 0) : ∃ v, v ≠ 0 ∧ t = leaf v := by
  cases t with
  | leaf v => exact ⟨v, h.2, rfl⟩
  | binary l r => obtain ⟨m, hm, -⟩ := h; omega
  | edge p c =>
    obtain ⟨hp, -, m, hm, -⟩ := h
    have := length_pos_of_ne_nil hp
    omega

theorem Canonical.exists_get_ne : ∀ {n : ℕ}, Canonical t n → ∃ k, k.length = n ∧ get t k ≠ 0 := by
  induction t with
  | leaf v =>
    rintro n ⟨rfl, hv⟩
    exact ⟨[], rfl, hv⟩
  | binary l r ihl _ =>
    rintro n ⟨m, rfl, hl, -⟩
    obtain ⟨k, hk, hne⟩ := ihl hl
    exact ⟨false :: k, by simp [hk], hne⟩
  | edge p c ih =>
    rintro n ⟨-, -, m, rfl, hc⟩
    obtain ⟨k, hk, hne⟩ := ih hc
    exact ⟨p ++ k, by simp [hk], by rwa [get_edge_append]⟩

theorem Canonical.exists_side (h : Canonical (binary l r) n) (b : Bool) :
    ∃ k, (b :: k).length = n ∧ get (binary l r) (b :: k) ≠ 0 := by
  obtain ⟨m, rfl, -⟩ := id h
  obtain ⟨k, hk, hne⟩ := (h.side b).exists_get_ne
  exact ⟨k, by simp [hk], by rwa [get_binary_cons]⟩

/-- No bit string is shared by all the keys of a tree that is not an edge. -/
theorem Canonical.exists_get_off (h : Canonical c n) (hc : c.isEdge = false) {q : Path}
    (hq : q ≠ []) (hlen : q.length ≤ n) : ¬ ∀ k, k.length = n → get c k ≠ 0 → q <+: k := by
  intro hall
  cases q with
  | nil => exact hq rfl
  | cons b q =>
    cases c with
    | edge p c => simp [isEdge] at hc
    | leaf v => simp [h.1] at hlen
    | binary l r =>
      obtain ⟨k, hk, hne⟩ := h.exists_side (!b)
      have := hall _ hk hne
      rw [cons_prefix_cons] at this
      cases b <;> simp at this

/-- Of two trees that store the same keys, the path of one edge is not longer than the other's. -/
theorem edge_prefix_of_get {p' : Path} {c' : BitTree α} (h : Canonical (edge p c) n)
    (h' : Canonical (edge p' c') n)
    (hget : ∀ k, k.length = n → get (edge p c) k = get (edge p' c') k) : p' <+: p := by
  obtain ⟨hp, hc, m, rfl, hm⟩ := h
  obtain ⟨hp', hc', m', hlen, hm'⟩ := h'
  have hpre : ∀ k, k.length = m → get c k ≠ 0 → p' <+: p ++ k := by
    intro k hk hne
    by_contra hnot
    have := hget (p ++ k) (by simp [hk])
    rw [get_edge_append, get_edge_off _ hnot] at this
    exact hne this
  rcases Nat.lt_or_ge p.length p'.length with hgt | hle
  · exfalso
    obtain ⟨k, hk, hne⟩ := hm.exists_get_ne
    obtain ⟨q, rfl⟩ := prefix_of_prefix_length_le (prefix_append p k) (hpre k hk hne) (by omega)
    refine hm.exists_get_off hc (q := q) (by rintro rfl; simp at hgt) (by simp at hlen; omega) ?_
    intro k hk hne
    simpa [prefix_append_right_inj] using hpre k hk hne
  · obtain ⟨k, hk, hne⟩ := hm.exists_get_ne
    exact prefix_of_prefix_length_le (hpre k hk hne) (prefix_append p k) hle

/-- **A canonical tree is determined by the map it stores.** -/
theorem Canonical.eq_of_get : ∀ {n : ℕ} {t' : BitTree α}, Canonical t n → Canonical t' n →
    (∀ k, k.length = n → get t k = get t' k) → t = t' := by
  induction t with
  | leaf v =>
    intro n t' h h' hget
    obtain rfl := h.1
    obtain ⟨v', -, rfl⟩ := h'.eq_leaf
    have := hget [] rfl
    simp only [get] at this
    rw [this]
  | binary l r ihl ihr =>
    intro n t' h h' hget
    cases t' with
    | leaf v => obtain ⟨m, hm, -⟩ := h; obtain ⟨h0, -⟩ := h'; omega
    | binary l' r' =>
      obtain ⟨m, rfl, hl, hr⟩ := h
      obtain ⟨hl', hr'⟩ := h'.binary_inv
      rw [ihl hl hl' fun k hk => by simpa [get] using hget (false :: k) (by simp [hk]),
        ihr hr hr' fun k hk => by simpa [get] using hget (true :: k) (by simp [hk])]
    | edge p c =>
      obtain ⟨hp, -⟩ := h'
      cases p with
      | nil => exact absurd rfl hp
      | cons b p =>
        -- the branch stores a key on the side the edge leaves out
        obtain ⟨k, hk, hne⟩ := h.exists_side (!b)
        rw [hget _ hk, get_edge_off] at hne
        · exact absurd rfl hne
        · rw [cons_prefix_cons]
          cases b <;> simp
  | edge p c ih =>
    intro n t' h h' hget
    cases t' with
    | leaf v => rw [h'.1] at h; obtain ⟨v, -, hv⟩ := h.eq_leaf; cases hv
    | binary l r =>
      obtain ⟨hp, -⟩ := h
      cases p with
      | nil => exact absurd rfl hp
      | cons b p =>
        obtain ⟨k, hk, hne⟩ := h'.exists_side (!b)
        rw [← hget _ hk, get_edge_off] at hne
        · exact absurd rfl hne
        · rw [cons_prefix_cons]
          cases b <;> simp
    | edge p' c' =>
      have h1 := edge_prefix_of_get h h' hget
      have h2 := edge_prefix_of_get h' h fun k hk => (hget k hk).symm
      obtain rfl := h1.eq_of_length_le h2.length_le
      obtain ⟨-, -, m, rfl, hm⟩ := h
      obtain ⟨-, -, m', hlen, hm'⟩ := h'
      obtain rfl : m = m' := by omega
      rw [ih hm hm' fun k hk => by simpa using hget (p' ++ k) (by simp [hk])]

/-! ### The tree of a map -/

/-- The tree of the keys that start with `0` and of those that start with `1`, put together. -/
def join : Option (BitTree α) → Option (BitTree α) → Option (BitTree α)
  | none, none => none
  | some l, none => some (prepend [false] l)
  | none, some r => some (prepend [true] r)
  | some l, some r => some (binary l r)

/-- **The tree of a map** on keys of length `n`. -/
def canon [DecidableEq α] : ℕ → (Path → α) → Option (BitTree α)
  | 0, f => if f [] = 0 then none else some (leaf (f []))
  | n + 1, f => join (canon n fun k => f (false :: k)) (canon n fun k => f (true :: k))

theorem join_canonical {l r : Option (BitTree α)} (hl : Canonical? l n) (hr : Canonical? r n) :
    Canonical? (join l r) (n + 1) := by
  cases l <;> cases r
  · trivial
  · exact (Nat.add_comm 1 n) ▸ Canonical.prepend hr [true]
  · exact (Nat.add_comm 1 n) ▸ Canonical.prepend hl [false]
  · exact ⟨n, rfl, hl, hr⟩

theorem get?_join (l r : Option (BitTree α)) (b : Bool) (k : Path) :
    get? (join l r) (b :: k) = if b then get? r k else get? l k := by
  have hne (b' : Bool) (t : BitTree α) (h : b ≠ b') : get (prepend [b'] t) (b :: k) = 0 :=
    get_prepend_off t (by rw [cons_prefix_cons]; exact fun h' => h h'.1.symm)
  cases l <;> cases r <;> cases b <;> simp [join, get, hne]
  all_goals exact get_prepend_append [_] k _

theorem canon_canonical [DecidableEq α] (n : ℕ) : ∀ f : Path → α, Canonical? (canon n f) n := by
  induction n with
  | zero =>
    intro f
    simp only [canon]
    split
    · trivial
    · exact canonical_leaf ‹_›
  | succ n ih => intro f; exact join_canonical (ih _) (ih _)

theorem get?_canon [DecidableEq α] (n : ℕ) :
    ∀ (f : Path → α) (k : Path), k.length = n → get? (canon n f) k = f k := by
  induction n with
  | zero =>
    intro f k hk
    obtain rfl := length_eq_zero_iff.mp hk
    simp only [canon]
    split
    · simp [*]
    · rfl
  | succ n ih =>
    intro f k hk
    cases k with
    | nil => simp at hk
    | cons b k =>
      rw [canon, get?_join]
      cases b <;> simp [ih _ k (by simpa using hk)]

/-- Two trees that may be empty, answering every key alike, are the same. -/
theorem Canonical?.eq_of_get? {t t' : Option (BitTree α)} (h : Canonical? t n) (h' : Canonical? t' n)
    (hget : ∀ k, k.length = n → get? t k = get? t' k) : t = t' := by
  cases t with
  | none =>
    cases t' with
    | none => rfl
    | some t' =>
      obtain ⟨k, hk, hne⟩ := Canonical.exists_get_ne h'
      exact absurd (hget k hk).symm hne
  | some t =>
    cases t' with
    | none =>
      obtain ⟨k, hk, hne⟩ := Canonical.exists_get_ne h
      exact absurd (hget k hk) hne
    | some t' => rw [Canonical.eq_of_get h h' hget]

theorem Canonical?.eq_canon [DecidableEq α] {t : Option (BitTree α)} (h : Canonical? t n)
    (hf : ∀ k, k.length = n → get? t k = f k) : t = canon n f :=
  h.eq_of_get? (canon_canonical n f) fun k hk => (hf k hk).trans (get?_canon n f k hk).symm

/-- The tree of a map is empty exactly when the map is. -/
theorem canon_eq_none_iff [DecidableEq α] : canon n f = none ↔ ∀ k, k.length = n → f k = 0 := by
  constructor
  · intro h k hk
    rw [← get?_canon n f k hk, h, get?_none]
  · intro h
    exact (Canonical?.eq_canon (t := none) trivial fun k hk => (h k hk).symm).symm

/-! ### What writing does -/

/-- **Write a key**: a write of `0` removes it. -/
def update [DecidableEq α] (t : Option (BitTree α)) (k : Path) (v : α) : Option (BitTree α) :=
  if v = 0 then t.bind (delete · k) else some (insert? t k v)

/-- **The way of a key along a canonical tree**: it ends at a leaf, goes to a side of a branch, and goes
through an edge or leaves it. -/
inductive Along : BitTree α → Path → Prop
  | leaf {v : α} (hv : v ≠ 0) : Along (leaf v) []
  | binary {l r : BitTree α} {b : Bool} {k : Path} (h : Canonical (binary l r) (k.length + 1))
    (hside : Along (side b l r) k) :
      Along (binary l r) (b :: k)
  | through {p k : Path} {c : BitTree α} (hp : p ≠ []) (hc : c.isEdge = false) (hm : Canonical c k.length)
    (h : Along c k) :
      Along (edge p c) (p ++ k)
  | leaves {q p k : Path} {b : Bool} {c : BitTree α}
    (h : Canonical (edge (q ++ b :: p) c) (q ++ (!b) :: k).length) :
      Along (edge (q ++ b :: p) c) (q ++ (!b) :: k)

theorem Canonical.along : ∀ {n : ℕ} {k : Path}, Canonical t n → k.length = n → Along t k := by
  induction t with
  | leaf v =>
    rintro n k ⟨rfl, hv⟩ hk
    obtain rfl := length_eq_zero_iff.mp hk
    exact .leaf hv
  | binary l r ihl ihr =>
    rintro n k h rfl
    obtain ⟨m, hm, hl, hr⟩ := id h
    obtain ⟨b, k, rfl⟩ := exists_cons_of_length_eq_add_one hm
    simp only [length_cons, Nat.add_right_cancel_iff] at hm
    refine .binary h ?_
    cases b
    · exact ihl hl hm
    · exact ihr hr hm
  | edge p c ih =>
    rintro n k h rfl
    obtain ⟨hp, hc, m, hlen, hm⟩ := id h
    rcases edge_key_cases (p := p) (k := k) (by omega) with ⟨k, rfl⟩ | ⟨q, b, p, k, rfl, rfl⟩
    · obtain rfl : k.length = m := by simpa using hlen
      exact .through hp hc hm (ih hm rfl)
    · exact .leaves h

theorem insert_canonical (hv : v ≠ 0) (h : Canonical t n) (hk : k.length = n) :
    Canonical (insert v t k) n ∧ (t.isEdge = false → (insert v t k).isEdge = false) := by
  subst hk
  have ha := h.along rfl
  clear h
  induction ha with
  | leaf => exact ⟨canonical_leaf hv, fun _ => rfl⟩
  | @binary l r b k h _ ih =>
    rw [insert_binary_cons]
    exact ⟨canonical_fork ih.1 (h.side (!b)), fun _ => isEdge_fork _ _ _⟩
  | @through p k c hp hc _ _ ih =>
    rw [insert_edge_append, length_append]
    exact ⟨canonical_edge hp (ih.2 hc) ih.1, fun h => by simp [isEdge] at h⟩
  | @leaves q p k b c h =>
    obtain ⟨-, -, m, hlen, hm⟩ := h
    rw [insert_edge_split]
    refine ⟨?_, fun h => by simp [isEdge] at h⟩
    have hlen : k.length = p.length + m := by simp at hlen; omega
    have hleaf : Canonical (prepend k (leaf v)) (p.length + m) := by
      have := (canonical_leaf hv).prepend k
      rwa [Nat.add_zero, hlen] at this
    have := (canonical_fork (b := b) (hm.prepend p) hleaf).prepend q
    rwa [← hlen, ← length_cons, ← length_append] at this

theorem get_insert (h : Along t k) (hk' : k'.length = k.length) :
    get (insert v t k) k' = if k' = k then v else get t k' := by
  induction h generalizing k' with
  | leaf hv =>
    rw [length_nil, length_eq_zero_iff] at hk'
    simp [hk', insert, get]
  | @binary l r b k _ _ ih =>
    obtain ⟨b', k', rfl⟩ := exists_cons_of_length_eq_add_one hk'
    have hside := @ih k' (by simpa using hk')
    rw [insert_binary_cons]
    by_cases hb : b' = b
    · subst hb
      simpa using hside
    · obtain rfl := Bool.eq_not_of_ne hb
      simp
  | @through p k c _ _ _ _ ih =>
    rw [insert_edge_append]
    by_cases h : p <+: k'
    · obtain ⟨k', rfl⟩ := h
      simp only [get_edge_append, append_cancel_left_eq]
      exact ih (by simpa using hk')
    · rw [get_edge_off _ h, get_edge_off _ h, if_neg]
      rintro rfl
      exact h (prefix_append _ _)
  | @leaves q p k b c _ =>
    rw [insert_edge_split]
    by_cases h : q <+: k'
    · obtain ⟨k', rfl⟩ := h
      obtain ⟨b', k', rfl⟩ :=
        exists_cons_of_length_eq_add_one (show k'.length = k.length + 1 by simpa using hk')
      rw [get_prepend_append]
      by_cases hb : b' = b
      · subst hb
        -- on the side of the old edge
        rw [get_fork_same, if_neg (by simp)]
        by_cases h' : p <+: k'
        · obtain ⟨k', rfl⟩ := h'
          rw [get_prepend_append, ← cons_append, ← append_assoc, get_edge_append]
        · rw [get_prepend_off _ h', get_edge_off]
          simpa [prefix_append_right_inj, cons_prefix_cons] using h'
      · -- on the side of the new leaf
        obtain rfl := Bool.eq_not_of_ne hb
        rw [get_fork_other, get_edge_off c (p := q ++ b :: p)
          (by simp [prefix_append_right_inj, cons_prefix_cons])]
        have hlen : k'.length = k.length := by simpa using hk'
        by_cases h' : k <+: k'
        · obtain rfl := h'.eq_of_length hlen.symm
          simpa [get] using get_prepend_append k [] (leaf v)
        · rw [get_prepend_off _ h', if_neg]
          rintro h''
          simp only [append_cancel_left_eq, cons.injEq, true_and] at h''
          exact h' (h'' ▸ prefix_refl _)
    · rw [get_prepend_off _ h, if_neg, get_edge_off]
      · exact fun h' => h ((prefix_append _ _).trans h')
      · rintro rfl
        exact h (prefix_append _ _)

theorem delete_canonical (h : Canonical t n) (hk : k.length = n) : Canonical? (delete t k) n := by
  subst hk
  have ha := h.along rfl
  clear h
  induction ha with
  | leaf => trivial
  | @binary l r b k h _ ih =>
    rw [delete_binary_cons]
    cases hd : delete (side b l r) k with
    | none => simpa [Nat.add_comm] using (h.side (!b)).prepend [!b]
    | some t =>
      rw [hd] at ih
      exact canonical_fork ih (h.side (!b))
  | @through p k c _ _ _ _ ih =>
    rw [delete_edge_append, length_append]
    cases hd : delete c k with
    | none => trivial
    | some c' =>
      rw [hd] at ih
      exact Canonical.prepend ih p
  | leaves h =>
    rw [delete_edge_split]
    exact h

theorem get?_delete (h : Along t k) (hk' : k'.length = k.length) :
    get? (delete t k) k' = if k' = k then 0 else get t k' := by
  induction h generalizing k' with
  | leaf hv =>
    rw [length_nil, length_eq_zero_iff] at hk'
    simp [hk', delete]
  | @binary l r b k _ _ ih =>
    obtain ⟨b', k', rfl⟩ := exists_cons_of_length_eq_add_one hk'
    have hside := @ih k' (by simpa using hk')
    rw [delete_binary_cons, get?_some]
    cases hd : delete (side b l r) k with
    | none =>
      -- the other side takes the place of the branch
      rw [hd] at hside
      by_cases hb : b' = b
      · subst hb
        simp only [get_prepend_off (p := [!b']) _ (k := b' :: k') (by simp [cons_prefix_cons])]
        simpa using hside
      · obtain rfl := Bool.eq_not_of_ne hb
        simpa using get_prepend_append [!b] k' (side (!b) l r)
    | some t =>
      rw [hd] at hside
      by_cases hb : b' = b
      · subst hb
        simpa using hside
      · obtain rfl := Bool.eq_not_of_ne hb
        simp
  | @through p k c _ _ _ _ ih =>
    rw [delete_edge_append]
    by_cases h : p <+: k'
    · obtain ⟨k', rfl⟩ := h
      have := @ih k' (by simpa using hk')
      cases hd : delete c k <;> simp [hd] at this ⊢ <;> exact this
    · rw [get_edge_off _ h, ite_self]
      cases hd : delete c k with
      | none => rfl
      | some c' => exact get_prepend_off c' h
  | @leaves q p k b c _ =>
    rw [delete_edge_split, get?_some]
    split_ifs with heq
    · rw [heq, get_edge_off _ (by simp)]
    · rfl

theorem insert?_canonical {t : Option (BitTree α)} (h : Canonical? t n) (hk : k.length = n)
    (hv : v ≠ 0) : Canonical (insert? t k v) n := by
  cases t with
  | none => simpa [insert?, hk] using (canonical_leaf hv).prepend k
  | some t => exact (insert_canonical hv h hk).1

theorem get_insert? {t : Option (BitTree α)} (h : Canonical? t n) (hk : k.length = n)
    (hk' : k'.length = n) : get (insert? t k v) k' = if k' = k then v else get? t k' := by
  cases t with
  | none =>
    by_cases heq : k <+: k'
    · obtain rfl := heq.eq_of_length (hk.trans hk'.symm)
      simpa [insert?, get] using get_prepend_append k [] (leaf v)
    · rw [if_neg (by rintro rfl; exact heq (prefix_refl _))]
      exact get_prepend_off _ heq
  | some t => exact get_insert (Canonical.along h hk) (hk'.trans hk.symm)

variable [DecidableEq α]

theorem update_canonical {t : Option (BitTree α)} (h : Canonical? t n) (hk : k.length = n) (v : α) :
    Canonical? (update t k v) n := by
  unfold update
  split
  case isTrue =>
    cases t with
    | none => trivial
    | some t => exact delete_canonical h hk
  case isFalse hv => exact insert?_canonical h hk hv

/-- **A write changes the map at its key only.** -/
theorem get?_update {t : Option (BitTree α)} (h : Canonical? t n) (hk : k.length = n)
    (hk' : k'.length = n) (v : α) : get? (update t k v) k' = if k' = k then v else get? t k' := by
  unfold update
  split
  case isTrue hv =>
    cases t with
    | none => simp [hv]
    | some t => rw [hv]; exact get?_delete (Canonical.along h hk) (hk'.trans hk.symm)
  case isFalse => exact get_insert? h hk hk'

theorem update_get? {t : Option (BitTree α)} (h : Canonical? t n) (hk : k.length = n) :
    update t k (get? t k) = t := by
  refine (update_canonical h hk _).eq_of_get? h fun k' hk' => ?_
  rw [get?_update h hk hk']
  split_ifs with heq
  · rw [heq]
  · rfl

end

end Patricia

end Juno.Lib
