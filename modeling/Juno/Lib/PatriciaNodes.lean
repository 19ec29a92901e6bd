import Juno.Lib.Patricia

/-!
# The nodes of a Patricia tree, and its hash

Where the nodes of a tree lie, for programs that keep each node under its path
in a store, and the hash of a tree, for programs that commit to it.

`nodeAt t q` is the node of `t` reached by exactly the bits `q`; a position inside
an edge is the position of no node. `hash H t` folds the tree with a hash of
branches and one of edges, and `commitment` is the hash of a map's tree.
-/

namespace Juno.Lib.Patricia

open BitTree List

variable {α : Type*}

/-! ### Positions of nodes -/

/-- The node at a position, the root being at `[]`. -/
def nodeAt : BitTree α → Path → Option (BitTree α)
  | leaf v, [] => some (leaf v)
  | leaf _, _ :: _ => none
  | binary l r, [] => some (binary l r)
  | binary l r, b :: q => if b then nodeAt r q else nodeAt l q
  | edge p c, [] => some (edge p c)
  | edge p c, b :: q => if p <+: b :: q then nodeAt c ((b :: q).drop p.length) else none

/-- The node at a position of a tree that may be empty. -/
def nodeAt? : Option (BitTree α) → Path → Option (BitTree α)
  | none, _ => none
  | some t, q => nodeAt t q

@[simp] theorem nodeAt?_none (q : Path) : nodeAt? (none : Option (BitTree α)) q = none := rfl

@[simp] theorem nodeAt?_some (t : BitTree α) (q : Path) : nodeAt? (some t) q = nodeAt t q := rfl

@[simp] theorem nodeAt_nil (t : BitTree α) : nodeAt t [] = some t := by cases t <;> rfl

@[simp] theorem nodeAt_leaf_cons (v : α) (b : Bool) (q : Path) : nodeAt (leaf v) (b :: q) = none := rfl

@[simp] theorem nodeAt_binary_cons (l r : BitTree α) (b : Bool) (q : Path) :
    nodeAt (binary l r) (b :: q) = nodeAt (side b l r) q := by
  cases b <;> simp [nodeAt]

variable {p : Path}

theorem nodeAt_edge_append (hp : p ≠ []) (c : BitTree α) (q : Path) :
    nodeAt (edge p c) (p ++ q) = nodeAt c q := by
  cases p with
  | nil => exact absurd rfl hp
  | cons b p => simp [nodeAt]

theorem nodeAt_edge_off {q : Path} (hq : q ≠ []) (h : ¬ p <+: q) (c : BitTree α) :
    nodeAt (edge p c) q = none := by
  cases q with
  | nil => exact absurd rfl hq
  | cons b q => simp [nodeAt, h]

/-- Where the nodes of an edge are: at its start, and below its end. -/
theorem nodeAt_edge_cases (hp : p ≠ []) (c : BitTree α) (q : Path) :
    (q = [] ∧ nodeAt (edge p c) q = some (edge p c)) ∨
      (∃ q', q = p ++ q' ∧ nodeAt (edge p c) q = nodeAt c q') ∨
      (q ≠ [] ∧ ¬ p <+: q ∧ nodeAt (edge p c) q = none) := by
  by_cases hq : q = []
  · subst hq
    exact .inl ⟨rfl, nodeAt_nil _⟩
  · by_cases h : p <+: q
    · obtain ⟨q', rfl⟩ := h
      exact .inr (.inl ⟨q', rfl, nodeAt_edge_append hp c q'⟩)
    · exact .inr (.inr ⟨hq, h, nodeAt_edge_off hq h c⟩)

variable {t : BitTree α}

/-- Below a string that was put in front, the nodes are the old ones; an edge at the start has gone. -/
theorem nodeAt_prepend_append {q : Path} (h : t.isEdge = false ∨ q ≠ []) :
    nodeAt (prepend p t) (p ++ q) = nodeAt t q := by
  cases p with
  | nil => rfl
  | cons b p =>
    cases t with
    | edge r c =>
      obtain ⟨a, q, rfl⟩ := exists_cons_of_ne_nil (h.resolve_left (by simp [isEdge]))
      have hd : (b :: p ++ a :: q).drop (b :: p ++ r).length = (a :: q).drop r.length := by
        rw [length_append, ← drop_drop, drop_left]
      rw [prepend_edge, cons_append, cons_append, nodeAt, nodeAt, ← cons_append, ← cons_append,
        hd]
      simp only [prefix_append_right_inj]
    | leaf | binary => rw [prepend_of_not_edge (by simp) rfl, nodeAt_edge_append (by simp)]

section

variable [Zero α] {k : Path}

/-- **At the end of a key there is a leaf with its value**, or no node when nothing is stored. -/
theorem nodeAt_key [DecidableEq α] (h : Along t k) :
    nodeAt t k = if get t k = 0 then none else some (leaf (get t k)) := by
  induction h with
  | leaf hv => simp [get, hv]
  | binary _ _ ih => simpa using ih
  | through hp _ _ _ ih => rw [nodeAt_edge_append hp, get_edge_append, ih]
  | leaves => rw [nodeAt_edge_off (by simp) (by simp), get_edge_off _ (by simp), if_pos rfl]

theorem nodeAt?_key [DecidableEq α] {t : Option (BitTree α)} {n : ℕ} (h : Canonical? t n)
    (hk : k.length = n) : nodeAt? t k = if get? t k = 0 then none else some (leaf (get? t k)) := by
  cases t with
  | none => simp
  | some t => exact nodeAt_key (Canonical.along h hk)

theorem nodeAt_canonical :
    ∀ {n : ℕ} {q : Path} {u : BitTree α}, Canonical t n → nodeAt t q = some u →
    ∃ m, n = q.length + m ∧ Canonical u m := by
  induction t with
  | leaf v =>
    rintro n q u h hu
    cases q with
    | nil => obtain rfl : leaf v = u := by simpa using hu
             exact ⟨n, by simp, h⟩
    | cons b q => simp at hu
  | binary l r ihl ihr =>
    rintro n q u h hu
    cases q with
    | nil => obtain rfl : binary l r = u := by simpa using hu
             exact ⟨n, by simp, h⟩
    | cons b q =>
      obtain ⟨m, rfl, hl, hr⟩ := h
      rw [nodeAt_binary_cons] at hu
      cases b
      · obtain ⟨m', rfl, hm'⟩ := ihl hl hu
        exact ⟨m', by simp; omega, hm'⟩
      · obtain ⟨m', rfl, hm'⟩ := ihr hr hu
        exact ⟨m', by simp; omega, hm'⟩
  | edge p c ih =>
    rintro n q u h hu
    have hp := h.1
    rcases nodeAt_edge_cases hp c q with ⟨rfl, hq⟩ | ⟨q', rfl, hq⟩ | ⟨-, -, hq⟩
    · rw [hq, Option.some.injEq] at hu
      subst hu
      exact ⟨n, by simp, h⟩
    · obtain ⟨-, -, m, rfl, hm⟩ := h
      rw [hq] at hu
      obtain ⟨m', rfl, hm'⟩ := ih hm hu
      exact ⟨m', by simp; omega, hm'⟩
    · rw [hq] at hu
      cases hu

end

/-! ### Hashes -/

structure Hasher (α : Type*) where
  /-- The hash of a branch, from those of its two subtrees. -/
  binary : α → α → α
  /-- The hash of an edge, from that of its subtree and its path. -/
  edge : α → Path → α

/-- The hash of a tree; a leaf is its own hash. -/
def hash (H : Hasher α) : BitTree α → α
  | leaf v => v
  | binary l r => H.binary (hash H l) (hash H r)
  | edge p c => H.edge (hash H c) p

variable (H : Hasher α)

def hash? [Zero α] : Option (BitTree α) → α
  | none => 0
  | some t => hash H t

/-- **The commitment of a map** on keys of length `n`: the hash of its canonical tree. -/
def commitment [Zero α] [DecidableEq α] (n : ℕ) (f : Path → α) : α := hash? H (canon n f)

/-- A branch or an edge, with the hashes of what is below it. -/
inductive HashedNode (α : Type*) where
  | binary (left right : α)
  | edge (child : α) (path : Path)
  deriving DecidableEq, Repr

def HashedNode.hash : HashedNode α → α
  | binary left right => H.binary left right
  | edge child path => H.edge child path

def CollisionFree (H : Hasher α) (S : Set (HashedNode α)) : BitTree α → Prop
  | leaf _ => True
  | binary l r =>
    (∀ n ∈ S, n.hash H = Patricia.hash H (binary l r) → n = .binary (Patricia.hash H l) (Patricia.hash H r)) ∧
      CollisionFree H S l ∧ CollisionFree H S r
  | edge p c =>
    (∀ n ∈ S, n.hash H = Patricia.hash H (edge p c) → n = .edge (Patricia.hash H c) p) ∧ CollisionFree H S c

end Juno.Lib.Patricia
