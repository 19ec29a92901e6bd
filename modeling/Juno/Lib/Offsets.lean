import Mathlib.Data.List.Basic

/-!
# Blocks behind an index of offsets

Blocks written one after another, and the list of the positions at which they start. A block
is read back without looking at the others: it begins at its own offset and ends at the next
one, or where the data ends (`drop_take_offsets`).
-/

namespace Juno.Lib

universe u

variable {α : Type u}

/-- Where each block starts when the blocks are written one after another from position `n`. -/
def offsets : ℕ → List (List α) → List ℕ
  | _, [] => []
  | n, b :: bs => n :: offsets (n + b.length) bs

@[simp] theorem length_offsets (n : ℕ) (bs : List (List α)) : (offsets n bs).length = bs.length := by
  induction bs generalizing n with
  | nil => rfl
  | cons b bs ih => rw [offsets, List.length_cons, List.length_cons, ih]

theorem offsets_append (n : ℕ) (bs cs : List (List α)) :
    offsets n (bs ++ cs) = offsets n bs ++ offsets (n + bs.flatten.length) cs := by
  induction bs generalizing n with
  | nil => rfl
  | cons b bs ih => simp [offsets, ih, Nat.add_assoc]

section

variable (before : List α) (bs : List (List α)) (b : List α) (cs : List (List α))

theorem offsets_start :
    (offsets before.length (bs ++ b :: cs))[bs.length]? = some (before.length + bs.flatten.length) := by
  rw [offsets_append, List.getElem?_append_right (by simp)]
  simp [offsets]

/-- A block ends at the next offset, or with the data. -/
theorem offsets_stop :
    (offsets before.length (bs ++ b :: cs)).getD (bs.length + 1) (before ++ (bs ++ b :: cs).flatten).length =
      before.length + bs.flatten.length + b.length := by
  rw [offsets_append, List.getD_eq_getElem?_getD, List.getElem?_append_right (by simp)]
  cases cs with
  | nil => simp [offsets, Nat.add_assoc]
  | cons c cs => simp [offsets]

/-- Between its two offsets there is the block and nothing else. -/
theorem drop_take_offsets :
    ((before ++ (bs ++ b :: cs).flatten).take (before.length + bs.flatten.length + b.length)).drop
      (before.length + bs.flatten.length) = b := by
  have hdata : before ++ (bs ++ b :: cs).flatten = (before ++ bs.flatten) ++ (b ++ cs.flatten) := by simp
  rw [hdata, ← List.length_append, List.take_length_add_append, List.drop_left, List.take_left]

end

end Juno.Lib
