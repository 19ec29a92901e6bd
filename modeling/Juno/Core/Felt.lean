import Juno.Lib.PatriciaNodes
import Mathlib.Data.Fin.Basic
import Mathlib.Data.Nat.Bitwise

/-!
# Field elements and paths

A `felt.Felt` is an element of the Stark field, here a residue below its prime
`P`; of the field only `0`, `+` and the embedding of numbers are used. A
`trieutils.Path` (a `BitArray`) is a bit string with the most significant bit
first: `FeltToPath` keeps the low `height` bits of a felt, and `BitArray.Felt`
reads a path back as a number. Both trie packages have their own `BitArray`, with
the same meaning.
-/

namespace Juno

open Lib Lib.Patricia

/-- The prime of the Stark field. -/
def P : ℕ := 2 ^ 251 + 17 * 2 ^ 192 + 1

instance : NeZero P := ⟨by decide⟩

abbrev Felt := Fin P

instance : Zero Felt := ⟨0⟩

instance : LawfulBEq Felt := inferInstance

/-- `crypto.HashFn`. -/
abbrev HashFn := Felt → Felt → Felt

variable {h : ℕ} {p : Path} {k : Felt}

/-- The low `h` bits of a number, most significant bit first. -/
def natToPath : ℕ → ℕ → Path
  | 0, _ => []
  | h + 1, n => n.testBit h :: natToPath h n

/-- The number a bit string spells. -/
def pathToNat : Path → ℕ
  | [] => 0
  | b :: p => (if b then 2 ^ p.length else 0) + pathToNat p

/-- `trieutils.FeltToPath`: the low `height` bits of a felt. -/
def feltToPath (height : ℕ) (f : Felt) : Path := natToPath height f.val

/-- `BitArray.Felt`. -/
def pathFelt (p : Path) : Felt := Fin.ofNat P (pathToNat p)

/-- `BitArray.EqualMSBs`: the bits agree as far as both go. -/
def equalMSBs (p q : Path) : Bool := p.take (min p.length q.length) == q.take (min p.length q.length)

/-- `BitArray.Bit`, most significant bit first; out of bounds it is `0`. -/
def bit (p : Path) (n : ℕ) : Bool := p.getD n false

@[simp] theorem length_natToPath (h n : ℕ) : (natToPath h n).length = h := by
  induction h with
  | zero => rfl
  | succ h ih => simp [natToPath, ih]

@[simp] theorem length_feltToPath (h : ℕ) (f : Felt) : (feltToPath h f).length = h := length_natToPath h f.val

theorem pathToNat_lt (p : Path) : pathToNat p < 2 ^ p.length := by
  induction p with
  | nil => simp [pathToNat]
  | cons b p ih =>
    simp only [pathToNat, List.length_cons, pow_succ]
    split <;> omega

theorem pathToNat_natToPath (h n : ℕ) : pathToNat (natToPath h n) = n % 2 ^ h := by
  induction h with
  | zero => simp [natToPath, pathToNat, Nat.mod_one]
  | succ h ih =>
    rw [natToPath, pathToNat, length_natToPath, ih, Nat.mod_pow_succ, Nat.testBit_eq_decide_div_mod_eq]
    rcases Nat.mod_two_eq_zero_or_one (n / 2 ^ h) with h0 | h1
    · simp [h0]
    · simp [h1, Nat.add_comm]

theorem pathToNat_inj {q : Path} (hlen : p.length = q.length) (h : pathToNat p = pathToNat q) : p = q := by
  induction p generalizing q with
  | nil => exact (List.length_eq_zero_iff.mp hlen.symm).symm
  | cons a p ih =>
    obtain ⟨b, q, rfl⟩ := List.exists_cons_of_length_eq_add_one hlen.symm
    simp only [List.length_cons, Nat.add_right_cancel_iff] at hlen
    have hp := pathToNat_lt p
    have hq := pathToNat_lt q
    rw [pathToNat, pathToNat, hlen] at h
    rw [hlen] at hp
    obtain rfl : a = b := by
      cases a <;> cases b <;> simp only [Bool.false_eq_true, if_false, if_true, reduceCtorEq] at h ⊢ <;> omega
    rw [ih hlen (Nat.add_left_cancel h)]

theorem two_pow_le_P (hh : h ≤ 251) : 2 ^ h < P :=
  lt_of_le_of_lt (Nat.pow_le_pow_right (by decide) hh) (by decide)

theorem pathFelt_val (hp : p.length ≤ 251) : (pathFelt p).val = pathToNat p := by
  rw [pathFelt, Fin.val_ofNat]
  exact Nat.mod_eq_of_lt ((pathToNat_lt p).trans (two_pow_le_P hp))

theorem pathFelt_lt (hh : h ≤ 251) (hp : p.length = h) : (pathFelt p).val < 2 ^ h := by
  rw [pathFelt_val (by omega), ← hp]
  exact pathToNat_lt p

theorem feltToPath_pathFelt (hh : h ≤ 251) (hp : p.length = h) : feltToPath h (pathFelt p) = p := by
  refine pathToNat_inj (by simp [hp]) ?_
  rw [feltToPath, pathToNat_natToPath, pathFelt_val (by omega), Nat.mod_eq_of_lt]
  exact hp ▸ pathToNat_lt p

theorem pathFelt_feltToPath (hh : h ≤ 251) (hk : k.val < 2 ^ h) : pathFelt (feltToPath h k) = k := by
  refine Fin.ext ?_
  rw [pathFelt_val (by simpa using hh), feltToPath, pathToNat_natToPath, Nat.mod_eq_of_lt hk]

theorem equalMSBs_append (p k : Path) : equalMSBs p (p ++ k) = true := by
  simp [equalMSBs]

theorem equalMSBs_split (m p k : Path) (b : Bool) : equalMSBs (m ++ b :: p) (m ++ (!b) :: k) = false := by
  rw [equalMSBs, beq_eq_false_iff_ne]
  intro h
  have hget := congrArg (fun l => l[m.length]?) h
  simp at hget

/-- A map on felts, read at the paths of a trie. -/
def onPaths (m : Felt → Felt) (p : Path) : Felt := m (pathFelt p)

theorem onPaths_feltToPath (hh : h ≤ 251) (m : Felt → Felt) (hk : k.val < 2 ^ h) :
    onPaths m (feltToPath h k) = m k := by
  rw [onPaths, pathFelt_feltToPath hh hk]

theorem onPaths_update (hh : h ≤ 251) (m : Felt → Felt) (hk : k.val < 2 ^ h) (v : Felt) (hp : p.length = h) :
    onPaths (Function.update m k v) p = if p = feltToPath h k then v else onPaths m p := by
  have : pathFelt p = k ↔ p = feltToPath h k := by
    constructor
    · rintro rfl
      exact (feltToPath_pathFelt hh hp).symm
    · rintro rfl
      exact pathFelt_feltToPath hh hk
  simp only [onPaths, Function.update_apply, this]

end Juno
