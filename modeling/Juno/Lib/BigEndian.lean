import Mathlib

/-!
# Big-endian numbers and fixed-size records

The encoding of `encoding/binary` for numbers of a fixed number of bytes, most significant byte
first, and the layout of a list of records that all take the same number of bytes.

* `read_put` — **what was put is read back**, modulo the width.
* `drop_flatMap` — the records of a list with fixed size lie at the multiples of the size.
-/

namespace Juno.Lib.BigEndian

open List

/-- `PutUint` with `k` bytes. -/
def put : ℕ → ℕ → List UInt8
  | 0, _ => []
  | k + 1, n => UInt8.ofNat (n / 256 ^ k) :: put k n

/-- `Uint`: the number that some bytes spell. -/
def read : List UInt8 → ℕ
  | [] => 0
  | b :: bs => b.toNat * 256 ^ bs.length + read bs

@[simp] theorem length_put (k n : ℕ) : (put k n).length = k := by
  induction k with
  | zero => rfl
  | succ k ih => rw [put, length_cons, ih]

theorem read_put (k n : ℕ) : read (put k n) = n % 256 ^ k := by
  induction k with
  | zero => rw [put, read, pow_zero, Nat.mod_one]
  | succ k ih =>
    have hbyte : (UInt8.ofNat (n / 256 ^ k)).toNat = n / 256 ^ k % 256 := UInt8.toNat_ofNat'
    rw [put, read, length_put, ih, hbyte, @Nat.mod_pow_succ n 256 k, Nat.add_comm, Nat.mul_comm]

theorem read_lt (bytes : List UInt8) : read bytes < 256 ^ bytes.length := by
  induction bytes with
  | nil => decide
  | cons b bs ih =>
    have hb : b.toNat < 256 := b.toNat_lt
    rw [read, length_cons, pow_succ]
    nlinarith

theorem read_put_of_lt {k n : ℕ} (h : n < 256 ^ k) : read (put k n) = n := by
  rw [read_put, Nat.mod_eq_of_lt h]

/-! ### Records -/

variable {α β : Type} {enc : α → List β} {l : List α} {size : ℕ}

theorem length_flatMap_of_size (hsize : ∀ a ∈ l, (enc a).length = size) :
    (l.flatMap enc).length = l.length * size := by
  induction l with
  | nil => simp
  | cons a l ih =>
    rw [flatMap_cons, length_append, hsize a (by simp), ih fun b hb => hsize b (by simp [hb]), length_cons]
    ring

/-- The record with a given index, and what follows it. -/
theorem drop_flatMap (hsize : ∀ a ∈ l, (enc a).length = size) {i : ℕ} {a : α} (ha : l[i]? = some a) :
    (l.flatMap enc).drop (i * size) = enc a ++ (l.drop (i + 1)).flatMap enc := by
  induction l generalizing i with
  | nil => simp at ha
  | cons b l ih =>
    have hb : (enc b).length = size := hsize b (by simp)
    cases i with
    | zero =>
      rw [getElem?_cons_zero, Option.some.injEq] at ha
      subst ha
      rw [Nat.zero_mul, drop_zero, flatMap_cons]
      rfl
    | succ i =>
      rw [getElem?_cons_succ] at ha
      have hstart : (i + 1) * size = (enc b).length + i * size := by
        rw [hb]
        ring
      rw [flatMap_cons, hstart, drop_append, drop_of_length_le (Nat.le_add_right _ _), nil_append,
        Nat.add_sub_cancel_left, ih (fun c hc => hsize c (by simp [hc])) ha, drop_succ_cons]

end Juno.Lib.BigEndian
