import Mathlib

/-!
# Unsigned varints

The encoding of `encoding/binary`: seven bits to a byte, the low ones first, with the high bit
set on every byte but the last. A 64-bit number takes at most ten bytes, and `read` refuses longer
ones.

* `read_put` — **what was put is read back**, whatever follows.
-/

namespace Juno.Lib.Uvarint

/-- `PutUvarint`; `fuel` bounds the number of bytes. -/
def putLoop : ℕ → ℕ → List UInt8
  | 0, _ => []
  | fuel + 1, x => if x < 128 then [UInt8.ofNat x] else UInt8.ofNat (x % 128 + 128) :: putLoop fuel (x / 128)

/-- The longest encoding: `MaxVarintLen64`. -/
def maxLen : ℕ := 10

/-- `PutUvarint`. -/
def put (x : ℕ) : List UInt8 := putLoop maxLen x

/-- The loop of `Uvarint` at the byte `i`, with the value `x` so far. -/
def readLoop : ℕ → ℕ → List UInt8 → Option (ℕ × ℕ)
  | _, _, [] => none
  | i, x, b :: bs =>
    if i = maxLen then none
    else if b.toNat < 128 then
      if i = maxLen - 1 ∧ 1 < b.toNat then none else some (x + b.toNat * 2 ^ (7 * i), i + 1)
    else readLoop (i + 1) (x + (b.toNat - 128) * 2 ^ (7 * i)) bs

/-- `Uvarint`: the value and the number of bytes it takes. -/
def read (bytes : List UInt8) : Option (ℕ × ℕ) := readLoop 0 0 bytes

theorem toNat_ofNat_lt {n : ℕ} (h : n < 256) : (UInt8.ofNat n).toNat = n := by
  rw [UInt8.toNat_ofNat']
  exact Nat.mod_eq_of_lt h

theorem readLoop_putLoop (fuel i x n : ℕ) (rest : List UInt8) (hi : i + fuel = maxLen)
    (hn : n < 2 ^ (64 - 7 * i)) (hfuel : 0 < fuel) :
    readLoop i x (putLoop fuel n ++ rest) = some (x + n * 2 ^ (7 * i), i + (putLoop fuel n).length) := by
  induction fuel generalizing i x n with
  | zero => exact absurd hfuel (Nat.lt_irrefl 0)
  | succ fuel ih =>
    rw [maxLen] at hi
    have hne : i ≠ maxLen := by
      rw [maxLen]
      omega
    rw [putLoop]
    split_ifs with hsmall
    · have hlast : ¬(i = maxLen - 1 ∧ 1 < n) := by
        rintro ⟨rfl, hlt⟩
        rw [maxLen] at hn
        omega
      rw [List.singleton_append, readLoop, toNat_ofNat_lt (by omega), if_neg hne, if_pos hsmall, if_neg hlast,
        List.length_singleton]
    · have hbyte : (UInt8.ofNat (n % 128 + 128)).toNat = n % 128 + 128 := toNat_ofNat_lt (by omega)
      have hcont : ¬(n % 128 + 128 < 128) := by omega
      have hfuel' : 0 < fuel := by
        rcases Nat.eq_zero_or_pos fuel with rfl | hpos
        · have hnine : i = 9 := by omega
          subst hnine
          omega
        · exact hpos
      have hpow : 2 ^ (64 - 7 * i) = 2 ^ (64 - 7 * (i + 1)) * 128 := by
        have hexp : 64 - 7 * i = 64 - 7 * (i + 1) + 7 := by omega
        rw [hexp, pow_add]
        norm_num
      have hn' : n / 128 < 2 ^ (64 - 7 * (i + 1)) := by
        rw [Nat.div_lt_iff_lt_mul (by decide), ← hpow]
        exact hn
      rw [List.cons_append, readLoop, hbyte, if_neg hne, if_neg hcont,
        ih (i + 1) _ _ (by rw [maxLen]; omega) hn' hfuel',
        Nat.add_sub_cancel, List.length_cons]
      have hvalue : x + n % 128 * 2 ^ (7 * i) + n / 128 * 2 ^ (7 * (i + 1)) = x + n * 2 ^ (7 * i) := by
        have hsplit : n % 128 + 128 * (n / 128) = n := Nat.mod_add_div n 128
        have hexp : 7 * (i + 1) = 7 * i + 7 := by ring
        rw [hexp, pow_add]
        calc x + n % 128 * 2 ^ (7 * i) + n / 128 * (2 ^ (7 * i) * 2 ^ 7)
            = x + (n % 128 + 128 * (n / 128)) * 2 ^ (7 * i) := by ring
          _ = x + n * 2 ^ (7 * i) := by rw [hsplit]
      rw [hvalue, Nat.add_assoc, Nat.add_comm 1]

theorem read_put {n : ℕ} (h : n < 2 ^ 64) (rest : List UInt8) :
    read (put n ++ rest) = some (n, (put n).length) := by
  rw [read, put, readLoop_putLoop maxLen 0 0 n rest (Nat.zero_add _) h (by decide)]
  simp only [Nat.zero_add, Nat.mul_zero, pow_zero, Nat.mul_one]

end Juno.Lib.Uvarint
