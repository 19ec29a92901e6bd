import Mathlib

/-!
# Bit sets

Sets of bits stored in words of 64 bits, with the operations a program uses: a set has a
length, and the words needed for it. Setting a bit beyond the length makes the set longer.

* `test_set`, `test_clear`, `test_setAll` — what an operation does to every bit.
* `test_inPlaceUnion`, `test_inPlaceIntersection` — for sets of the same length.
* `mem_setBits` — the list of set bits.
-/

namespace Juno.Lib

open List

abbrev Word := BitVec 64

/-- The number of words for a number of bits. -/
def wordsNeeded (bits : ℕ) : ℕ := (bits + 63) / 64

/-- `bitset.BitSet`. -/
@[ext] structure BitSet where
  length : ℕ
  /-- `set`. -/
  words : List Word
  words_length : words.length = wordsNeeded length

namespace BitSet

def new (bits : ℕ) : BitSet := ⟨bits, List.replicate (wordsNeeded bits) 0, List.length_replicate⟩

/-- `FromWithLength`: words with a length; it panics if there are too few of them. -/
def fromWithLength (bits : ℕ) (words : List Word) : Option BitSet :=
  if h : wordsNeeded bits ≤ words.length then
    some ⟨bits, words.take (wordsNeeded bits), by rw [List.length_take, Nat.min_eq_left h]⟩
  else none

variable (b : BitSet) (i : ℕ)

def test : Bool := decide (i < b.length) && (b.words.getD (i / 64) 0).getLsbD (i % 64)

/-- `extendSet`: room for the bit `i`. -/
def extendSet : BitSet where
  length := i + 1
  words := (b.words ++ List.replicate (wordsNeeded (i + 1)) 0).take (wordsNeeded (i + 1))
  words_length := by
    rw [List.length_take, List.length_append, List.length_replicate]
    omega

def modifyWord (j : ℕ) (f : Word → Word) : BitSet where
  length := b.length
  words := b.words.modify j f
  words_length := by rw [List.length_modify, b.words_length]

def set : BitSet :=
  (if b.length ≤ i then b.extendSet i else b).modifyWord (i / 64) (· ||| 1#64 <<< (i % 64))

def clear : BitSet :=
  if b.length ≤ i then b else b.modifyWord (i / 64) (· &&& ~~~(1#64 <<< (i % 64)))

def clearAll : BitSet := new b.length

/-- The bits of the word `j` that are below the length: `cleanLastWord`. -/
def wordMask (length j : ℕ) : Word :=
  if 64 * (j + 1) ≤ length then BitVec.allOnes 64 else (1#64 <<< (length % 64)) - 1#64

def setAll : BitSet where
  length := b.length
  words := (List.range (wordsNeeded b.length)).map (wordMask b.length)
  words_length := by rw [List.length_map, List.length_range]

def combine (f : Word → Word → Word) (a b : BitSet) : BitSet where
  length := max a.length b.length
  words :=
    (List.range (wordsNeeded (max a.length b.length))).map fun j => f (a.words.getD j 0) (b.words.getD j 0)
  words_length := by rw [List.length_map, List.length_range]

def inPlaceUnion (a b : BitSet) : BitSet := combine (· ||| ·) a b

def inPlaceIntersection (a b : BitSet) : BitSet := combine (· &&& ·) a b

def isNone : Bool := b.words.all (· == 0)

/-- The set bits in order, as `NextSetMany` lists them. -/
def setBits : List ℕ := (List.range b.length).filter b.test

/-! ### Lemmas -/

variable {i j : ℕ} {a b : BitSet}

@[simp] theorem length_new (n : ℕ) : (new n).length = n := rfl

@[simp] theorem length_setAll (b : BitSet) : b.setAll.length = b.length := rfl

@[simp] theorem length_modifyWord (b : BitSet) (j : ℕ) (f : Word → Word) :
    (b.modifyWord j f).length = b.length :=
  rfl

@[simp] theorem length_clear (b : BitSet) (i : ℕ) : (b.clear i).length = b.length := by
  rw [clear]
  split_ifs
  · rfl
  · rfl

theorem length_set (h : i < b.length) : (b.set i).length = b.length := by
  rw [set, if_neg (Nat.not_le.mpr h), length_modifyWord]

@[simp] theorem test_new (n i : ℕ) : (new n).test i = false := by
  rw [test, new]
  simp

@[simp] theorem test_clearAll (b : BitSet) (i : ℕ) : b.clearAll.test i = false := test_new _ _

theorem test_eq (h : i < b.length) : b.test i = (b.words.getD (i / 64) 0).getLsbD (i % 64) := by
  rw [test, decide_eq_true h, Bool.true_and]

theorem word_lt (h : i < b.length) : i / 64 < b.words.length := by
  rw [b.words_length, wordsNeeded]
  omega

theorem test_of_length_le (h : b.length ≤ i) : b.test i = false := by
  rw [test, decide_eq_false (Nat.not_lt.mpr h), Bool.false_and]

theorem getD_modifyWord (f : Word → Word) (h : j < b.words.length) :
    (b.modifyWord i f).words.getD j 0 = if i = j then f (b.words.getD j 0) else b.words.getD j 0 := by
  rw [modifyWord, getD_eq_getElem?_getD, getD_eq_getElem?_getD, getElem?_modify]
  split_ifs with hij
  · rw [getElem?_eq_getElem h, Option.map_eq_map, Option.map_some, Option.getD_some, Option.getD_some]
  · rw [Option.map_eq_map, Option.map_id']

theorem getLsbD_one_shiftLeft (hj : j < 64) : (1#64 <<< i).getLsbD j = decide (j = i) := by
  rw [BitVec.getLsbD_shiftLeft, decide_eq_true hj, Bool.true_and, BitVec.getLsbD_one]
  by_cases hji : j < i
  · have hne : j ≠ i := by omega
    simp [hji, hne]
  · by_cases heq : j = i
    · simp [heq]
    · have hsub : ¬ j - i = 0 := by omega
      simp [hji, heq, hsub]

theorem test_modifyWord {f : Word → Word} {v : Bool} (hi : i < b.length)
    (hf : ∀ (w : Word) k, k < 64 → (f w).getLsbD k = if k = i % 64 then v else w.getLsbD k) (j : ℕ) :
    (b.modifyWord (i / 64) f).test j = if j = i then v else b.test j := by
  by_cases hj : j < b.length
  · have hlen : j < (b.modifyWord (i / 64) f).length := hj
    rw [test_eq hlen, test_eq hj, getD_modifyWord _ (word_lt hj)]
    split_ifs with hword heq heq
    · rw [hf _ _ (Nat.mod_lt _ (by decide)), if_pos (by rw [heq])]
    · rw [hf _ _ (Nat.mod_lt _ (by decide)), if_neg (by omega)]
    · exact absurd (congrArg (· / 64) heq.symm) hword
    · rfl
  · have hlen : (b.modifyWord (i / 64) f).length ≤ j := Nat.not_lt.mp hj
    rw [if_neg (by omega), test_of_length_le hlen, test_of_length_le (Nat.not_lt.mp hj)]

theorem test_set (hi : i < b.length) (j : ℕ) : (b.set i).test j = (decide (j = i) || b.test j) := by
  rw [set, if_neg (Nat.not_le.mpr hi), test_modifyWord (v := true) hi fun w k hk => ?_]
  · by_cases h : j = i <;> simp [h]
  · rw [BitVec.getLsbD_or, getLsbD_one_shiftLeft hk]
    by_cases h : k = i % 64 <;> simp [h]

theorem test_clear (b : BitSet) (i j : ℕ) : (b.clear i).test j = (!decide (j = i) && b.test j) := by
  rw [clear]
  split_ifs with hi
  · by_cases h : j = i
    · rw [h, test_of_length_le hi, Bool.and_false]
    · simp [h]
  · rw [test_modifyWord (v := false) (Nat.not_le.mp hi) fun w k hk => ?_]
    · by_cases h : j = i <;> simp [h]
    · rw [BitVec.getLsbD_and, BitVec.getLsbD_not, getLsbD_one_shiftLeft hk]
      by_cases h : k = i % 64 <;> simp [h, hk]

theorem getLsbD_wordMask {length : ℕ} (h : i < length) :
    (wordMask length (i / 64)).getLsbD (i % 64) = true := by
  rw [wordMask]
  split_ifs with hfull
  · rw [BitVec.getLsbD_allOnes, decide_eq_true (Nat.mod_lt _ (by decide))]
  · have hlt : i % 64 < length % 64 := by omega
    have hmask : ((1#64 <<< (length % 64)) - 1#64).toNat = 2 ^ (length % 64) - 1 := by
      have hpow : 2 ^ (length % 64) < 2 ^ 64 := Nat.pow_lt_pow_right (by decide) (Nat.mod_lt _ (by decide))
      have hpos : 0 < 2 ^ (length % 64) := Nat.two_pow_pos _
      rw [BitVec.toNat_sub, BitVec.toNat_shiftLeft, BitVec.toNat_ofNat, Nat.shiftLeft_eq]
      omega
    rw [BitVec.getLsbD, hmask, Nat.testBit_two_pow_sub_one, decide_eq_true hlt]

theorem test_setAll (h : i < b.length) : b.setAll.test i = true := by
  have hlen : i < b.setAll.length := h
  have hword : i / 64 < wordsNeeded b.length := by
    rw [wordsNeeded]
    omega
  rw [test_eq hlen, setAll, getD_eq_getElem?_getD, getElem?_map, getElem?_range hword, Option.map_some,
    Option.getD_some, getLsbD_wordMask h]

theorem test_combine {f : Word → Word → Word} {g : Bool → Bool → Bool}
    (hf : ∀ x y i, i < 64 → (f x y).getLsbD i = g (x.getLsbD i) (y.getLsbD i)) (ha : i < a.length)
    (hb : i < b.length) : (combine f a b).test i = g (a.test i) (b.test i) := by
  have hlen : i < (combine f a b).length := lt_max_of_lt_left ha
  have hword : i / 64 < wordsNeeded (max a.length b.length) := (combine f a b).words_length ▸ word_lt hlen
  rw [test_eq hlen, test_eq ha, test_eq hb, combine, getD_eq_getElem?_getD, getElem?_map,
    getElem?_range hword, Option.map_some, Option.getD_some, hf _ _ _ (Nat.mod_lt _ (by decide))]

theorem test_inPlaceUnion (ha : i < a.length) (hb : i < b.length) :
    (a.inPlaceUnion b).test i = (a.test i || b.test i) :=
  test_combine (g := or) (fun _ _ _ _ => BitVec.getLsbD_or) ha hb

theorem test_inPlaceIntersection (ha : i < a.length) (hb : i < b.length) :
    (a.inPlaceIntersection b).test i = (a.test i && b.test i) :=
  test_combine (g := and) (fun _ _ _ _ => BitVec.getLsbD_and) ha hb

theorem length_inPlaceUnion (a b : BitSet) : (a.inPlaceUnion b).length = max a.length b.length := rfl

theorem length_inPlaceIntersection (a b : BitSet) :
    (a.inPlaceIntersection b).length = max a.length b.length :=
  rfl

theorem fromWithLength_eq {bits : ℕ} {words : List Word} (h : words.length = wordsNeeded bits) :
    fromWithLength bits words = some ⟨bits, words, h⟩ := by
  rw [fromWithLength, dif_pos h.ge]
  simp only [← h, take_length]

theorem mem_setBits : i ∈ b.setBits ↔ b.test i = true := by
  rw [setBits, mem_filter, mem_range]
  refine ⟨And.right, fun h => ⟨?_, h⟩⟩
  by_contra hlen
  rw [test_of_length_le (Nat.not_lt.mp hlen)] at h
  exact Bool.false_ne_true h

theorem eq_of_test (hlen : a.length = b.length) (hwhole : a.length % 64 = 0)
    (h : ∀ i < a.length, a.test i = b.test i) : a = b := by
  refine BitSet.ext hlen (ext_getElem (by rw [a.words_length, b.words_length, hlen]) fun j hj hj' => ?_)
  refine BitVec.eq_of_getLsbD_eq fun k hk => ?_
  have hneeded := a.words_length
  rw [wordsNeeded] at hneeded
  have hi : j * 64 + k < a.length := by omega
  have hdiv : (j * 64 + k) / 64 = j := by omega
  have hmod : (j * 64 + k) % 64 = k := by omega
  have hbit := h (j * 64 + k) hi
  rwa [test_eq hi, test_eq (hlen ▸ hi), hdiv, hmod, getD_eq_getElem?_getD, getD_eq_getElem?_getD,
    getElem?_eq_getElem hj, getElem?_eq_getElem hj', Option.getD_some, Option.getD_some] at hbit

theorem isNone_of_test (h : b.test i = true) : b.isNone = false := by
  have hlen : i < b.length := by
    by_contra hlen
    rw [test_of_length_le (Nat.not_lt.mp hlen)] at h
    exact Bool.false_ne_true h
  rw [test_eq hlen, getD_eq_getElem?_getD, getElem?_eq_getElem (word_lt hlen), Option.getD_some] at h
  rw [isNone, all_eq_false]
  refine ⟨_, getElem_mem (word_lt hlen), fun hzero => ?_⟩
  rw [beq_iff_eq] at hzero
  rw [hzero] at h
  simp at h

end BitSet

end Juno.Lib
