import Juno.Core.DiffHash
import Juno.Lib.BigEndian

/-!
# Streaming hashes

`core/crypto`: a digest takes field elements one by one or by the array, and its `Finish` is
the hash of all of them. The Poseidon digest keeps every other element back until the next one
comes; the Blake2s digest writes the encoding of each element to a `hash.Hash`.

## The model

* `poseidonArray`, `pedersenArray`, `blake2sArray` — the hashes of an array. The rounds of the Hades
  permutation (`hadesPermutationRounds`), the Pedersen hash of two elements and the Blake2s function are
  parameters.

The main result is `digests_stream`.
-/

namespace Juno.Crypto

open Lib List BigEndian

/-! ### Digests -/

inductive DigestCall where
  | update (elem : Felt)
  | updateArray (elems : List Felt)

def elemsOf (calls : List DigestCall) : List Felt :=
  calls.flatMap fun
    | .update elem => [elem]
    | .updateArray elems => elems

/-- A call, for a digest with the given `update`; `updateArray` is the same loop in all of them. -/
def DigestCall.apply {δ : Type} (update : δ → Felt → δ) (d : δ) : DigestCall → δ
  | .update elem => update d elem
  | .updateArray elems => elems.foldl update d

/-- How the elements are split into calls does not matter. -/
theorem foldl_apply {δ : Type} (update : δ → Felt → δ) (d : δ) (calls : List DigestCall) :
    calls.foldl (DigestCall.apply update) d = (elemsOf calls).foldl update d := by
  induction calls generalizing d with
  | nil => rfl
  | cons c calls ih =>
    rw [foldl_cons, ih, elemsOf, elemsOf, flatMap_cons, foldl_append]
    cases c with
    | update elem => rfl
    | updateArray elems => rfl

/-! ### Poseidon -/

abbrev State := Felt × Felt × Felt

def State.add (state : State) (x y : Felt) : State := (state.1 + x, state.2.1 + y, state.2.2)

def emptyDataInput : State := (0, 1, 0)

section

variable (rounds : State → State)

def hadesPermutation (state : State) : State :=
  if state = emptyDataInput then rounds emptyDataInput else rounds state

variable (elems : List Felt)

/-- The loop of `poseidonArray` over the pairs of elements. -/
def poseidonPairs (state : State) : State :=
  (List.range (elems.length / 2)).foldl
    (fun state i => hadesPermutation rounds (state.add (elems.getD (2 * i) 0) (elems.getD (2 * i + 1) 0)))
      state

/-- The last element, if it is alone, and the padding. -/
def poseidonPad (state : State) : State :=
  let rem := elems.length % 2
  let state := if rem = 1 then (state.1 + elems.getD (elems.length - 1) 0, state.2) else state
  if rem = 0 then (state.1 + 1, state.2) else (state.1, state.2.1 + 1, state.2.2)

def poseidonArray : Felt :=
  (hadesPermutation rounds (poseidonPad elems (poseidonPairs rounds elems (0, 0, 0)))).1

structure PoseidonDigest where
  state : State
  lastElem : Felt
  hasLast : Bool

namespace PoseidonDigest

def zero : PoseidonDigest := ⟨(0, 0, 0), 0, false⟩

def update (d : PoseidonDigest) (elem : Felt) : PoseidonDigest :=
  if !d.hasLast then { d with lastElem := elem, hasLast := true }
  else { d with state := hadesPermutation rounds (d.state.add d.lastElem elem), hasLast := false }

def finish (d : PoseidonDigest) : Felt :=
  let state := if !d.hasLast then (d.state.1 + 1, d.state.2) else d.state.add d.lastElem 1
  (hadesPermutation rounds state).1

end PoseidonDigest

/-- The blocks that are absorbed: the elements in pairs, with `1` or `1, 0` at the end. -/
def padded : List Felt → List (Felt × Felt)
  | [] => [(1, 0)]
  | [x] => [(x, 1)]
  | x :: y :: elems => (x, y) :: padded elems

def absorb (blocks : List (Felt × Felt)) (state : State) : State :=
  blocks.foldl (fun state b => hadesPermutation rounds (state.add b.1 b.2)) state

theorem poseidonPairs_cons (x y : Felt) (elems : List Felt) (state : State) :
    poseidonPairs rounds (x :: y :: elems) state =
      poseidonPairs rounds elems (hadesPermutation rounds (state.add x y)) := by
  have hlen : (x :: y :: elems).length / 2 = elems.length / 2 + 1 := by
    rw [length_cons, length_cons]
    omega
  rw [poseidonPairs, hlen, range_succ_eq_map, foldl_cons, foldl_map]
  rfl

theorem poseidonPad_cons (x y : Felt) (elems : List Felt) (state : State) :
    poseidonPad (x :: y :: elems) state = poseidonPad elems state := by
  have hrem : (x :: y :: elems).length % 2 = elems.length % 2 := by
    rw [length_cons, length_cons]
    omega
  rw [poseidonPad, poseidonPad, hrem]
  rcases Nat.mod_two_eq_zero_or_one elems.length with h0 | h1
  · simp only [h0, Nat.zero_ne_one, if_false]
  · obtain ⟨n, hn⟩ := Nat.exists_eq_add_one_of_ne_zero (show elems.length ≠ 0 by omega)
    simp only [length_cons, hn, Nat.add_sub_cancel, getD_cons_succ]

theorem hadesPermutation_pad (elems : List Felt) (state : State) :
    hadesPermutation rounds (poseidonPad elems (poseidonPairs rounds elems state)) =
      absorb rounds (padded elems) state := by
  induction elems using padded.induct generalizing state with
  | case1 | case2 => simp [poseidonPad, poseidonPairs, padded, absorb, State.add]
  | case3 x y elems ih =>
    rw [poseidonPairs_cons, poseidonPad_cons, ih]
    rfl

theorem poseidonArray_eq (elems : List Felt) :
    poseidonArray rounds elems = (absorb rounds (padded elems) (0, 0, 0)).1 := by
  rw [poseidonArray, hadesPermutation_pad]

theorem PoseidonDigest.finish_foldl (elems : List Felt) (state : State) (lastElem : Felt) :
    (elems.foldl (update rounds) ⟨state, lastElem, false⟩).finish rounds =
      (absorb rounds (padded elems) state).1 := by
  induction elems using padded.induct generalizing state lastElem with
  | case1 => simp [finish, padded, absorb, State.add]
  | case2 x => simp [finish, update, padded, absorb]
  | case3 x y elems ih => exact ih (hadesPermutation rounds (state.add x y)) x

end

theorem padded_injective : Function.Injective padded := by
  -- the last block is the only one before the end, so a pair is never the padding
  have hne : ∀ elems, padded elems ≠ [] := fun elems => by
    rcases elems with _ | ⟨x, _ | ⟨y, elems⟩⟩ <;> simp [padded]
  have hP : P ≠ 1 := by decide
  intro elems elems' h
  induction elems using padded.induct generalizing elems' with
  | case1 =>
    rcases elems' with _ | ⟨x', _ | ⟨y', elems'⟩⟩
    · rfl
    · simp [padded, hP] at h
    · simp [padded, (hne elems').symm] at h
  | case2 x =>
    rcases elems' with _ | ⟨x', _ | ⟨y', elems'⟩⟩
    · simp [padded, hP] at h
    · simpa [padded] using h
    · simp [padded, (hne elems').symm] at h
  | case3 x y elems ih =>
    rcases elems' with _ | ⟨x', _ | ⟨y', elems'⟩⟩
    · simp [padded, hne elems] at h
    · simp [padded, hne elems] at h
    · simp only [padded, cons.injEq, Prod.mk.injEq] at h
      rw [h.1.1, h.1.2, ih h.2]

/-! ### Pedersen -/

structure PedersenDigest where
  digest : Felt
  count : ℕ

namespace PedersenDigest

def zero : PedersenDigest := ⟨0, 0⟩

def update (pedersen : HashFn) (d : PedersenDigest) (elem : Felt) : PedersenDigest :=
  ⟨pedersen d.digest elem, (d.count + 1) % 2 ^ 64⟩

def finish (pedersen : HashFn) (d : PedersenDigest) : Felt := pedersen d.digest (feltFromUint64 d.count)

end PedersenDigest

variable (pedersen : HashFn)

def pedersenArray (elems : List Felt) : Felt :=
  (elems.foldl (PedersenDigest.update pedersen) .zero).finish pedersen

theorem PedersenDigest.foldl_update (d : PedersenDigest) (hd : d.count < 2 ^ 64) (elems : List Felt) :
    elems.foldl (update pedersen) d = ⟨elems.foldl pedersen d.digest, (d.count + elems.length) % 2 ^ 64⟩ := by
  induction elems generalizing d with
  | nil => rw [foldl_nil, foldl_nil, length_nil, Nat.add_zero, Nat.mod_eq_of_lt hd]
  | cons elem elems ih =>
    rw [foldl_cons, foldl_cons, ih _ (Nat.mod_lt _ (by decide)), update, length_cons, Nat.mod_add_mod,
      Nat.add_right_comm,
      Nat.add_assoc]

/-- **The Pedersen hash of an array**: the hashes of the elements one after the other, and at last of their
number. -/
theorem pedersenArray_eq (elems : List Felt) :
    pedersenArray pedersen elems = pedersen (elems.foldl pedersen 0)
      (feltFromUint64 (elems.length % 2 ^ 64)) := by
  rw [pedersenArray, PedersenDigest.foldl_update pedersen _ (by decide), PedersenDigest.finish]
  simp [PedersenDigest.zero]

/-! ### Blake2s -/

def putUint32 (n : ℕ) : List UInt8 := (put 4 n).reverse

/-- A limb of `Bits()`. -/
def limb (f : Felt) (i : ℕ) : ℕ := f.val / 2 ^ (64 * i) % 2 ^ 64

/-- The bytes that `encodeFeltInto` writes. -/
def encodeFelt (f : Felt) : List UInt8 :=
  if limb f 3 = 0 ∧ limb f 2 = 0 ∧ limb f 1 = 0 ∧ limb f 0 < 2 ^ 63 then
    putUint32 (limb f 0 / 2 ^ 32) ++ putUint32 (limb f 0)
  else
    putUint32 (limb f 3 / 2 ^ 32 ||| 2 ^ 31) ++ (putUint32 (limb f 3) ++ (putUint32 (limb f 2 / 2 ^ 32) ++
      (putUint32 (limb f 2) ++ (putUint32 (limb f 1 / 2 ^ 32) ++ (putUint32 (limb f 1) ++
        (putUint32 (limb f 0 / 2 ^ 32) ++ putUint32 (limb f 0)))))))

def encodeFelts (felts : List Felt) : List UInt8 := felts.flatMap encodeFelt

/-- The package `blake2s`: a `hash.Hash` returns the hash of all that was written to it. -/
structure Blake2s (σ : Type) where
  sum256 : List UInt8 → List UInt8
  new256 : σ
  write : σ → List UInt8 → σ
  sum : σ → List UInt8
  written : σ → List UInt8
  written_new256 : written new256 = []
  written_write : ∀ s bytes, written (write s bytes) = written s ++ bytes
  sum_eq : ∀ s, sum s = sum256 (written s)

/-- A hash that keeps what was written to it. -/
def Blake2s.buffered (sum256 : List UInt8 → List UInt8) : Blake2s (List UInt8) :=
  ⟨sum256, [], (· ++ ·), sum256, id, rfl, fun _ _ => rfl, fun _ => rfl⟩

section

variable {σ : Type} (b : Blake2s σ)

/-- The hash is read as a little-endian number. -/
def blake2sArray (felts : List Felt) : Felt := feltFromBytes (b.sum256 (encodeFelts felts)).reverse

structure Blake2sDigest (σ : Type) where
  /-- Nil until it is used. -/
  hasher : Option σ

namespace Blake2sDigest

def zero : Blake2sDigest σ := ⟨none⟩

variable (d : Blake2sDigest σ)

def state : σ := d.hasher.getD b.new256

def update (elem : Felt) : Blake2sDigest σ := ⟨some (b.write (d.state b) (encodeFelts [elem]))⟩

def finish : Felt := feltFromBytes (b.sum (d.state b)).reverse

theorem written_foldl (elems : List Felt) (d : Blake2sDigest σ) :
    b.written ((elems.foldl (update b) d).state b) = b.written (d.state b) ++ encodeFelts elems := by
  induction elems generalizing d with
  | nil => exact (append_nil _).symm
  | cons elem elems ih =>
    rw [foldl_cons, ih, update, state, Option.getD_some, b.written_write, append_assoc]
    simp [encodeFelts]

theorem finish_foldl (elems : List Felt) : (elems.foldl (update b) zero).finish b = blake2sArray b elems := by
  rw [finish, b.sum_eq, written_foldl, state, zero, Option.getD_none, b.written_new256,
    nil_append, blake2sArray]

end Blake2sDigest

end

theorem length_putUint32 (n : ℕ) : (putUint32 n).length = 4 := by
  rw [putUint32, length_reverse, length_put]

theorem putUint32_append {m n : ℕ} {s t : List UInt8} (h : putUint32 m ++ s = putUint32 n ++ t) :
    m % 2 ^ 32 = n % 2 ^ 32 ∧ s = t := by
  obtain ⟨hword, hrest⟩ := append_inj h (by rw [length_putUint32, length_putUint32])
  have hread := congrArg read (reverse_injective hword)
  rw [read_put, read_put] at hread
  exact ⟨hread, hrest⟩

theorem limb_or_marker (f : Felt) :
    limb f 3 / 2 ^ 32 ||| 2 ^ 31 = limb f 3 / 2 ^ 32 + 2 ^ 31 ∧ limb f 3 / 2 ^ 32 < 2 ^ 31 := by
  have hlt : limb f 3 / 2 ^ 32 < 2 ^ 31 := by
    have := f.isLt
    simp only [limb, P] at this ⊢
    omega
  have hor := Nat.two_pow_add_eq_or_of_lt hlt 1
  rw [Nat.mul_one] at hor
  rw [Nat.or_comm, ← hor, Nat.add_comm]
  exact ⟨rfl, hlt⟩

theorem felt_ext {f g : Felt} (h : ∀ i < 4, limb f i = limb g i) : f = g := by
  refine Fin.ext ?_
  have hf := f.isLt
  have hg := g.isLt
  have h0 := h 0 (by decide)
  have h1 := h 1 (by decide)
  have h2 := h 2 (by decide)
  have h3 := h 3 (by decide)
  simp only [limb, P] at *
  omega

theorem encodeFelt_selfDelimiting : SelfDelimiting Set.univ encodeFelt := by
  intro f g s t _ _ h
  have hf := limb_or_marker f
  have hg := limb_or_marker g
  have hlt : ∀ f i, limb f i < 2 ^ 64 := fun f i => Nat.mod_lt _ (by decide)
  simp only [encodeFelt, hf.1, hg.1] at h
  split_ifs at h with hsf hsg hsg
  · simp only [append_assoc] at h
    obtain ⟨h1, h⟩ := putUint32_append h
    obtain ⟨h2, h⟩ := putUint32_append h
    refine ⟨felt_ext fun i hi => ?_, h⟩
    have := hlt f 0
    have := hlt g 0
    interval_cases i <;> omega
  · -- the marker tells the two forms apart
    have := (putUint32_append (by simpa only [append_assoc] using h)).1
    have := hlt f 0
    omega
  · have := (putUint32_append (by simpa only [append_assoc] using h)).1
    have := hlt g 0
    omega
  · simp only [append_assoc] at h
    obtain ⟨h7, h⟩ := putUint32_append h
    obtain ⟨h6, h⟩ := putUint32_append h
    obtain ⟨h5, h⟩ := putUint32_append h
    obtain ⟨h4, h⟩ := putUint32_append h
    obtain ⟨h3, h⟩ := putUint32_append h
    obtain ⟨h2, h⟩ := putUint32_append h
    obtain ⟨h1, h⟩ := putUint32_append h
    obtain ⟨h0, h⟩ := putUint32_append h
    refine ⟨felt_ext fun i hi => ?_, h⟩
    have hfi := hlt f i
    have hgi := hlt g i
    interval_cases i <;> omega

theorem encodeFelts_injective : Function.Injective encodeFelts := by
  refine encodeFelt_selfDelimiting.flatMap_injective fun f => ?_
  rw [encodeFelt]
  split_ifs <;> exact ne_nil_of_length_pos (by simp [length_putUint32])

/-- **A digest returns the hash of the array**, however the elements are split into calls. The blocks that
Poseidon absorbs and the bytes that Blake2s hashes determine the array. -/
theorem digests_stream {σ : Type} (rounds : State → State) (pedersen : HashFn) (b : Blake2s σ) :
    (∀ calls : List DigestCall,
      (calls.foldl (DigestCall.apply (PoseidonDigest.update rounds)) .zero).finish rounds =
        poseidonArray rounds (elemsOf calls) ∧
      (calls.foldl (DigestCall.apply (PedersenDigest.update pedersen)) .zero).finish pedersen =
        pedersenArray pedersen (elemsOf calls) ∧
      (calls.foldl (DigestCall.apply (Blake2sDigest.update b)) .zero).finish b =
        blake2sArray b (elemsOf calls)) ∧
    (∀ elems, poseidonArray rounds elems = (absorb rounds (padded elems) (0, 0, 0)).1) ∧
    (∀ elems,
      pedersenArray pedersen elems = pedersen (elems.foldl pedersen 0)
      (feltFromUint64 (elems.length % 2 ^ 64))) ∧
    Function.Injective padded ∧ Function.Injective encodeFelts := by
  refine ⟨fun calls => ?_, poseidonArray_eq rounds, pedersenArray_eq pedersen, padded_injective,
    encodeFelts_injective⟩
  rw [foldl_apply, foldl_apply, foldl_apply, poseidonArray_eq]
  exact ⟨PoseidonDigest.finish_foldl rounds _ _ _, rfl, Blake2sDigest.finish_foldl b _⟩

end Juno.Crypto
