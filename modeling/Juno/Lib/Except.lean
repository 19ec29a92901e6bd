import Mathlib.Data.List.Forall2

/-!
# Fallible programs

How `do` blocks over `Except` compute, how a successful one is taken apart, and
`Outcome`: a program that succeeds exactly under a condition, with what its result
satisfies. The conditions of a sequence of programs are collected in order
(`Outcome.bind`).
-/

namespace Juno.Lib

open List Except

universe u v

variable {ε : Type u} {α β : Type v} {σ : Type v} {I : σ → Prop} {s : σ}

@[simp] theorem ok_bind (a : α) (f : α → Except ε β) : (ok a >>= f) = f a := rfl

@[simp] theorem error_bind (e : ε) (f : α → Except ε β) : (error e >>= f) = .error e := rfl

@[simp] theorem pure_eq_ok (a : α) : (pure a : Except ε α) = .ok a := rfl

variable {x : Except ε α} {f : α → Except ε β} {b : β}

/-- A sequence that succeeds has a first part that does. -/
theorem bind_eq_ok : (x >>= f) = .ok b ↔ ∃ a, x = .ok a ∧ f a = .ok b := by
  cases x with
  | error e => simp
  | ok a => simp

variable {e : ε}

theorem bind_ne_error (hx : x ≠ .error e) (hf : ∀ a, x = .ok a → f a ≠ .error e) : (x >>= f) ≠ .error e := by
  cases x with
  | error e' => simpa using hx
  | ok a => exact hf a rfl

theorem map_eq_ok {f : α → β} : x.map f = .ok b ↔ ∃ a, x = .ok a ∧ f a = b := by
  cases x with
  | error e => simp [Except.map]
  | ok a => simp [Except.map]

/-! ### Lists -/

variable {γ : Type*} {l : List γ}

/-- A program run on every element of a list: the results, if all runs succeed. -/
theorem mapM_eq_ok {f : γ → Except ε α} {ys : List α} :
    l.mapM f = .ok ys ↔ List.Forall₂ (fun x y => f x = .ok y) l ys := by
  induction l generalizing ys with
  | nil =>
    rw [mapM_nil, pure_eq_ok, ok.injEq, forall₂_nil_left_iff, eq_comm]
  | cons x l ih =>
    rw [mapM_cons, bind_eq_ok]
    constructor
    · rintro ⟨y, hy, h⟩
      obtain ⟨ys', hys', h⟩ := bind_eq_ok.mp h
      obtain rfl := ok.inj h
      exact .cons hy (ih.mp hys')
    · intro h
      cases h with
      | cons hy hys => exact ⟨_, hy, bind_eq_ok.mpr ⟨_, ih.mpr hys, rfl⟩⟩

theorem mapM_eq_error {f : γ → Except ε α} (h : l.mapM f = .error e) : ∃ x ∈ l, f x = .error e := by
  induction l with
  | nil => simp at h
  | cons x l ih =>
    rw [mapM_cons] at h
    cases hx : f x with
    | error e' =>
      rw [hx, error_bind, error.injEq] at h
      exact ⟨x, by simp, by rw [hx, h]⟩
    | ok y =>
      rw [hx, ok_bind] at h
      cases hl : l.mapM f with
      | error e' =>
        rw [hl, error_bind, error.injEq] at h
        obtain ⟨x', hmem, hx'⟩ := ih (by rw [hl, h])
        exact ⟨x', by simp [hmem], hx'⟩
      | ok ys => simp [hl] at h

variable {step : σ → γ → Except ε σ}

/-- A loop ends with an error only if a step does, from a state that satisfies what the steps keep. -/
theorem foldlM_eq_error (hstep : ∀ s x s', x ∈ l → I s → step s x = .ok s' → I s') (hs : I s)
    (h : l.foldlM step s = .error e) : ∃ s' x, x ∈ l ∧ I s' ∧ step s' x = .error e := by
  induction l generalizing s with
  | nil => simp at h
  | cons x l ih =>
    rw [foldlM_cons] at h
    cases hx : step s x with
    | error e' =>
      rw [hx, error_bind, error.injEq] at h
      exact ⟨s, x, by simp, hs, by rw [hx, h]⟩
    | ok s₁ =>
      rw [hx, ok_bind] at h
      obtain ⟨s', x', hmem, hI, hx'⟩ :=
        ih (fun s y s' hy => hstep s y s' (by simp [hy])) (hstep s x s₁ (by simp) hs hx) h
      exact ⟨s', x', by simp [hmem], hI, hx'⟩

/-- What every step of a loop keeps holds at its end. -/
theorem foldlM_keeps (hstep : ∀ s x s', x ∈ l → I s → step s x = .ok s' → I s') {s' : σ} (hs : I s)
    (h : l.foldlM step s = .ok s') : I s' := by
  induction l generalizing s with
  | nil =>
    cases h
    exact hs
  | cons x l ih =>
    rw [foldlM_cons] at h
    obtain ⟨s₁, hs₁, h⟩ := bind_eq_ok.mp h
    exact ih (fun s y s' hy => hstep s y s' (mem_cons_of_mem x hy)) (hstep s x s₁ mem_cons_self hs hs₁) h

/-- A loop with a step that fails from every state fails. -/
theorem foldlM_error_of_mem {x : γ} (hx : x ∈ l) (hfail : ∀ s, ∃ e, step s x = .error e) (s : σ) :
    ∃ e, l.foldlM step s = .error e := by
  induction l generalizing s with
  | nil => cases hx
  | cons y l ih =>
    rw [foldlM_cons]
    cases hy : step s y with
    | error e => exact ⟨e, rfl⟩
    | ok s₁ =>
      rw [ok_bind]
      rcases mem_cons.mp hx with rfl | hmem
      · obtain ⟨e, he⟩ := hfail s
        rw [hy] at he
        simp at he
      · exact ih hmem s₁

/-! ### Outcomes -/

/-- **The outcome of a program**: it succeeds exactly under the condition, and then the result satisfies
`Q`. -/
structure Outcome (p : Except ε α) (C : Prop) (Q : α → Prop) : Prop where
  ok : C → ∃ a, p = .ok a ∧ Q a
  fails : ¬ C → ∃ e, p = .error e

namespace Outcome

variable {p : Except ε α} {C C' : Prop} {Q : α → Prop} {Q' : β → Prop} {f : α → Except ε β} {a : α}

theorem of_ok (hp : p = .ok a) (hC : C) (hQ : Q a) : Outcome p C Q :=
  ⟨fun _ => ⟨a, hp, hQ⟩, fun h => absurd hC h⟩

theorem of_error (hp : p = .error e) (hC : ¬ C) : Outcome p C Q :=
  ⟨fun h => absurd h hC, fun _ => ⟨e, hp⟩⟩

/-- A sequence: the second condition does not depend on the first result. -/
theorem bind (h : Outcome p C Q) (hf : C → ∀ a, Q a → Outcome (f a) C' Q') :
    Outcome (p >>= f) (C ∧ C') Q' := by
  constructor
  · intro ⟨hC, hC'⟩
    obtain ⟨a, rfl, hQ⟩ := h.ok hC
    exact (hf hC a hQ).ok hC'
  · intro hn
    by_cases hC : C
    · obtain ⟨a, rfl, hQ⟩ := h.ok hC
      exact (hf hC a hQ).fails fun hC' => hn ⟨hC, hC'⟩
    · obtain ⟨e, rfl⟩ := h.fails hC
      exact ⟨e, rfl⟩

theorem bind_ok (hp : p = .ok a) (hf : Outcome (f a) C' Q') : Outcome (p >>= f) C' Q' := by
  subst hp
  exact hf

theorem congr (h : Outcome p C Q) (hC : C ↔ C') : Outcome p C' Q :=
  ⟨fun h' => h.ok (hC.mpr h'), fun h' => h.fails fun hc => h' (hC.mp hc)⟩

/-- The results of a program whose result is determined. -/
theorem eq_ok_iff {b : α} (h : Outcome p C (· = a)) : p = .ok b ↔ C ∧ b = a := by
  constructor
  · intro hp
    by_cases hC : C
    · obtain ⟨a', hp', rfl⟩ := h.ok hC
      rw [hp, ok.injEq] at hp'
      exact ⟨hC, hp'⟩
    · obtain ⟨e, he⟩ := h.fails hC
      simp [he] at hp
  · intro ⟨hC, hb⟩
    obtain ⟨a', hp', rfl⟩ := h.ok hC
    rw [hp', hb]

/-- A loop over a list: the state says which elements were visited. -/
theorem foldlM {R : σ → List γ → Prop} {D : γ → Prop}
    (hstep : ∀ s done x, x ∈ l → R s done → Outcome (step s x) (D x) fun s' => R s' (done ++ [x]))
    {done : List γ} (hs : R s done) :
    Outcome (l.foldlM step s) (∀ x ∈ l, D x) fun s' => R s' (done ++ l) := by
  induction l generalizing s done with
  | nil => exact of_ok rfl (by simp) (by simpa using hs)
  | cons x l ih =>
    rw [foldlM_cons]
    have hrest : ∀ s', R s' (done ++ [x]) → Outcome (l.foldlM step s') (∀ y ∈ l, D y)
        fun s' => R s' (done ++ x :: l) := by
      intro s' hs'
      simpa using ih (fun s done y hy => hstep s done y (by simp [hy])) hs'
    exact ((hstep s done x (by simp) hs).bind fun _ s' hs' => hrest s' hs').congr (by simp)

end Outcome

end Juno.Lib
