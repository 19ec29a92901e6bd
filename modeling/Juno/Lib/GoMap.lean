import Juno.Lib.Except
import Mathlib.Data.List.AList

/-!
# Finite maps and loops over them

A library on its own: a map with finitely many keys, as a list of entries with
distinct keys, and loops that visit every entry once. The order of the entries is the
order of the visits; what a loop computes is stated through `lookup`, which does not
depend on it.
-/

namespace Juno.Lib

open AList Function List Option

universe u v w

/-- A map with finitely many keys. -/
abbrev GoMap (K : Type u) (V : Type v) := AList fun _ : K => V

namespace GoMap

variable {K : Type u} {V : Type v} {W : Type w} [DecidableEq K] (f : K → V → W) (m : GoMap K V)

/-- The map with a function of each key and value in place of the value. -/
def mapVals : GoMap K W where
  entries := m.entries.map fun e => ⟨e.1, f e.1 e.2⟩
  nodupKeys := by
    have : (m.entries.map fun e => (⟨e.1, f e.1 e.2⟩ : Σ _ : K, W)).keys = m.entries.keys := by
      simp [List.keys, List.map_map, comp_def]
    rw [List.NodupKeys, this]
    exact m.nodupKeys

def filter (p : K → V → Bool) (m : GoMap K V) : GoMap K V where
  entries := m.entries.filter fun e => p e.1 e.2
  nodupKeys := (m.nodupKeys).sublist List.filter_sublist

theorem dlookup_map (l : List (Σ _ : K, V)) (k : K) :
    (l.map fun e => (⟨e.1, f e.1 e.2⟩ : Σ _ : K, W)).dlookup k = (l.dlookup k).map (f k) := by
  induction l with
  | nil => rfl
  | cons e l ih =>
    obtain ⟨a, v⟩ := e
    by_cases h : k = a
    · subst h
      simp [dlookup_cons_eq]
    · rw [map_cons, dlookup_cons_ne _ _ h, dlookup_cons_ne _ _ h, ih]

@[simp] theorem lookup_mapVals (k : K) : (m.mapVals f).lookup k = (m.lookup k).map (f k) :=
  dlookup_map f m.entries k

@[simp] theorem mem_mapVals (k : K) : k ∈ m.mapVals f ↔ k ∈ m := by
  rw [← lookup_isSome, ← lookup_isSome, lookup_mapVals, isSome_map]

theorem dlookup_filter (p : K → V → Bool) {l : List (Σ _ : K, V)} (hl : l.NodupKeys) (k : K) :
    (l.filter fun e => p e.1 e.2).dlookup k = (l.dlookup k).filter (p k) := by
  induction l with
  | nil => rfl
  | cons e l ih =>
    obtain ⟨a, v⟩ := e
    rw [nodupKeys_cons] at hl
    by_cases h : k = a
    · subst h
      rw [dlookup_cons_eq]
      cases hp : p k v with
      | true => rw [filter_cons_of_pos (by exact hp), dlookup_cons_eq, filter_some, if_pos hp]
      | false =>
        rw [filter_cons_of_neg (by simp [hp]), ih hl.2, dlookup_eq_none.mpr hl.1, filter_some, hp]
        rfl
    · rw [dlookup_cons_ne _ _ h, ← ih hl.2]
      cases hp : p a v with
      | true => rw [filter_cons_of_pos (by exact hp), dlookup_cons_ne _ _ h]
      | false => rw [filter_cons_of_neg (by simp [hp])]

@[simp] theorem lookup_filter (p : K → V → Bool) (m : GoMap K V) (k : K) :
    (m.filter p).lookup k = (m.lookup k).filter (p k) :=
  dlookup_filter p m.nodupKeys k

variable {k : K} {m : GoMap K V}

theorem mem_of_mem_filter {p : K → V → Bool} (h : k ∈ m.filter p) : k ∈ m := by
  rw [← lookup_isSome, lookup_filter] at h
  rw [← lookup_isSome]
  cases hk : m.lookup k with
  | none => simp [hk] at h
  | some v => rfl

variable {v : V}

theorem mem_of_lookup (h : m.lookup k = some v) : k ∈ m :=
  lookup_isSome.mp (by rw [h]; rfl)

theorem exists_lookup (h : k ∈ m) : ∃ v, m.lookup k = some v :=
  isSome_iff_exists.mp (lookup_isSome.mpr h)

theorem forall_lookup_iff {p : K → Prop} : (∀ k v, m.lookup k = some v → p k) ↔ ∀ k ∈ m, p k := by
  constructor
  · intro h k hk
    obtain ⟨v, hv⟩ := exists_lookup hk
    exact h k v hv
  · intro h k v hv
    exact h k (mem_of_lookup hv)

@[simp] theorem lookup_singleton (k : K) (v : V) (a : K) :
    (singleton k v : GoMap K V).lookup a = if a = k then some v else none := by
  by_cases ha : a = k
  · subst ha
    rw [if_pos rfl]
    exact dlookup_cons_eq _ _ _
  · rw [if_neg ha]
    exact dlookup_cons_ne _ _ ha

variable {a : K}

@[simp] theorem mem_singleton : a ∈ (singleton k v : GoMap K V) ↔ a = k := by
  rw [← lookup_isSome, lookup_singleton]
  split_ifs with h
  · simp [h]
  · simp [h]

theorem lookup_insert_eq (m : GoMap K V) (k : K) (v : V) :
    (fun a => (m.insert k v).lookup a) = update (fun a => m.lookup a) k (some v) := by
  funext a
  by_cases ha : a = k
  · subst ha
    rw [lookup_insert, update_self]
  · rw [lookup_insert_ne ha, update_of_ne ha]

theorem lookup_insert_eq_some {w : V} :
    (m.insert k v).lookup a = some w ↔ (a = k ∧ v = w) ∨ (a ≠ k ∧ m.lookup a = some w) := by
  rcases eq_or_ne a k with rfl | hne
  · simp [lookup_insert]
  · simp [lookup_insert_ne hne, hne]

theorem lookup_erase_eq_some : (m.erase k).lookup a = some v ↔ a ≠ k ∧ m.lookup a = some v := by
  rcases eq_or_ne a k with rfl | hne
  · simp [lookup_erase]
  · simp [lookup_erase_ne hne, hne]

theorem length_erase (h : m.lookup k = some v) : (m.erase k).entries.length + 1 = m.entries.length := by
  have hkeys : ∀ n : GoMap K V, n.entries.length = n.keys.length := fun n => (length_map _).symm
  rw [hkeys, hkeys, keys_erase, length_erase_of_mem (mem_keys.mp (mem_of_lookup h))]
  have := length_pos_of_mem (mem_keys.mp (mem_of_lookup h))
  omega

/-! ### Overriding a function -/

/-- The function, with the map's values at the map's keys. -/
def override (f : K → V) (m : GoMap K V) : K → V := fun k => (m.lookup k).getD (f k)

@[simp] theorem override_empty (f : K → V) : (∅ : GoMap K V).override f = f := rfl

theorem override_of_lookup {f : K → V} (h : m.lookup k = some v) : m.override f k = v := by
  rw [override, h, getD_some]

theorem override_of_not_mem {f : K → V} (h : k ∉ m) : m.override f k = f k := by
  rw [override, lookup_eq_none.mpr h, getD_none]

/-! ### Loops -/

section

variable {σ ε : Type*} {R : σ → (K → W) → Prop} {m : GoMap K V} {f F : K → W}
  {step : σ → (Σ _ : K, V) → Except ε σ} {s : σ}

/-- **A loop that may fail.** If, whatever function the state represents, a step at an entry of the map whose
key still has its first value succeeds exactly when the key satisfies a condition, and then writes the last
value, the loop succeeds exactly when every key satisfies it, and the state then represents the function with
the last values. -/
theorem foldlM_outcome {C : K → Prop} (hF : ∀ k, m.lookup k = none → F k = f k)
    (hstep : ∀ s h k v, R s h → m.lookup k = some v → h k = f k →
      Outcome (step s ⟨k, v⟩) (C k) fun s' => R s' (update h k (F k)))
    (hs : R s f) : Outcome (m.entries.foldlM step s) (∀ k ∈ m, C k) fun s' => R s' F := by
  have key : ∀ (l : List (Σ _ : K, V)) (s : σ) (h : K → W), l.NodupKeys → (∀ e ∈ l, m.lookup e.1 = some e.2) →
    R s h →
      (∀ k ∈ l.keys, h k = f k) → (∀ k ∉ l.keys, h k = F k) → Outcome (l.foldlM step s) (∀ e ∈ l, C e.1)
        fun s' => R s' F := by
    intro l
    induction l with
    | nil => exact fun s h _ _ hR _ hlast => .of_ok rfl (by simp) (funext (fun k => hlast k (by simp)) ▸ hR)
    | cons e l ih =>
      intro s h hl hm hR hfirst hlast
      obtain ⟨k, v⟩ := e
      rw [nodupKeys_cons] at hl
      rw [foldlM_cons]
      have hbind := (hstep s h k v hR (hm ⟨k, v⟩ (by simp)) (hfirst k (by simp))).bind fun _ s₁ hR₁ =>
        ih s₁ _ hl.2 (fun e he => hm e (by simp [he])) hR₁ (fun x hx => ?_) fun x hx => ?_
      · exact hbind.congr (by rw [forall_mem_cons])
      · have hxk : x ≠ k := fun heq => hl.1 (heq ▸ hx)
        rw [update_of_ne hxk, hfirst x (by simp [hx])]
      · by_cases hxk : x = k
        · rw [hxk, update_self]
        · rw [update_of_ne hxk, hlast x (by simp [hx, hxk])]
  refine (key m.entries s f m.nodupKeys (fun e he => mem_lookup_iff.mpr he) hs (fun _ _ => rfl)
    fun k hk => ?_).congr ?_
  · exact (hF k (lookup_eq_none.mpr hk)).symm
  · rw [← forall_lookup_iff]
    exact ⟨fun h k v hk => h ⟨k, v⟩ (mem_lookup_iff.mp hk), fun h e he => h e.1 e.2 (mem_lookup_iff.mpr he)⟩

theorem foldlM_writes (hF : ∀ k, m.lookup k = none → F k = f k)
    (hstep : ∀ s h k v, R s h → m.lookup k = some v → h k = f k → ∃ s', step s ⟨k, v⟩ = .ok s' ∧
      R s' (update h k (F k)))
    (hs : R s f) : ∃ s', m.entries.foldlM step s = .ok s' ∧ R s' F := by
  refine (foldlM_outcome (C := fun _ => True) hF (fun s h k v hR hk hf => ?_) hs).ok fun _ _ => trivial
  obtain ⟨s', hs', hR'⟩ := hstep s h k v hR hk hf
  exact .of_ok hs' trivial hR'

/-- **A loop that visits every key**: the state says of each key whether it was visited. -/
theorem foldlM_visits {R : σ → (K → Bool) → Prop}
    (hstep : ∀ s h k v, R s h → m.lookup k = some v → h k = false → ∃ s', step s ⟨k, v⟩ = .ok s' ∧
      R s' (update h k true))
    (hs : R s fun _ => false) :
    ∃ s', m.entries.foldlM step s = .ok s' ∧ R s' fun k => (m.lookup k).isSome := by
  refine foldlM_writes (fun k hk => by rw [hk]; rfl) (fun s h k v hR hk hf => ?_) hs
  rw [hk]
  exact hstep s h k v hR hk hf

/-- A choice between two functions, after one more key was visited. -/
theorem visited_update {W : Type*} (h : K → Bool) (k : K) (x y : K → W) :
    (fun a => if update h k true a then x a else y a) =
      update (fun a => if h a then x a else y a) k (x k) := by
  funext a
  by_cases ha : a = k
  · subst ha
    simp
  · simp [update_of_ne ha]

/-- **A loop without errors.** -/
theorem foldl_writes {step : σ → (Σ _ : K, V) → σ} (hF : ∀ k, m.lookup k = none → F k = f k)
    (hstep : ∀ s h k v, R s h → m.lookup k = some v → h k = f k → R (step s ⟨k, v⟩) (update h k (F k)))
    (hs : R s f) : R (m.entries.foldl step s) F := by
  obtain ⟨s', hs', hR⟩ : ∃ s', m.entries.foldlM (fun s e => (.ok (step s e) : Except Unit σ)) s = .ok s' ∧
      R s' F :=
    foldlM_writes hF (fun s h k v hR hk hf => ⟨step s ⟨k, v⟩, rfl, hstep s h k v hR hk hf⟩) hs
  obtain rfl := Except.ok.inj ((List.foldlM_pure (m := Except Unit)).symm.trans hs')
  exact hR

end

/-! ### Copying -/

/-- `maps.Copy`: the entries of a map are written into another. -/
def copyFrom (dst src : GoMap K V) : GoMap K V := src.entries.foldl (fun m e => m.insert e.1 e.2) dst

@[simp] theorem lookup_copyFrom (dst src : GoMap K V) (k : K) :
    (dst.copyFrom src).lookup k = (src.lookup k).or (dst.lookup k) := by
  refine foldl_writes (f := fun k => dst.lookup k) (F := fun k => (src.lookup k).or (dst.lookup k))
    (R := fun (m : GoMap K V) h => ∀ k, m.lookup k = h k) (fun k hk => by rw [hk, none_or])
      (fun m h a v hm ha _ k => ?_)
    (fun _ => rfl) k
  rw [ha, some_or, ← funext hm, ← lookup_insert_eq]

section

variable {K V W ε : Type} [DecidableEq K] {m : GoMap K V} {g : K → V → Except ε W}

/-- A loop that writes a row for every entry succeeds if every row can be made, and then has written them. -/
theorem foldlM_rows_iff {f f' : K → Option W} :
    m.entries.foldlM (fun f e => do return update f e.1 (some (← g e.1 e.2))) f = .ok f' ↔
      (∀ k v, m.lookup k = some v → ∃ r, g k v = .ok r) ∧
        f' = (m.mapVals fun k v => (g k v).toOption).override f := by
  have hout : Outcome (m.entries.foldlM (fun (f : K → Option W) e => do
        return update f e.1 (some (← g e.1 e.2))) f)
      (∀ k ∈ m, ∀ v, m.lookup k = some v → ∃ r, g k v = .ok r)
        (· = (m.mapVals fun k v => (g k v).toOption).override f) := by
    refine foldlM_outcome (R := fun s h => s = h) (fun k hk => by rw [override, lookup_mapVals, hk]; rfl)
      (fun s h k v hs hk _ => ?_) rfl
    subst hs
    rw [override, lookup_mapVals, hk]
    cases hrow : g k v with
    | ok r =>
      exact .of_ok (a := update s k (some r)) (by simp only; rfl) (by simp [hrow])
        (by simp [hrow, Except.toOption])
    | error e => exact .of_error (e := e) (by simp only; rfl) (by simp [hrow])
  rw [hout.eq_ok_iff]
  exact and_congr_left fun _ => ⟨fun h k v hk => h k (mem_of_lookup hk) v hk, fun h k _ => h k⟩

theorem foldlM_rows {f f' : K → Option W}
    (h : m.entries.foldlM (fun f e => do return update f e.1 (some (← g e.1 e.2))) f = .ok f') (k : K) :
    (m.lookup k = none ∧ f' k = f k) ∨ ∃ v r, m.lookup k = some v ∧ g k v = .ok r ∧ f' k = some r := by
  obtain ⟨hC, hf'⟩ := foldlM_rows_iff.mp h
  cases hk : m.lookup k with
  | none => exact .inl ⟨rfl, by rw [hf', override, lookup_mapVals, hk]; rfl⟩
  | some v =>
    obtain ⟨r, hr⟩ := hC k v hk
    exact .inr ⟨v, r, rfl, hr, by rw [hf', override, lookup_mapVals, hk, map_some, hr]; rfl⟩

end

end GoMap

end Juno.Lib
