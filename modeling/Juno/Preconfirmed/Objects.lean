import Juno.Core.DiffValue
import Mathlib

/-!
# State diffs in memory

A `core.StateDiff` holds its storage writes in maps of their own, one per contract, and `Merge` writes into
them in place or clones them. Pre-confirmed blocks share diffs with older versions of themselves, so
what a merge may change is told here with the maps in a heap.

## The model

* `Maps` — the storage maps allocated so far, a pointer being an index.
* `DiffObject` — a `core.StateDiff`, with pointers to its storage maps.

The main result is `merge_merged`.
-/

namespace Juno.Preconfirmed

open Lib Function List Option

variable {written written' : ℕ → Prop}

/-- The storage maps allocated so far. -/
abbrev Maps := List (GoMap Felt Felt)

variable (maps : Maps)

def Maps.read (p : ℕ) : GoMap Felt Felt := maps.getD p ∅

/-- `core.StateDiff`, with pointers to the storage maps. -/
structure DiffObject where
  storageDiffs : GoMap Felt ℕ
  nonces : GoMap Felt Felt
  deployedContracts : GoMap Felt Felt
  declaredV0Classes : List Felt
  declaredV1Classes : GoMap Felt Felt
  replacedClasses : GoMap Felt Felt
  migratedClasses : GoMap Felt Felt

/-- `EmptyStateDiff`. -/
def DiffObject.empty : DiffObject := ⟨∅, ∅, ∅, [], ∅, ∅, ∅⟩

/-- The storage writes behind pointers. -/
def storageValue (storageDiffs : GoMap Felt ℕ) (addr : Felt) : Option (Felt → Option Felt) :=
  (storageDiffs.lookup addr).map fun p k => (maps.read p).lookup k

def DiffObject.value (d : DiffObject) : DiffValue where
  storage := storageValue maps d.storageDiffs
  nonces := fun k => d.nonces.lookup k
  deployed := fun k => d.deployedContracts.lookup k
  declaredV0 := d.declaredV0Classes
  declaredV1 := fun k => d.declaredV1Classes.lookup k
  replaced := fun k => d.replacedClasses.lookup k
  migrated := fun k => d.migratedClasses.lookup k

/-- One turn of the storage loop of `Merge`: a map that is there is written into, and another is cloned. -/
def mergeStep (r : Maps × GoMap Felt ℕ) (e : Σ _ : Felt, ℕ) : Maps × GoMap Felt ℕ :=
  match r.2.lookup e.1 with
  | some p => (r.1.set p ((r.1.read p).copyFrom (r.1.read e.2)), r.2)
  | none => (r.1 ++ [r.1.read e.2], r.2.insert e.1 r.1.length)

def merge (d incoming : DiffObject) : Maps × DiffObject :=
  let r := incoming.storageDiffs.entries.foldl mergeStep (maps, d.storageDiffs)
  (r.1,
    { storageDiffs := r.2
      nonces := d.nonces.copyFrom incoming.nonces
      deployedContracts := d.deployedContracts.copyFrom incoming.deployedContracts
      declaredV0Classes := d.declaredV0Classes ++ incoming.declaredV0Classes
      declaredV1Classes := d.declaredV1Classes.copyFrom incoming.declaredV1Classes
      replacedClasses := d.replacedClasses.copyFrom incoming.replacedClasses
      migratedClasses := d.migratedClasses.copyFrom incoming.migratedClasses })

/-- One turn of the storage loop of `AdaptStateDiff`: a map is made for the contract. -/
def allocStep (r : Maps × GoMap Felt ℕ) (e : Σ _ : Felt, GoMap Felt Felt) : Maps × GoMap Felt ℕ :=
  (r.1 ++ [e.2], r.2.insert e.1 r.1.length)

def allocDiff (d : StateDiff) : Maps × DiffObject :=
  let r := d.storageDiffs.entries.foldl allocStep (maps, ∅)
  (r.1, ⟨r.2, d.nonces, d.deployedContracts, d.declaredV0Classes, d.declaredV1Classes, d.replacedClasses,
    d.migratedClasses⟩)

/-! ### Pointers -/

variable {storageDiffs : GoMap Felt ℕ} {maps maps' : Maps}

def Points (storageDiffs : GoMap Felt ℕ) (p : ℕ) : Prop := ∃ addr, storageDiffs.lookup addr = some p

/-- The pointers are allocated, and no two contracts share one. -/
structure Owns (maps : Maps) (storageDiffs : GoMap Felt ℕ) : Prop where
  allocated : ∀ p, Points storageDiffs p → p < maps.length
  distinct : ∀ a b p, storageDiffs.lookup a = some p → storageDiffs.lookup b = some p → a = b

/-- What writing to some pointers and allocating others leaves. -/
structure Kept (maps maps' : Maps) (written : ℕ → Prop) : Prop where
  length : maps.length ≤ maps'.length
  same : ∀ p < maps.length, ¬written p → maps'[p]? = maps[p]?

theorem Kept.refl (maps : Maps) (written : ℕ → Prop) : Kept maps maps written := ⟨le_rfl, fun _ _ _ => rfl⟩

/-- Only new maps are written to: the old ones stay. -/
theorem Kept.trans {maps'' : Maps} (h : Kept maps maps' written) (h' : Kept maps' maps'' written')
    (hsub : ∀ p < maps.length, written' p → written p) : Kept maps maps'' written :=
  ⟨h.length.trans h'.length, fun p hp hw =>
    (h'.same p (hp.trans_le h.length) fun hw' => hw (hsub p hp hw')).trans (h.same p hp hw)⟩

theorem Kept.mono (h : Kept maps maps' written) (hsub : ∀ p < maps.length, written p → written' p) :
    Kept maps maps' written' :=
  ⟨h.length, fun p hp hw => h.same p hp fun hw' => hw (hsub p hp hw')⟩

theorem Kept.read (h : Kept maps maps' written) {p : ℕ} (hp : p < maps.length) (hw : ¬written p) :
    maps'.read p = maps.read p := by
  rw [Maps.read, Maps.read, getD_eq_getElem?_getD, getD_eq_getElem?_getD, h.same p hp hw]

theorem storageValue_kept (h : Kept maps maps' written)
    (halloc : ∀ p, Points storageDiffs p → p < maps.length) (hw : ∀ p, Points storageDiffs p → ¬written p) :
    storageValue maps' storageDiffs = storageValue maps storageDiffs := by
  funext addr
  rw [storageValue, storageValue]
  cases hp : storageDiffs.lookup addr with
  | none => rfl
  | some p => rw [map_some, map_some, h.read (halloc p ⟨addr, hp⟩) (hw p ⟨addr, hp⟩)]

open DiffObject

theorem DiffObject.value_kept {d : DiffObject} (h : Kept maps maps' written)
    (halloc : ∀ p, Points d.storageDiffs p → p < maps.length)
    (hw : ∀ p, Points d.storageDiffs p → ¬written p) : d.value maps' = d.value maps := by
  rw [value, value, storageValue_kept h halloc hw]

theorem Owns.empty (maps : Maps) : Owns maps ∅ := by
  have hnone : ∀ addr, (∅ : GoMap Felt ℕ).lookup addr = none := fun addr => AList.lookup_empty addr
  refine ⟨fun p hp => ?_, fun a b p ha => ?_⟩
  · obtain ⟨addr, haddr⟩ := hp
    rw [hnone] at haddr
    cases haddr
  · rw [hnone] at ha
    cases ha

theorem Owns.mono (h : Owns maps storageDiffs) (hle : maps.length ≤ maps'.length) : Owns maps' storageDiffs :=
  ⟨fun p hp => (h.allocated p hp).trans_le hle, h.distinct⟩

/-- What turns of a storage loop come to. -/
structure Reaches (maps : Maps) (storageDiffs : GoMap Felt ℕ) (written : ℕ → Prop) (r : Maps × GoMap Felt ℕ)
    (value : Felt → Option (Felt → Option Felt)) : Prop where
  owns : Owns r.1 r.2
  value : storageValue r.1 r.2 = value
  kept : Kept maps r.1 written
  /-- The pointers are old ones and new ones. -/
  points : ∀ p, Points r.2 p → Points storageDiffs p ∨ maps.length ≤ p

variable {written : ℕ → Prop}

theorem Reaches.refl (h : Owns maps storageDiffs) :
    Reaches maps storageDiffs written (maps, storageDiffs) (storageValue maps storageDiffs) :=
  ⟨h, rfl, .refl _ _, fun _ => .inl⟩

theorem Reaches.trans {r r' : Maps × GoMap Felt ℕ} {value value' : Felt → Option (Felt → Option Felt)}
    (h : Reaches maps storageDiffs written r value) (h' : Reaches r.1 r.2 written' r' value')
    (hsub : ∀ p < maps.length, written' p → written p) : Reaches maps storageDiffs written r' value' := by
  refine ⟨h'.owns, h'.value, h.kept.trans h'.kept hsub, fun p hp => ?_⟩
  rcases h'.points p hp with hp | hp
  · exact h.points p hp
  · exact .inr (h.kept.length.trans hp)

/-! ### Allocating -/

/-- A map is allocated for a contract that has none, or in place of the one it has. -/
theorem allocStep_reaches (h : Owns maps storageDiffs) (addr : Felt) (m : GoMap Felt Felt) :
    Reaches maps storageDiffs written (allocStep (maps, storageDiffs) ⟨addr, m⟩)
      (update (storageValue maps storageDiffs) addr (some fun k => m.lookup k)) := by
  have hlook : ∀ a, (storageDiffs.insert addr maps.length).lookup a =
      if a = addr then some maps.length else storageDiffs.lookup a := by
    intro a
    split_ifs with ha
    · rw [ha, AList.lookup_insert]
    · rw [AList.lookup_insert_ne ha]
  have hpoints : ∀ a p, (storageDiffs.insert addr maps.length).lookup a = some p →
      (a = addr ∧ p = maps.length) ∨ (a ≠ addr ∧ storageDiffs.lookup a = some p) := by
    intro a p hp
    rw [hlook] at hp
    split_ifs at hp with ha
    · exact .inl ⟨ha, (some.inj hp).symm⟩
    · exact .inr ⟨ha, hp⟩
  rw [allocStep]
  refine ⟨⟨?_, ?_⟩, ?_, ⟨?_, fun _ hp _ => getElem?_append_left hp⟩, ?_⟩
  · rintro p ⟨a, ha⟩
    rw [length_append, length_singleton]
    rcases hpoints a p ha with ⟨-, rfl⟩ | ⟨-, ha⟩
    · exact Nat.lt_succ_self _
    · exact (h.allocated p ⟨a, ha⟩).trans (Nat.lt_succ_self _)
  · intro a b p ha hb
    rcases hpoints a p ha with ⟨ha, hp⟩ | ⟨-, ha⟩ <;> rcases hpoints b p hb with ⟨hb, hp'⟩ | ⟨-, hb⟩
    · exact ha.trans hb.symm
    · exact absurd (h.allocated p ⟨b, hb⟩) (hp ▸ Nat.lt_irrefl _)
    · exact absurd (h.allocated p ⟨a, ha⟩) (hp' ▸ Nat.lt_irrefl _)
    · exact h.distinct a b p ha hb
  · funext a
    rw [storageValue, hlook]
    split_ifs with ha
    · rw [ha, update_self, map_some, Maps.read, getD_eq_getElem?_getD, getElem?_concat_length]
      rfl
    · rw [update_of_ne ha, storageValue]
      cases hp : storageDiffs.lookup a with
      | none => rfl
      | some p =>
        have hlt := h.allocated p ⟨a, hp⟩
        rw [map_some, map_some, Maps.read, Maps.read, getD_append _ _ _ _ hlt]
  · rw [length_append]
    exact Nat.le_add_right _ _
  · rintro p ⟨a, ha⟩
    rcases hpoints a p ha with ⟨-, rfl⟩ | ⟨-, ha⟩
    · exact .inr le_rfl
    · exact .inl ⟨a, ha⟩

theorem allocLoop_reaches (m : GoMap Felt (GoMap Felt Felt)) (h : Owns maps storageDiffs) :
    Reaches maps storageDiffs (fun _ => False) (m.entries.foldl allocStep (maps, storageDiffs))
      fun addr => ((m.lookup addr).map fun m k => m.lookup k).or (storageValue maps storageDiffs addr) := by
  refine GoMap.foldl_writes (R := Reaches maps storageDiffs fun _ => False) (fun a ha => by rw [ha]; rfl)
    (fun r value a x hr hx _ => ?_) (.refl h)
  rw [hx, ← hr.value]
  exact hr.trans (allocStep_reaches hr.owns a x) fun _ _ => id

structure Made (maps : Maps) (r : Maps × DiffObject) (value : DiffValue) : Prop where
  owns : Owns r.1 r.2.storageDiffs
  fresh : ∀ p, Points r.2.storageDiffs p → maps.length ≤ p
  kept : Kept maps r.1 fun _ => False
  value : r.2.value r.1 = value

theorem allocDiff_made (maps : Maps) (d : StateDiff) : Made maps (allocDiff maps d) d.value := by
  obtain ⟨howns, hvalue, hkept, hpoints⟩ := allocLoop_reaches d.storageDiffs (Owns.empty maps)
  refine ⟨howns, fun p hp => ?_, hkept, ?_⟩
  · rcases hpoints p hp with ⟨addr, haddr⟩ | hp
    · rw [AList.lookup_empty] at haddr
      cases haddr
    · exact hp
  · rw [value, StateDiff.value]
    congr 1
    refine hvalue.trans (funext fun addr => ?_)
    exact or_none

/-! ### Merging -/

theorem mergeStep_reaches (h : Owns maps storageDiffs) (addr : Felt) (q : ℕ) :
    Reaches maps storageDiffs (Points storageDiffs) (mergeStep (maps, storageDiffs) ⟨addr, q⟩)
      (update (storageValue maps storageDiffs) addr
        (overlayStorage (storageValue maps storageDiffs addr) (some fun k => (maps.read q).lookup k))) := by
  rw [mergeStep]
  cases hlook : storageDiffs.lookup addr with
  | none =>
    have hnone : storageValue maps storageDiffs addr = none := by rw [storageValue, hlook, map_none]
    rw [hnone, overlayStorage_none_left]
    exact allocStep_reaches h addr (maps.read q)
  | some p =>
    have hp : p < maps.length := h.allocated p ⟨addr, hlook⟩
    refine ⟨h.mono (by rw [length_set]), ?_, ⟨by rw [length_set], ?_⟩, fun _ hp => .inl hp⟩
    · funext a
      by_cases ha : a = addr
      · subst ha
        rw [update_self, storageValue, storageValue, hlook, map_some, map_some]
        refine congrArg some (funext fun k => ?_)
        rw [Maps.read, getD_eq_getElem?_getD, getElem?_set_self hp, getD_some, GoMap.lookup_copyFrom]
        rfl
      · rw [update_of_ne ha, storageValue, storageValue]
        cases ha' : storageDiffs.lookup a with
        | none => rfl
        | some p' =>
          have hne : p ≠ p' := fun heq => ha (h.distinct a addr p' ha' (heq ▸ hlook))
          rw [map_some, map_some, Maps.read, Maps.read, getD_eq_getElem?_getD,
            getElem?_set_ne hne, ← getD_eq_getElem?_getD]
          rfl
    · intro p' _ hnot
      have hne : p ≠ p' := fun heq => hnot ⟨addr, heq ▸ hlook⟩
      exact getElem?_set_ne hne

theorem mergeLoop_reaches {m : GoMap Felt ℕ} (h : Owns maps storageDiffs)
    (hm : ∀ addr q, m.lookup addr = some q → q < maps.length ∧ ¬Points storageDiffs q) :
    Reaches maps storageDiffs (Points storageDiffs) (m.entries.foldl mergeStep (maps, storageDiffs))
      fun addr =>
      overlayStorage (storageValue maps storageDiffs addr)
        ((m.lookup addr).map fun q k => (maps.read q).lookup k) := by
  refine GoMap.foldl_writes (R := Reaches maps storageDiffs (Points storageDiffs))
    (fun a ha => by rw [ha]; rfl)
    (fun r value a q hr hq ha => ?_) (.refl h)
  -- what is merged in is as it was before the loop
  obtain ⟨hlt, hnot⟩ := hm a q hq
  rw [hq, map_some, ← ha, ← hr.value, ← hr.kept.read hlt hnot]
  refine hr.trans (mergeStep_reaches hr.owns a q) fun p hp hpoints => ?_
  exact (hr.points p hpoints).resolve_right (Nat.not_le.mpr hp)

structure Merged (maps : Maps) (d : DiffObject) (r : Maps × DiffObject) (value : DiffValue) : Prop where
  owns : Owns r.1 r.2.storageDiffs
  /-- They are its old ones and new ones. -/
  points : ∀ p, Points r.2.storageDiffs p → Points d.storageDiffs p ∨ maps.length ≤ p
  kept : Kept maps r.1 (Points d.storageDiffs)
  value : r.2.value r.1 = value

/-- **A merge writes only into the receiver's own maps.** -/
theorem merge_merged {d incoming : DiffObject} (h : Owns maps d.storageDiffs)
    (halloc : ∀ p, Points incoming.storageDiffs p → p < maps.length)
    (hsep : ∀ p, Points incoming.storageDiffs p → ¬Points d.storageDiffs p) :
    Merged maps d (merge maps d incoming) ((d.value maps).merge (incoming.value maps)) := by
  obtain ⟨howns, hvalue, hkept, hpoints⟩ := mergeLoop_reaches h
    fun addr q hq => ⟨halloc q ⟨addr, hq⟩, hsep q ⟨addr, hq⟩⟩
  refine ⟨howns, hpoints, hkept, ?_⟩
  have hoverlay : ∀ old new : GoMap Felt Felt, (fun k => (old.copyFrom new).lookup k) =
      overlay (fun k => old.lookup k) (fun k => new.lookup k) :=
        fun old new => funext fun k => GoMap.lookup_copyFrom old new k
  rw [merge, value, value, value, DiffValue.merge]
  simp only [hoverlay]
  congr 1

end Juno.Preconfirmed
