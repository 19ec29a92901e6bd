import Juno.Preconfirmed.Run
import Mathlib

/-!
# Which class definitions a pre-confirmed block keeps

The definitions of the classes that a pre-confirmed block declares are fetched by the poller and given to
`ApplyUpdate` with the update they were fetched for. An update that appends to the stored block adds its
definitions to those that are there; a whole block of the same identifier either replaces the stored one
together with its definitions, or is dropped together with its own.

## The model

* `Watched` — a storage with, for one slot, the classes whose definitions came with the updates that were
  applied to the slot while it has held its identifier.
* `Call.Carries` — what a whole block for the slot has to bring.

The main result is `classes_retained`.
-/

namespace Juno.Preconfirmed

open Lib AList Storage

variable {W Z S H T Y : Type} {A : Adapter W Z S H T Y}

def PreConfirmed.Declares (e : PreConfirmed H T Y) (classHash : Felt) : Prop :=
  classHash ∈ e.stateDiff.declaredV0Classes ∨ classHash ∈ e.stateDiff.declaredV1Classes

/-! ### What is supplied -/

structure Watched (H T Y : Type) where
  storage : Storage H T Y
  /-- The classes whose definitions came with the updates applied to the slot, since it holds its
  identifier. -/
  supplied : List Felt

/-- The identifier is that of the update; one without content continues the block that is stored. -/
def PreConfirmedUpdate.Repeats (update : PreConfirmedUpdate W Z S H) (blockIdentifier : String) : Prop :=
  match update with
  | .block b => b.blockIdentifier = blockIdentifier
  | .delta d => d.blockIdentifier = blockIdentifier
  | .noChange => True

instance decidableRepeats (blockIdentifier : String) :
    ∀ update : PreConfirmedUpdate W Z S H, Decidable (update.Repeats blockIdentifier)
  | .block b => inferInstanceAs (Decidable (b.blockIdentifier = blockIdentifier))
  | .delta d => inferInstanceAs (Decidable (d.blockIdentifier = blockIdentifier))
  | .noChange => instDecidableTrue

/-- The classes that come with an update that is applied to the slot and is for the block it then holds. -/
def Call.supplies (A : Adapter W Z S H T Y) (slot : ℕ) (s : Storage H T Y) : Call W Z S H → List Felt
  | .applyUpdate update blockNumber baseTxCount oldest newClasses =>
    match s.applyUpdate A update blockNumber baseTxCount oldest newClasses with
    | .error _ => []
    | .ok s' =>
      match s'.entryAt slot with
      | none => []
      | some e => if blockNumber = slot ∧ update.Repeats e.blockIdentifier then newClasses.keys else []
  | .advanceTo _ => []

/-- The slot holds a block of the identifier that it held. -/
def sameIdentifier (before after : Option (PreConfirmed H T Y)) : Bool :=
  match before, after with
  | some e, some e' => e.blockIdentifier == e'.blockIdentifier
  | _, _ => false

/-- What a call does: with another identifier in the slot the watch begins anew. -/
def Watched.step (A : Adapter W Z S H T Y) (slot : ℕ) (w : Watched H T Y) (call : Call W Z S H) :
    Watched H T Y where
  storage := w.storage.step A call
  supplied :=
    if sameIdentifier (w.storage.entryAt slot) ((w.storage.step A call).entryAt slot) then
      w.supplied ++ call.supplies A slot w.storage
    else call.supplies A slot w.storage

def Watched.run (A : Adapter W Z S H T Y) (slot : ℕ) (w : Watched H T Y) (calls : List (Call W Z S H)) :
    Watched H T Y :=
  calls.foldl (Watched.step A slot) w

def Watched.new : Watched H T Y := ⟨.new, []⟩

/-- Every class that the block declares and whose definition was supplied is among its classes. -/
def Watched.Retains (slot : ℕ) (w : Watched H T Y) : Prop :=
  ∀ e, w.storage.entryAt slot = some e → ∀ classHash ∈ w.supplied, e.Declares classHash →
    classHash ∈ e.newClasses

/-! ### The condition -/

/-- **What a whole block that repeats the slot's identifier has to bring**: all definitions that the stored
block has, if it has more transactions or comes with more definitions; and no others than these, if not. -/
def Call.Carries (slot : ℕ) (entry : Option (PreConfirmed H T Y)) : Call W Z S H → Prop
  | .applyUpdate (.block block) blockNumber _ _ newClasses =>
    ∀ e ∈ entry, blockNumber = slot → block.blockIdentifier = e.blockIdentifier →
      if e.header.transactionCount < block.transactions.length ∨
        e.newClasses.entries.length < newClasses.entries.length
      then ∀ classHash ∈ e.newClasses.keys, classHash ∈ newClasses
      else ∀ classHash ∈ newClasses.keys, classHash ∈ e.newClasses
  | _ => True

def CarriesAll (A : Adapter W Z S H T Y) (slot : ℕ) (s : Storage H T Y) : List (Call W Z S H) → Prop
  | [] => True
  | call :: calls => call.Carries slot (s.entryAt slot) ∧ CarriesAll A slot (s.step A call) calls

variable {t : Told W Z S H} {s : Storage H T Y} {newClasses : Classes} {update : PreConfirmedUpdate W Z S H}
  {classHash : Felt}

theorem advanceTo_entryAt (h : Inv A t s) (oldest slot : ℕ) :
    (s.advanceTo oldest).entryAt slot = none ∨ (s.advanceTo oldest).entryAt slot = s.entryAt slot := by
  rw [advanceTo]
  cases hinner : s.inner with
  | none => exact .inr rfl
  | some c =>
    obtain ⟨ns, hstored⟩ := h c hinner
    simp only
    split_ifs
    · exact .inr rfl
    · exact .inl (by simp [entryAt, chain, entryIn])
    · obtain ⟨-, ns', hpath, hmap⟩ := hstored.path.rebuild (c.length - (oldest - oldestPreConf s.nodes c))
      -- the rebuilt nodes hold the blocks of the newest ones
      have hvalues : (ns'.map fun n => n.value) =
          (ns.take (c.length - (oldest - oldestPreConf s.nodes c))).map fun n => n.value := by
        have := congrArg (List.map Prod.fst) hmap
        rwa [List.map_map, List.map_map] at this
      have hlen := congrArg List.length hvalues
      rw [List.length_map, List.length_map, List.length_take] at hlen
      rw [entryAt, entryAt, hstored.chain hinner, chain]
      simp only
      rw [hpath.newestFirst, List.take_of_length_le (by omega), entryIn_congr hvalues slot]
      exact entryIn_take ns _ slot

/-! ### The run -/

variable {slot : ℕ} {w : Watched H T Y}

/-- Every class whose definition was supplied is among the classes of the block, declared or not. -/
def Watched.Keeps (slot : ℕ) (w : Watched H T Y) : Prop :=
  ∀ e, w.storage.entryAt slot = some e → ∀ classHash ∈ w.supplied, classHash ∈ e.newClasses

/-- A call that leaves the block in the slot, or drops it, and supplies nothing that is not there. -/
theorem Watched.Keeps.unchanged (h : w.Keeps slot) {call : Call W Z S H}
    (hentry : (w.storage.step A call).entryAt slot = none ∨
      (w.storage.step A call).entryAt slot = w.storage.entryAt slot)
    (hsupplies : ∀ e, (w.storage.step A call).entryAt slot = some e →
      ∀ classHash ∈ call.supplies A slot w.storage, classHash ∈ e.newClasses) :
    (w.step A slot call).Keeps slot := by
  intro e he classHash hmem
  have he' : (w.storage.step A call).entryAt slot = some e := he
  have hbefore : w.storage.entryAt slot = some e := by
    rcases hentry with hnone | hsame
    · rw [hnone] at he'
      cases he'
    · rw [← hsame, he']
  rw [Watched.step] at hmem
  simp only at hmem
  split_ifs at hmem
  · rcases List.mem_append.mp hmem with hmem | hmem
    · exact h e hbefore classHash hmem
    · exact hsupplies e he' classHash hmem
  · exact hsupplies e he' classHash hmem

variable {e : PreConfirmed H T Y} {baseTxCount oldest : ℕ}

theorem mem_supplies {s' : Storage H T Y} {blockNumber : ℕ}
    (hr : s.applyUpdate A update blockNumber baseTxCount oldest newClasses = .ok s')
    (he : s'.entryAt slot = some e)
    (h : classHash ∈ Call.supplies A slot s (.applyUpdate update blockNumber baseTxCount oldest newClasses)) :
    blockNumber = slot ∧ update.Repeats e.blockIdentifier ∧ classHash ∈ newClasses := by
  rw [Call.supplies, hr] at h
  simp only [he] at h
  split_ifs at h with hslot
  · exact ⟨hslot.1, hslot.2, mem_keys.mpr h⟩
  · cases h

/-- An update without an effect supplies nothing that is not there. -/
theorem Ignored.supplied (h : Ignored s update slot newClasses)
    (hcarries : Call.Carries slot (s.entryAt slot) (.applyUpdate update slot baseTxCount oldest newClasses))
    (he : s.entryAt slot = some e) (hid : update.Repeats e.blockIdentifier)
    (hmem : classHash ∈ newClasses) : classHash ∈ e.newClasses := by
  cases h with
  | block block isBlock e' stored preserved =>
    subst isBlock
    obtain rfl := Option.some.inj (stored.symm.trans he)
    have hbring := hcarries e' stored rfl hid
    rw [if_neg preserved] at hbring
    exact hbring classHash (mem_keys.mp hmem)
  | noChange _ hnone => exact hnone classHash hmem e he

/-- The block that an update leaves has what was supplied before and what came with it. -/
theorem NextClasses.supplied (h : w.Keeps slot) {next : PreConfirmed H T Y}
    (hnext : NextClasses update newClasses (w.storage.entryAt slot) next)
    (hcarries : Call.Carries slot (w.storage.entryAt slot)
      (.applyUpdate update slot baseTxCount oldest newClasses)) :
    (∀ classHash ∈ newClasses, classHash ∈ next.newClasses) ∧
      (sameIdentifier (w.storage.entryAt slot) (some next) = true → ∀ classHash ∈ w.supplied,
        classHash ∈ next.newClasses) := by
  cases hnext with
  | block block isBlock replaces identifier classes =>
    subst isBlock
    rw [classes]
    refine ⟨fun _ hk => hk, fun hsame k hk => ?_⟩
    cases he : w.storage.entryAt slot with
    | none =>
      rw [he] at hsame
      exact absurd hsame Bool.false_ne_true
    | some e =>
      rw [he] at hsame
      have hid : e.blockIdentifier = block.blockIdentifier := (eq_of_beq hsame).trans identifier
      have hbring := hcarries e he rfl hid.symm
      rw [if_pos (replaces e he hid)] at hbring
      exact hbring k (mem_keys.mp (h e he k hk))
  | merged e stored identifier classes =>
    rw [classes]
    exact ⟨fun k hk => mem_mergeClassesCopying.mpr (.inr hk),
      fun _ k hk => mem_mergeClassesCopying.mpr (.inl (h e stored k hk))⟩

theorem Watched.Keeps.step (h : w.Keeps slot) (hinv : Inv A t w.storage) (call : Call W Z S H)
    (hcarries : call.Carries slot (w.storage.entryAt slot)) : (w.step A slot call).Keeps slot := by
  cases call with
  | advanceTo oldest =>
    exact h.unchanged (advanceTo_entryAt hinv oldest slot) fun e _ k hk => by cases hk
  | applyUpdate update blockNumber baseTxCount oldest newClasses =>
    cases hr : w.storage.applyUpdate A update blockNumber baseTxCount oldest newClasses with
    | error err =>
      refine h.unchanged (.inr (by rw [Storage.step, hr])) fun e _ k hk => ?_
      rw [Call.supplies, hr] at hk
      cases hk
    | ok s' =>
      have hstep : w.storage.step A (.applyUpdate update blockNumber baseTxCount oldest newClasses) = s' := by
        rw [Storage.step, hr]
      rcases hinv.applied hr with ⟨rfl, hignored⟩ | hwritten
      · refine h.unchanged (.inr (by rw [hstep])) fun e he k hk => ?_
        rw [hstep] at he
        obtain ⟨rfl, hid, hk⟩ := mem_supplies hr he hk
        exact hignored.supplied hcarries he hid hk
      · by_cases hslot : blockNumber = slot
        · subst hslot
          obtain ⟨next, hentry, hnext⟩ := hwritten.slot
          obtain ⟨hnew, hold⟩ := hnext.supplied h hcarries
          intro e he k hk
          have he' : s'.entryAt blockNumber = some e := hstep ▸ he
          obtain rfl := Option.some.inj (hentry.symm.trans he')
          rw [Watched.step] at hk
          simp only [hstep, hentry] at hk
          split_ifs at hk with hsame
          · rcases List.mem_append.mp hk with hk | hk
            · exact hold hsame k hk
            · exact hnew k (mem_supplies hr hentry hk).2.2
          · exact hnew k (mem_supplies hr hentry hk).2.2
        · have hothers : s'.entryAt slot = none ∨ s'.entryAt slot = w.storage.entryAt slot :=
            (Nat.lt_or_gt_of_ne hslot).elim (fun hgt => .inl (hwritten.above slot hgt))
              fun hlt => .inr (hwritten.below slot hlt)
          refine h.unchanged (hstep ▸ hothers) fun e he k hk => ?_
          rw [hstep] at he
          exact absurd (mem_supplies hr he hk).1 hslot

theorem Watched.Keeps.run (h : w.Keeps slot) (hinv : Inv A t w.storage) (calls : List (Call W Z S H))
    (hcarries : CarriesAll A slot w.storage calls) : (w.run A slot calls).Keeps slot := by
  induction calls generalizing t w with
  | nil => exact h
  | cons call calls ih => exact ih (h.step hinv call hcarries.1) (hinv.step call).1 hcarries.2

/-- **Classes are retained.** In every run in which each whole block that repeats the slot's identifier
carries the definitions over, the block in the slot has the definition of every class that it declares and
that an update applied to it has brought. -/
theorem classes_retained (A : Adapter W Z S H T Y) (slot : ℕ) (calls : List (Call W Z S H))
    (h : CarriesAll A slot Storage.new calls) : (Watched.new.run A slot calls).Retains slot := by
  have hnew : (Watched.new : Watched H T Y).Keeps slot := fun e _ k hk => by cases hk
  exact fun e he k hk _ => hnew.run inv_new calls h e he k hk

/-! ### Two runs -/

def declareDiff (classHash : Felt) : StateDiff :=
  { StateDiff.empty with declaredV1Classes := singleton classHash 1 }

def tellWhole (blockIdentifier : String) (diffs : List StateDiff) (blockNumber : ℕ) (newClasses : Classes) :
    Call Unit Unit StateDiff Unit :=
  .applyUpdate (.block ⟨blockIdentifier, diffs.map fun _ => (), diffs.map fun _ => ⟨[], ()⟩, diffs, ()⟩)
    blockNumber 1 1 newClasses

/-- A block declares a class, a delta another one, and the whole block is told again with both definitions. -/
def carryingRun : List (Call Unit Unit StateDiff Unit) :=
  [tellWhole "0x1" [declareDiff 12] 1 (singleton 12 (.sierra [] 1)),
    .applyUpdate (.delta ⟨"0x1", [()], [⟨[], ()⟩], [declareDiff 14]⟩) 1 1 1 (singleton 14 (.sierra [] 1)),
    tellWhole "0x1" [declareDiff 12, declareDiff 14, .empty] 1
      ((singleton 12 (.sierra [] 1)).insert 14 (.sierra [] 1))]

theorem classes_retained_carrying :
    CarriesAll plainAdapter 1 Storage.new carryingRun ∧
      (Watched.new.run plainAdapter 1 carryingRun).supplied = [12, 14, 14, 12] ∧
      (Watched.new.run plainAdapter 1 carryingRun).Retains 1 := by
  have hbefore : ((new.run plainAdapter (carryingRun.take 2)).entryAt 1).map
      (fun e => (e.header.transactionCount, e.newClasses.keys)) = some (2, [14, 12]) := by decide +kernel
  have h : CarriesAll plainAdapter 1 new carryingRun := by
    refine ⟨fun e he => (by cases he), trivial, fun e he _ _ => ?_, trivial⟩
    have hfields : (e.header.transactionCount, e.newClasses.keys) = (2, [14, 12]) := by
      have hentry : (new.run plainAdapter (carryingRun.take 2)).entryAt 1 = some e := he
      rw [hentry] at hbefore
      exact Option.some.inj hbefore
    obtain ⟨htxs, hkeys⟩ := Prod.ext_iff.mp hfields
    simp only at htxs hkeys
    rw [if_pos (.inl (by rw [htxs]; decide)), hkeys]
    intro k hk
    rw [mem_insert, GoMap.mem_singleton]
    simpa using hk
  exact ⟨h, by decide +kernel, classes_retained plainAdapter 1 carryingRun h⟩

/-- Block 1 is filled in with the class it declares, and block 2 is applied as the latest one. Then the
gateway tells block 1 as the latest, with one more transaction: like every latest block it is applied without
definitions. -/
def droppingRun : List (Call Unit Unit StateDiff Unit) :=
  [tellWhole "0x1" [declareDiff 12] 1 (singleton 12 (.sierra [] 1)), tellWhole "0x2" [.empty] 2 ∅,
    tellWhole "0x1" [declareDiff 12, .empty] 1 ∅]

/-- **A whole block that repeats the identifier drops the classes**: block 1 still declares the class, and its
definition, which came with the first update, is gone. -/
theorem repeated_block_drops_classes :
    ∃ e, (Watched.new.run plainAdapter 1 droppingRun).storage.entryAt 1 = some e ∧ e.blockIdentifier = "0x1" ∧
      12 ∈ (Watched.new.run plainAdapter 1 droppingRun).supplied ∧ e.Declares 12 ∧ 12 ∉ e.newClasses := by
  have hrun : ((Watched.new.run plainAdapter 1 droppingRun).storage.entryAt 1).map
      (fun e => (e.blockIdentifier, e.stateDiff.declaredV1Classes.keys, e.newClasses.keys)) =
        some ("0x1", [12], []) := by
    decide +kernel
  obtain ⟨e, he, hfields⟩ := Option.map_eq_some_iff.mp hrun
  simp only [Prod.mk.injEq] at hfields
  obtain ⟨hid, hdeclared, hclasses⟩ := hfields
  refine ⟨e, he, hid, by decide +kernel, .inr ?_, ?_⟩
  · rw [mem_keys, hdeclared]
    exact List.mem_singleton_self 12
  · rw [mem_keys, hclasses]
    exact List.not_mem_nil

end Juno.Preconfirmed
