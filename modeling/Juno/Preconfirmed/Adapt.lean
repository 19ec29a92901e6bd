import Juno.Preconfirmed.Chain
import Mathlib

/-!
# What a pre-confirmed block says

A block is adapted from the wire as a whole or grows by deltas, and every derived field, the merged
diff, the counts and the bloom filter, is then computed from the new transactions alone. Here
the two ways are compared.

## The model

* `parts` — the transactions of a wire block with their diffs and receipts, if they can all be adapted.
* `PreConfirmedValue`, `blockValue` — a block apart from how its diffs are stored, and the block that
  parts make.
* `Good` — a block in memory is the one that the parts of a wire block make.

## What is proved

* `adaptPreConfirmedBlock_spec`, `adaptPreConfirmedWithDelta_spec` — **a whole block, and a whole block with a
  delta appended, make the block that is left**, and neither changes a diff that was there before.
-/

namespace Juno.Preconfirmed

open Lib DiffValue PreConfirmed List

variable {W Z S H T Y : Type} {A : Adapter W Z S H T Y} {d : DiffObject} {ds : List DiffObject}

/-! ### Values -/

variable {maps maps' : Maps}

/-- The transactions of a wire block, with their diffs and receipts. -/
def parts (A : Adapter W Z S H T Y) :
    List W → List S → List (Receipt Z) → Except ApplyError (List (TxPart T Y))
  | [], _, _ => .ok []
  | tx :: txs, stateDiffs, receipts => do
    let r ← adaptNext A tx stateDiffs receipts
    let ps ← parts A txs r.2.1 r.2.2
    .ok (r.1 :: ps)

/-- A block apart from how its diffs are stored. -/
@[ext] structure PreConfirmedValue (H T Y : Type) where
  header : BlockHeader H
  transactions : List T
  receipts : List (Receipt Y)
  stateDiff : DiffValue
  newClasses : Classes
  transactionStateDiffs : List DiffValue
  blockIdentifier : String

def PreConfirmed.value (maps : Maps) (p : PreConfirmed H T Y) : PreConfirmedValue H T Y :=
  ⟨p.header, p.transactions, p.receipts, p.stateDiff.value maps, p.newClasses,
    p.transactionStateDiffs.map (DiffObject.value maps), p.blockIdentifier⟩

/-- The number of events of some transactions. -/
def eventsOf (ps : List (TxPart T Y)) : ℕ := (ps.map fun p => p.2.2.events.length).sum

def diffsOf (ps : List (TxPart T Y)) : List DiffValue := ps.map fun p => p.2.1.value

def blockValue (number : ℕ) (rest : H) (blockIdentifier : String) (newClasses : Classes)
    (ps : List (TxPart T Y)) : PreConfirmedValue H T Y :=
  ⟨⟨number, ps.length, eventsOf ps, rest⟩, ps.map fun p => p.1, ps.map fun p => p.2.2, mergeAll (diffsOf ps),
    newClasses, diffsOf ps, blockIdentifier⟩

def DiffObject.Allocated (maps : Maps) (d : DiffObject) : Prop :=
  ∀ p, Points d.storageDiffs p → p < maps.length

/-- **A block in memory is the one that a wire block makes.** -/
structure Good (A : Adapter W Z S H T Y) (maps : Maps) (source : PreConfirmedBlock W Z S H)
    (p : PreConfirmed H T Y) :
    Prop where
  stateDiff : p.stateDiff.Allocated maps
  transactionStateDiffs : ∀ d ∈ p.transactionStateDiffs, d.Allocated maps
  /-- The wire block can be adapted, and makes it. -/
  made : ∃ ps, parts A source.transactions source.transactionStateDiffs source.receipts = .ok ps ∧
    p.value maps = blockValue p.header.number source.header source.blockIdentifier p.newClasses ps

variable {source : PreConfirmedBlock W Z S H}

theorem map_value_kept {written : ℕ → Prop} (h : Kept maps maps' written)
    (hds : ∀ d ∈ ds, d.Allocated maps) (hw : ∀ d ∈ ds, ∀ p, Points d.storageDiffs p → ¬written p) :
    ds.map (DiffObject.value maps') = ds.map (DiffObject.value maps) :=
  map_congr_left fun d hd => DiffObject.value_kept h (hds d hd) (hw d hd)

theorem DiffObject.Allocated.mono (h : d.Allocated maps) (hle : maps.length ≤ maps'.length) :
    d.Allocated maps' := fun p hp => (h p hp).trans_le hle

variable {p : PreConfirmed H T Y}

theorem PreConfirmed.value_kept (h : Good A maps source p) (hkept : Kept maps maps' fun _ => False) :
    p.value maps' = p.value maps := by
  rw [value, value, DiffObject.value_kept hkept h.stateDiff (fun _ _ hf => hf),
    map_value_kept hkept h.transactionStateDiffs (fun _ _ _ _ hf => hf)]

/-- A block stays what it is while maps are allocated. -/
theorem Good.kept (h : Good A maps source p) (hkept : Kept maps maps' fun _ => False) :
    Good A maps' source p := by
  obtain ⟨ps, hps, hvalue⟩ := h.made
  exact ⟨h.stateDiff.mono hkept.length, fun d hd => (h.transactionStateDiffs d hd).mono hkept.length, ps, hps,
    (value_kept h hkept).trans hvalue⟩

/-! ### A whole block -/

variable {stateDiffs : List S} {receipts : List (Receipt Z)} {ps : List (TxPart T Y)}

/-- What the loops leave for some transactions. -/
structure Adapted.Of (maps : Maps) (a : Adapted T Y) (ps : List (TxPart T Y)) : Prop where
  transactions : a.transactions = ps.map fun p => p.1
  receipts : a.receipts = ps.map fun p => p.2.2
  eventCount : a.eventCount = eventsOf ps
  stateDiffs : a.stateDiffs.map (DiffObject.value a.maps) = diffsOf ps
  allocated : ∀ d ∈ a.stateDiffs, d.Allocated a.maps
  fresh : ∀ d ∈ a.stateDiffs, ∀ p, Points d.storageDiffs p → maps.length ≤ p

variable {a : Adapted T Y}

theorem Adapted.Of.cons {maps₁ : Maps} {tx : T} {stateDiff : StateDiff} {receipt : Receipt Y}
    (h : a.Of maps₁ ps) (hle : maps.length ≤ maps₁.length) (hvalue : d.value a.maps = stateDiff.value)
    (halloc : d.Allocated a.maps) (hfresh : ∀ p, Points d.storageDiffs p → maps.length ≤ p) :
    (a.cons tx d receipt).Of maps ((tx, stateDiff, receipt) :: ps) := by
  refine ⟨?_, ?_, ?_, ?_, ?_, ?_⟩
  · rw [Adapted.cons, h.transactions]
    rfl
  · rw [Adapted.cons, h.receipts]
    rfl
  · rw [Adapted.cons, h.eventCount]
    rfl
  · rw [Adapted.cons, map_cons, hvalue, h.stateDiffs]
    rfl
  · intro d' hd'
    rcases mem_cons.mp hd' with rfl | hd'
    · exact halloc
    · exact h.allocated d' hd'
  · intro d' hd'
    rcases mem_cons.mp hd' with rfl | hd'
    · exact hfresh
    · exact fun p hp => hle.trans (h.fresh d' hd' p hp)

variable {txs : List W}

theorem adaptLoop_spec (maps : Maps) (hps : parts A txs stateDiffs receipts = .ok ps) :
    ∃ a, adaptLoop A maps txs stateDiffs receipts = .ok a ∧ a.Of maps ps ∧
      Kept maps a.maps fun _ => False := by
  induction txs generalizing maps stateDiffs receipts ps with
  | nil =>
    rw [parts] at hps
    cases hps
    exact ⟨_, rfl, ⟨rfl, rfl, rfl, rfl, fun _ hd => (by cases hd), fun _ hd => by cases hd⟩,
      Kept.refl _ _⟩
  | cons tx txs ih =>
    rw [parts] at hps
    obtain ⟨r, hr, hps⟩ := bind_eq_ok.mp hps
    obtain ⟨qs, hqs, hps⟩ := bind_eq_ok.mp hps
    cases hps
    have hmade := allocDiff_made maps r.1.2.1
    obtain ⟨a, ha, hof, hkept⟩ := ih (allocDiff maps r.1.2.1).1 hqs
    refine ⟨a.cons r.1.1 (allocDiff maps r.1.2.1).2 r.1.2.2, ?_, ?_, hmade.kept.trans hkept fun _ _ hf => hf⟩
    · rw [adaptLoop, hr, ok_bind]
      simp only [ha, ok_bind]
    · refine hof.cons hmade.kept.length ?_ ?_ hmade.fresh
      · rw [DiffObject.value_kept hkept hmade.owns.allocated (fun _ _ hf => hf)]
        exact hmade.value
      · exact fun p hp => (hmade.owns.allocated p hp).trans_le hkept.length

theorem parts_of_adaptLoop (h : adaptLoop A maps txs stateDiffs receipts = .ok a) :
    ∃ ps, parts A txs stateDiffs receipts = .ok ps := by
  induction txs generalizing maps stateDiffs receipts a with
  | nil => exact ⟨[], rfl⟩
  | cons tx txs ih =>
    rw [adaptLoop] at h
    obtain ⟨r, hr, h⟩ := bind_eq_ok.mp h
    obtain ⟨a', ha', -⟩ := bind_eq_ok.mp h
    obtain ⟨ps, hps⟩ := ih ha'
    exact ⟨r.1 :: ps, by rw [parts, hr, ok_bind, hps, ok_bind]⟩

theorem mergeDiffs_merged (h : Owns maps d.storageDiffs) (hds : ∀ e ∈ ds, e.Allocated maps)
    (hsep : ∀ e ∈ ds, ∀ p, Points e.storageDiffs p → ¬Points d.storageDiffs p) :
    Merged maps d (mergeDiffs (maps, d) ds)
      ((d.value maps).merge (mergeAll (ds.map (DiffObject.value maps)))) := by
  induction ds generalizing maps d with
  | nil => exact ⟨h, fun _ hp => .inl hp, Kept.refl _ _, (merge_empty _).symm⟩
  | cons e ds ih =>
    have hfirst := merge_merged h (hds e mem_cons_self) (hsep e mem_cons_self)
    have hds' : ∀ e' ∈ ds, e'.Allocated (merge maps d e).1 := fun e' he' =>
      (hds e' (mem_cons_of_mem _ he')).mono hfirst.kept.length
    have hrest := ih hfirst.owns hds' (by
      intro e' he' p hp hp'
      rcases hfirst.points p hp' with hp' | hp'
      · exact hsep e' (mem_cons_of_mem _ he') p hp hp'
      · exact absurd (hds e' (mem_cons_of_mem _ he') p hp) (Nat.not_lt.mpr hp'))
    have hvalues : ds.map (DiffObject.value (merge maps d e).1) = ds.map (DiffObject.value maps) :=
      map_value_kept hfirst.kept (fun e' he' => hds e' (mem_cons_of_mem _ he'))
        fun e' he' => hsep e' (mem_cons_of_mem _ he')
    refine ⟨hrest.owns, fun p hp => ?_, hfirst.kept.trans hrest.kept fun p hp hw => ?_, ?_⟩
    · rcases hrest.points p hp with hp | hp
      · exact hfirst.points p hp
      · exact .inr (hfirst.kept.length.trans hp)
    · rcases hfirst.points p hw with hw | hw
      · exact hw
      · exact absurd hp (Nat.not_lt.mpr hw)
    · refine hrest.value.trans ?_
      rw [hfirst.value, hvalues, merge_assoc, map_cons, mergeAll_cons]

theorem points_empty (p : ℕ) : ¬Points DiffObject.empty.storageDiffs p := by
  rintro ⟨addr, haddr⟩
  rw [DiffObject.empty, AList.lookup_empty] at haddr
  exact Option.some_ne_none _ haddr.symm

theorem value_empty (maps : Maps) : DiffObject.empty.value maps = empty := rfl

variable {response : PreConfirmedBlock W Z S H}

theorem adaptPreConfirmedBlock_spec (maps : Maps) (number : ℕ)
    (hps : parts A response.transactions response.transactionStateDiffs response.receipts = .ok ps) :
    ∃ r, adaptPreConfirmedBlock A maps response number = .ok r ∧ Kept maps r.1 (fun _ => False) ∧
      Good A r.1 response r.2 ∧ r.2.header.number = number ∧
      r.2.value r.1 = blockValue number response.header response.blockIdentifier ∅ ps := by
  obtain ⟨a, ha, hof, hkept⟩ := adaptLoop_spec maps hps
  have hmerged : Merged a.maps DiffObject.empty (mergeDiffs (a.maps, DiffObject.empty) a.stateDiffs) _ :=
    mergeDiffs_merged (Owns.empty a.maps) hof.allocated fun _ _ p _ hp => points_empty p hp
  have hnew : Kept a.maps (mergeDiffs (a.maps, DiffObject.empty) a.stateDiffs).1 fun _ => False :=
    ⟨hmerged.kept.length, fun p hp _ => hmerged.kept.same p hp (points_empty p)⟩
  have hdiffs : a.stateDiffs.map (DiffObject.value (mergeDiffs (a.maps, DiffObject.empty) a.stateDiffs).1) =
      diffsOf ps :=
    (map_value_kept hnew hof.allocated fun _ _ _ _ hf => hf).trans hof.stateDiffs
  have hmerge : (mergeDiffs (a.maps, DiffObject.empty) a.stateDiffs).2.value
      (mergeDiffs (a.maps, DiffObject.empty) a.stateDiffs).1 = mergeAll (diffsOf ps) := by
    rw [hmerged.value, value_empty, empty_merge, hof.stateDiffs]
  have hvalue : (a.block (mergeDiffs (a.maps, DiffObject.empty) a.stateDiffs).2 response number).value
      (mergeDiffs (a.maps, DiffObject.empty) a.stateDiffs).1 =
      blockValue number response.header response.blockIdentifier ∅ ps := by
    rw [value, blockValue]
    simp only [Adapted.block, hdiffs, hmerge, hof.transactions, length_map, hof.receipts, hof.eventCount]
  exact ⟨((mergeDiffs (a.maps, DiffObject.empty) a.stateDiffs).1,
      a.block (mergeDiffs (a.maps, DiffObject.empty) a.stateDiffs).2 response number),
    by rw [adaptPreConfirmedBlock, ha, ok_bind], hkept.trans hnew fun _ _ hf => hf,
    ⟨hmerged.owns.allocated, fun d hd => (hof.allocated d hd).mono hnew.length, ps, hps, hvalue⟩, rfl, hvalue⟩

theorem parts_of_adaptPreConfirmedBlock {number : ℕ} {r : Maps × PreConfirmed H T Y}
    (h : adaptPreConfirmedBlock A maps response number = .ok r) :
    ∃ ps, parts A response.transactions response.transactionStateDiffs response.receipts = .ok ps := by
  rw [adaptPreConfirmedBlock] at h
  obtain ⟨a, ha, -⟩ := bind_eq_ok.mp h
  exact parts_of_adaptLoop ha

/-! ### A delta -/

theorem adaptNext_ok {tx : W} {r : TxPart T Y × List S × List (Receipt Z)}
    (h : adaptNext A tx stateDiffs receipts = .ok r) :
    ∃ stateDiff receipt, stateDiffs = stateDiff :: r.2.1 ∧ receipts = receipt :: r.2.2 ∧
      ∀ stateDiffs' receipts', adaptNext A tx (stateDiff :: stateDiffs') (receipt :: receipts') =
        .ok (r.1, stateDiffs', receipts') := by
  rw [adaptNext] at h
  cases htx : A.adaptTransaction tx with
  | none =>
    rw [htx] at h
    cases h
  | some tx' =>
    rw [htx] at h
    rcases stateDiffs with - | ⟨stateDiff, stateDiffs⟩
    · cases h
    simp only at h
    cases hdiff : A.adaptStateDiff stateDiff with
    | none =>
      rw [hdiff] at h
      cases h
    | some diff =>
      rw [hdiff] at h
      rcases receipts with - | ⟨receipt, receipts⟩
      · cases h
      cases h
      exact ⟨stateDiff, receipt, rfl, rfl, fun _ _ => by rw [adaptNext, htx]; simp only [hdiff]⟩

theorem parts_append {txs' : List W} {stateDiffs' : List S} {receipts' : List (Receipt Z)}
    {ps' : List (TxPart T Y)} (h : parts A txs stateDiffs receipts = .ok ps)
    (h' : parts A txs' stateDiffs' receipts' = .ok ps') :
    parts A (txs ++ txs') (stateDiffs.take txs.length ++ stateDiffs')
      (receipts.take txs.length ++ receipts') = .ok (ps ++ ps') := by
  induction txs generalizing stateDiffs receipts ps with
  | nil =>
    cases h
    exact h'
  | cons tx txs ih =>
    rw [parts] at h
    obtain ⟨r, hr, h⟩ := bind_eq_ok.mp h
    obtain ⟨qs, hqs, h⟩ := bind_eq_ok.mp h
    cases h
    obtain ⟨stateDiff, receipt, rfl, rfl, hnext⟩ := adaptNext_ok hr
    rw [length_cons, take_succ_cons, take_succ_cons, cons_append, cons_append, cons_append,
      parts, hnext, ok_bind, ih hqs, ok_bind]
    rfl

theorem length_parts (h : parts A txs stateDiffs receipts = .ok ps) : ps.length = txs.length := by
  induction txs generalizing stateDiffs receipts ps with
  | nil =>
    cases h
    rfl
  | cons tx txs ih =>
    rw [parts] at h
    obtain ⟨r, -, h⟩ := bind_eq_ok.mp h
    obtain ⟨qs, hqs, h⟩ := bind_eq_ok.mp h
    cases h
    rw [length_cons, length_cons, ih hqs]

/-- What the loop over the transactions of a delta leaves. -/
structure Extended (maps : Maps) (next : DiffObject) (r : Adapted T Y × DiffObject)
    (ps : List (TxPart T Y)) : Prop where
  adapted : r.1.Of maps ps
  owns : Owns r.1.maps r.2.storageDiffs
  /-- They are its old ones and new ones. -/
  points : ∀ p, Points r.2.storageDiffs p → Points next.storageDiffs p ∨ maps.length ≤ p
  kept : Kept maps r.1.maps (Points next.storageDiffs)
  /-- The diff of the block has the new ones merged in. -/
  value : r.2.value r.1.maps = (next.value maps).merge (mergeAll (diffsOf ps))

theorem deltaLoop_extended {next : DiffObject} (h : Owns maps next.storageDiffs)
    {r : Adapted T Y × DiffObject} (hr : deltaLoop A maps next txs stateDiffs receipts = .ok r) :
    ∃ ps, parts A txs stateDiffs receipts = .ok ps ∧ Extended maps next r ps := by
  induction txs generalizing maps next stateDiffs receipts r with
  | nil =>
    rw [deltaLoop] at hr
    cases hr
    exact ⟨[], rfl,
      ⟨rfl, rfl, rfl, rfl, fun _ hd => (by cases hd), fun _ hd => by cases hd⟩, h,
      fun _ hp => .inl hp, Kept.refl _ _, (merge_empty _).symm⟩
  | cons tx txs ih =>
    rw [deltaLoop] at hr
    obtain ⟨part, hpart, hr⟩ := bind_eq_ok.mp hr
    obtain ⟨r', hr', hok⟩ := bind_eq_ok.mp hr
    cases hok
    -- the new diff has maps of its own, and is merged into the diff of the block
    have hmade := allocDiff_made maps part.1.2.1
    have hsep : ∀ p, Points (allocDiff maps part.1.2.1).2.storageDiffs p → ¬Points next.storageDiffs p :=
      fun p hp hp' =>
      absurd (h.allocated p hp') (Nat.not_lt.mpr (hmade.fresh p hp))
    have hmerged := merge_merged (h.mono hmade.kept.length) hmade.owns.allocated hsep
    obtain ⟨ps, hps, hext⟩ := ih hmerged.owns hr'
    have hpoints :
      ∀ p, Points (merge (allocDiff maps part.1.2.1).1 next (allocDiff maps part.1.2.1).2).2.storageDiffs p →
        Points next.storageDiffs p ∨ maps.length ≤ p := fun p hp =>
      (hmerged.points p hp).imp_right hmade.kept.length.trans
    have hsep' : ∀ p, Points (allocDiff maps part.1.2.1).2.storageDiffs p →
        ¬Points (merge (allocDiff maps part.1.2.1).1 next (allocDiff maps part.1.2.1).2).2.storageDiffs
          p := by
      intro p hp hp'
      rcases hmerged.points p hp' with hp' | hp'
      · exact hsep p hp hp'
      · exact absurd (hmade.owns.allocated p hp) (Nat.not_lt.mpr hp')
    have hle :
        maps.length ≤ (merge (allocDiff maps part.1.2.1).1 next (allocDiff maps part.1.2.1).2).1.length :=
      hmade.kept.length.trans hmerged.kept.length
    have hvalue : (allocDiff maps part.1.2.1).2.value r'.1.maps = part.1.2.1.value := by
      rw [DiffObject.value_kept hext.kept
        (fun p hp => (hmade.owns.allocated p hp).trans_le hmerged.kept.length) hsep',
        DiffObject.value_kept hmerged.kept hmade.owns.allocated hsep]
      exact hmade.value
    have hnext : next.value (allocDiff maps part.1.2.1).1 = next.value maps :=
      DiffObject.value_kept hmade.kept h.allocated fun _ _ hf => hf
    refine ⟨part.1 :: ps, by rw [parts, hpart, ok_bind, hps, ok_bind], ?_, hext.owns, fun p hp => ?_, ?_, ?_⟩
    · exact hext.adapted.cons hle hvalue
        (fun p hp => (hmade.owns.allocated p hp).trans_le (hmerged.kept.length.trans hext.kept.length))
          hmade.fresh
    · rcases hext.points p hp with hp | hp
      · exact hpoints p hp
      · exact .inr (hle.trans hp)
    · have hfirst : Kept maps (merge (allocDiff maps part.1.2.1).1 next (allocDiff maps part.1.2.1).2).1
          (Points next.storageDiffs) :=
        Kept.trans ⟨hmade.kept.length, fun p hp _ => hmade.kept.same p hp fun hf => hf⟩ hmerged.kept
          fun _ _ hw => hw
      refine hfirst.trans hext.kept fun p hp hw => ?_
      rcases hpoints p hw with hw | hw
      · exact hw
      · exact absurd hp (Nat.not_lt.mpr hw)
    · refine hext.value.trans ?_
      rw [hmerged.value, hnext, hmade.value, merge_assoc, ← mergeAll_cons]
      rfl

/-- The wire block with the transactions of a delta appended; what goes beyond the transactions was not
read. -/
def PreConfirmedBlock.appendDelta (b : PreConfirmedBlock W Z S H) (delta : PreConfirmedDeltaUpdate W Z S) :
    PreConfirmedBlock W Z S H :=
  { b with
    transactions := b.transactions ++ delta.transactions
    receipts := b.receipts.take b.transactions.length ++ delta.receipts
    transactionStateDiffs :=
      b.transactionStateDiffs.take b.transactions.length ++ delta.transactionStateDiffs }

theorem adaptPreConfirmedWithDelta_spec {current next : PreConfirmed H T Y}
    {delta : PreConfirmedDeltaUpdate W Z S} (h : Good A maps source current)
    (hnext : adaptPreConfirmedWithDelta A maps current delta = .ok (maps', next)) :
    Kept maps maps' (fun _ => False) ∧ Good A maps' (source.appendDelta delta) next ∧
      next.header.number = current.header.number ∧
      next.newClasses = current.newClasses ∧
        next.receipts.take current.receipts.length = current.receipts := by
  rw [adaptPreConfirmedWithDelta] at hnext
  split_ifs at hnext with hid
  obtain ⟨r, hr, hok⟩ := bind_eq_ok.mp hnext
  cases hok
  have hcopied : Merged maps DiffObject.empty (merge maps DiffObject.empty current.stateDiff) _ :=
    merge_merged (Owns.empty maps) h.stateDiff fun p _ hp => points_empty p hp
  obtain ⟨ps', hps', hext⟩ := deltaLoop_extended hcopied.owns hr
  have hnew : ∀ p, Points (merge maps DiffObject.empty current.stateDiff).2.storageDiffs p →
      maps.length ≤ p := fun p hp =>
    (hcopied.points p hp).resolve_left (points_empty p)
  have hkept : Kept maps r.1.maps fun _ => False := by
    refine ⟨hcopied.kept.length.trans hext.kept.length, fun p hp _ => ?_⟩
    rw [hext.kept.same p (hp.trans_le hcopied.kept.length) fun hw => absurd hp (Nat.not_lt.mpr (hnew p hw)),
      hcopied.kept.same p hp (points_empty p)]
  obtain ⟨ps, hps, hvalue⟩ := h.made
  have hcurrent := (value_kept h hkept).trans hvalue
  have htxs : current.transactions = ps.map fun p => p.1 := congrArg PreConfirmedValue.transactions hvalue
  have hreceipts : current.receipts = ps.map fun p => p.2.2 := congrArg PreConfirmedValue.receipts hvalue
  have hheader : current.header = ⟨current.header.number, ps.length, eventsOf ps, source.header⟩ :=
    congrArg PreConfirmedValue.header hvalue
  have hid' : current.blockIdentifier = source.blockIdentifier :=
    congrArg PreConfirmedValue.blockIdentifier hvalue
  have hdiffs : current.transactionStateDiffs.map (DiffObject.value r.1.maps) = diffsOf ps :=
    congrArg PreConfirmedValue.transactionStateDiffs hcurrent
  have hdiff : current.stateDiff.value maps = mergeAll (diffsOf ps) :=
    congrArg PreConfirmedValue.stateDiff hvalue
  have hlen : delta.transactions.length = ps'.length := (length_parts hps').symm
  refine ⟨hkept, ⟨hext.owns.allocated, ?_, ps ++ ps', ?_, ?_⟩, rfl, rfl, ?_⟩
  · intro d hd
    rcases mem_append.mp hd with hd | hd
    · exact (h.transactionStateDiffs d hd).mono hkept.length
    · exact hext.adapted.allocated d hd
  · simp only [PreConfirmedBlock.appendDelta]
    exact parts_append hps hps'
  · rw [value, blockValue]
    simp only [PreConfirmedBlock.appendDelta, map_append, hdiffs, hext.adapted.stateDiffs,
      hext.adapted.transactions,
      hext.adapted.receipts, ← htxs, ← hreceipts, hext.value, hcopied.value, value_empty, empty_merge, hdiff,
      diffsOf, mergeAll_append, hid']
    congr 1
    rw [hheader]
    simp only [length_append, eventsOf, map_append, sum_append, hlen, hext.adapted.eventCount]
  · exact take_left

end Juno.Preconfirmed
