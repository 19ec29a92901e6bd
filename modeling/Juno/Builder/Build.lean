import Juno.Builder.Executor
import Mathlib

/-!
# What is in a block that is being built

The main result is `build_state`.
-/

namespace Juno.Builder

open Lib Preconfirmed Proposer DiffObject List DiffValue AList DiffRef BroadcastedTransaction

variable {T X Y : Type} {V : Type} {vs : List DiffValue} {classHash k : Felt} {d : DiffRef}

/-! ### Adapted diffs -/

variable (l : List (Felt × V))

theorem lookup_foldl_insert_pairs (m : GoMap Felt V) (k : Felt) :
    (l.foldl (fun m p => m.insert p.1 p.2) m).lookup k = (lastOf l k).or (m.lookup k) := by
  induction l generalizing m with
  | nil => rfl
  | cons p l ih =>
    rw [foldl_cons, ih, lastOf, lastOf, reverse_cons, lookup_append, Option.or_assoc]
    congr 1
    obtain ⟨k', v⟩ := p
    by_cases h : k = k'
    · subst h
      simp
    · have hne : (k == k') = false := beq_eq_false_iff_ne.mpr h
      rw [lookup_insert_ne h, lookup_cons, hne]
      rfl

theorem lookup_ofPairs (k : Felt) : (ofPairs l).lookup k = lastOf l k := by
  rw [ofPairs, lookup_foldl_insert_pairs, lookup_empty, Option.or_none]

theorem lastOf_map {V' : Type} (f : V → V') (k : Felt) :
    lastOf (l.map fun p => (p.1, f p.2)) k = (lastOf l k).map f := by
  rw [lastOf, lastOf, ← map_reverse]
  induction l.reverse with
  | nil => rfl
  | cons p l ih =>
    rw [map_cons, lookup_cons, lookup_cons, ih]
    cases k == p.1 <;> rfl

/-- What a diff says apart from the deprecated classes. -/
def plain (v : DiffValue) : DiffValue := { v with declaredV0 := [] }

theorem plain_merge (v w : DiffValue) : plain (v.merge w) = (plain v).merge (plain w) := rfl

theorem plain_mergeAll (vs : List DiffValue) : plain (mergeAll vs) = mergeAll (vs.map plain) := by
  induction vs with
  | nil => rfl
  | cons v vs ih => rw [map_cons, mergeAll_cons, mergeAll_cons, plain_merge, ih]

/-- The adapted maps say what the machine's diff says, the deprecated classes apart. -/
theorem value_adaptMaps (d : VmStateDiff) : (adaptMaps d).value = plain d.value := by
  refine DiffValue.ext (funext fun addr => ?_) (funext fun k => lookup_ofPairs _ k)
    (funext fun k => lookup_ofPairs _ k) rfl
    (funext fun k => lookup_ofPairs _ k) (funext fun k => lookup_ofPairs _ k)
      (funext fun k => lookup_ofPairs _ k)
  simp only [StateDiff.value, adaptMaps, plain, VmStateDiff.value, lookup_ofPairs, lastOf_map, Option.map_map]
  congr 1
  funext entries k
  exact lookup_ofPairs entries k

structure AdaptedRefs (maps : Maps) (r : Maps × List DiffRef) (ds : List (Option VmStateDiff)) : Prop where
  kept : Kept maps r.1 fun _ => False
  allocated : ∀ d ∈ r.2, d.object.Allocated r.1
  fresh : ∀ d ∈ r.2, ∀ p, Points d.object.storageDiffs p → maps.length ≤ p
  /-- The diffs say what the machine's diffs say, the deprecated classes apart. -/
  values : r.2.map (fun d => d.object.value r.1) = ds.map fun d => plain (diffValue d)
  /-- Of the deprecated classes there are as many nil pointers. -/
  nils : r.2.map (fun d => d.declaredV0Classes) = ds.map
    fun d => List.replicate (diffValue d).declaredV0.length none

theorem adaptStateDiff_made (maps : Maps) (d : Option VmStateDiff) :
    Kept maps (adaptStateDiff maps d).1 (fun _ => False) ∧
      (adaptStateDiff maps d).2.object.Allocated (adaptStateDiff maps d).1 ∧
      (∀ p, Points (adaptStateDiff maps d).2.object.storageDiffs p → maps.length ≤ p) ∧
      (adaptStateDiff maps d).2.object.value (adaptStateDiff maps d).1 = plain (diffValue d) ∧
      (adaptStateDiff maps d).2.declaredV0Classes = List.replicate (diffValue d).declaredV0.length none := by
  cases d with
  | none =>
    exact ⟨Kept.refl _ _, fun p hp => absurd hp (points_empty p), fun p hp => absurd hp (points_empty p), rfl,
      rfl⟩
  | some d =>
    have hmade := allocDiff_made maps (adaptMaps d)
    exact ⟨hmade.kept, hmade.owns.allocated, hmade.fresh, hmade.value.trans (value_adaptMaps d), rfl⟩

theorem adaptStateDiffs_adapted (maps : Maps) (ds : List (Option VmStateDiff)) :
    AdaptedRefs maps (adaptStateDiffs maps ds) ds := by
  induction ds generalizing maps with
  | nil =>
    exact ⟨Kept.refl _ _, fun d hd => (by cases hd), fun d hd => (by cases hd), rfl, rfl⟩
  | cons d ds ih =>
    obtain ⟨hkept, halloc, hfresh, hvalue, hnils⟩ := adaptStateDiff_made maps d
    have hrest := ih (adaptStateDiff maps d).1
    have hfirst := value_kept hrest.kept halloc fun _ _ hf => hf
    refine ⟨hkept.trans hrest.kept fun _ _ hf => hf, ?_, ?_, ?_, ?_⟩
    · intro e he
      rcases mem_cons.mp he with rfl | he
      · exact halloc.mono hrest.kept.length
      · exact hrest.allocated e he
    · intro e he
      rcases mem_cons.mp he with rfl | he
      · exact hfresh
      · exact fun p hp => hkept.length.trans (hrest.fresh e he p hp)
    · rw [adaptStateDiffs, map_cons, map_cons, hrest.values, hfirst, hvalue]
    · rw [adaptStateDiffs, map_cons, map_cons, hrest.nils, hnils]

/-- The merges, apart from the deprecated classes and for these alone. -/
theorem foldl_mergeRef (ds : List DiffRef) (r : Maps × DiffRef) :
    ds.foldl mergeRef r =
      ((mergeDiffs (r.1, r.2.object) (ds.map object)).1,
        ⟨(mergeDiffs (r.1, r.2.object) (ds.map object)).2,
          r.2.declaredV0Classes ++ (ds.map DiffRef.declaredV0Classes).flatten⟩) := by
  induction ds generalizing r with
  | nil => simp [mergeDiffs]
  | cons d ds ih =>
    rw [foldl_cons, ih, mergeRef]
    simp [mergeDiffs]

/-! ### Cloning -/

variable {maps : Maps}

/-- A diff in memory as a value, with its storage maps. -/
def contents (maps : Maps) (d : DiffObject) : StateDiff :=
  ⟨d.storageDiffs.mapVals fun _ p => maps.read p, d.nonces, d.deployedContracts, d.declaredV0Classes,
    d.declaredV1Classes,
    d.replacedClasses, d.migratedClasses⟩

theorem value_contents (maps : Maps) (d : DiffObject) : (contents maps d).value = d.value maps := by
  rw [StateDiff.value, value]
  congr 1
  funext addr
  rw [contents, GoMap.lookup_mapVals, Option.map_map]
  rfl

theorem foldl_cloneStep {l : List (Σ _ : Felt, ℕ)} (hl : ∀ e ∈ l, e.2 < maps.length) {r : Maps × GoMap Felt ℕ}
    (hr : maps <+: r.1) :
    l.foldl cloneStep r = (l.map fun e => (⟨e.1, maps.read e.2⟩ : Σ _ : Felt, GoMap Felt Felt)).foldl
      allocStep r := by
  induction l generalizing r with
  | nil => rfl
  | cons e l ih =>
    have hread : r.1.read e.2 = maps.read e.2 := by
      obtain ⟨more, hmore⟩ := hr
      rw [← hmore, Maps.read, Maps.read, getD_append _ _ _ _ (hl e mem_cons_self)]
    have hstep : cloneStep r e = allocStep r ⟨e.1, maps.read e.2⟩ := by rw [cloneStep, allocStep, hread]
    rw [foldl_cons, map_cons, foldl_cons, hstep]
    exact ih (fun e' he' => hl e' (mem_cons_of_mem _ he')) (hr.trans (prefix_append _ _))

theorem cloneStateDiff_eq (h : d.object.Allocated maps) : cloneStateDiff maps d =
      ((allocDiff maps (contents maps d.object)).1,
        ⟨(allocDiff maps (contents maps d.object)).2, d.declaredV0Classes⟩) := by
  have hentries : ∀ e ∈ d.object.storageDiffs.entries, e.2 < maps.length := fun e he =>
    h e.2 ⟨e.1, mem_lookup_iff.mpr he⟩
  rw [cloneStateDiff, foldl_cloneStep hentries prefix_rfl]
  rfl

/-! ### What a batch writes to -/

variable {head : Felt → ClassLookup}

/-- The maps of a block: those of its diff are its own. -/
structure Sound (maps : Maps) (s : BuildState T Y) : Prop where
  owns : Owns maps s.stateDiff.object.storageDiffs
  allocated : ∀ d ∈ s.transactionStateDiffs, d.object.Allocated maps

/-- A declaration changes the classes of the block. -/
def BuildState.declare (s : BuildState T Y) (classHash : Felt) (compiledClassHash : Option Felt)
    (definition : Option ClassDefinition) : BuildState T Y :=
  { s with
    newClasses := s.newClasses.insert classHash definition
    stateDiff :=
      ⟨{ s.stateDiff.object with
          declaredV1Classes :=
            compiledClassHash.elim s.stateDiff.object.declaredV1Classes fun c =>
              s.stateDiff.object.declaredV1Classes.insert classHash c },
        appendDeprecated s.stateDiff.declaredV0Classes classHash definition⟩ }

theorem processClassDeclaration_ok {t : BroadcastedTransaction T} {s s' : BuildState T Y}
    (h : processClassDeclaration head t s = .ok s') :
    (∃ rest, t.transaction = .other rest ∧ s' = s) ∨
      ∃ classHash compiledClassHash rest, t.transaction = .declare classHash compiledClassHash rest ∧
        classHash ∉ s.newClasses ∧ s' = s.declare classHash compiledClassHash t.declaredClass := by
  rw [processClassDeclaration] at h
  cases htx : t.transaction with
  | other rest =>
    rw [htx] at h
    exact .inl ⟨rest, rfl, (Except.ok.inj h).symm⟩
  | declare classHash compiledClassHash rest =>
    rw [htx] at h
    obtain ⟨s₁, hs₁, h⟩ := bind_eq_ok.mp h
    rw [setContractClass] at hs₁
    split_ifs at hs₁ with hmem
    cases hhead : head classHash with
    | found | failed =>
      rw [hhead] at hs₁
      cases hs₁
    | notFound =>
      rw [hhead] at hs₁
      cases hs₁
      refine .inr ⟨classHash, compiledClassHash, rest, rfl, hmem, ?_⟩
      cases compiledClassHash with
      | none | some => exact (Except.ok.inj h).symm

/-- Declaring classes changes the classes and nothing else. -/
theorem declareClasses_frame (head : Felt → ClassLookup) (ps : List (Executed T X)) (s : BuildState T Y) :
    ∃ newClasses declaredV0Classes declaredV1Classes, (declareClasses head ps s).1 =
      { s with
        newClasses := newClasses
        stateDiff :=
          ⟨{ s.stateDiff.object with declaredV1Classes := declaredV1Classes }, declaredV0Classes⟩ } := by
  fun_induction declareClasses head ps s
  case case4 p ps s _ _ _ s₁ hp ih =>
    rcases processClassDeclaration_ok hp with ⟨-, -, rfl⟩ | ⟨classHash, compiledClassHash, -, -, -, rfl⟩
      <;> exact ih
  case case5 ih => exact ih
  all_goals exact ⟨_, _, _, rfl⟩

theorem merged_adapted (h : Owns maps d.object.storageDiffs) {r : Maps × List DiffRef}
    {ds : List (Option VmStateDiff)} (hr : AdaptedRefs maps r ds) :
    Merged r.1 d.object (mergeDiffs (r.1, d.object) (r.2.map object))
      ((d.object.value maps).merge (mergeAll (ds.map fun d => plain (diffValue d)))) := by
  have hobject : d.object.value r.1 = d.object.value maps := value_kept hr.kept h.allocated fun _ _ hf => hf
  have hvalues : (r.2.map object).map (value r.1) = ds.map fun d => plain (diffValue d) := by
    rw [map_map, ← hr.values]
    rfl
  have hallocated : ∀ e ∈ r.2.map object, e.Allocated r.1 := by
    intro e he
    obtain ⟨e', he', rfl⟩ := mem_map.mp he
    exact hr.allocated e' he'
  have hmerged := mergeDiffs_merged (h.mono hr.kept.length) hallocated (fun e he p hp hp' => by
    obtain ⟨e', he', rfl⟩ := mem_map.mp he
    exact absurd (h.allocated p hp') (Nat.not_lt.mpr (hr.fresh e' he' p hp)))
  rwa [hobject, hvalues] at hmerged

variable {adaptReceipt : CoreTransaction T → TxResult X → Receipt Y}

/-- **What `RunTxns` does**: nothing for an empty batch; an error leaves the storage maps; or the results are
added after the classes are declared. -/
theorem runTxns_cases (adaptReceipt : CoreTransaction T → TxResult X → Receipt Y) (maps : Maps)
    (s : BuildState T Y) (a : Attempt T X) :
    (a.txns = [] ∧ runTxns adaptReceipt maps s a = ((maps, s), none)) ∨
    (∃ err, (runTxns adaptReceipt maps s a).2 = some err ∧ (runTxns adaptReceipt maps s a).1.1 = maps) ∨
    ∃ head results, a.buildBlock = some results ∧ (declareClasses head (a.txns.zip results) s).2 = none ∧
      runTxns adaptReceipt maps s a =
        (addResults adaptReceipt maps (declareClasses head (a.txns.zip results) s).1 a.txns results,
          none) := by
  fun_cases runTxns adaptReceipt maps s a
  case case1 hempty => exact .inl ⟨hempty, rfl⟩
  case case5 head _ results hbuild _ hdeclared => exact .inr (.inr ⟨head, results, hbuild, hdeclared, rfl⟩)
  all_goals exact .inr (.inl ⟨_, rfl, rfl⟩)

variable {s : BuildState T Y}

/-- Adding results writes into the maps of the block's diff, and into new ones. -/
theorem addResults_frame (adaptReceipt : CoreTransaction T → TxResult X → Receipt Y) (h : Sound maps s)
    (txns : List (BroadcastedTransaction T)) (results : List (TxResult X)) :
    Sound (addResults adaptReceipt maps s txns results).1 (addResults adaptReceipt maps s txns results).2 ∧
      Kept maps (addResults adaptReceipt maps s txns results).1 (Points s.stateDiff.object.storageDiffs) := by
  have hadapted := adaptStateDiffs_adapted maps (results.map fun r => r.stateDiff)
  have hmerged := merged_adapted h.owns hadapted
  rw [addResults, updatePreconfirmedBlock]
  simp only [foldl_mergeRef]
  refine ⟨⟨hmerged.owns, ?_⟩, (hadapted.kept.mono fun _ _ hf => hf.elim).trans hmerged.kept fun _ _ hp => hp⟩
  intro d hd
  rcases mem_append.mp hd with hd | hd
  · exact (h.allocated d hd).mono (hadapted.kept.length.trans hmerged.kept.length)
  · exact (hadapted.allocated d hd).mono hmerged.kept.length

theorem Sound.declareClasses (h : Sound maps s) (head : Felt → ClassLookup) (ps : List (Executed T X)) :
    Sound maps (declareClasses head ps s).1 ∧
      (Builder.declareClasses head ps s).1.stateDiff.object.storageDiffs =
        s.stateDiff.object.storageDiffs := by
  obtain ⟨newClasses, declaredV0Classes, declaredV1Classes, heq⟩ := declareClasses_frame head ps s
  rw [heq]
  exact ⟨⟨h.owns, h.allocated⟩, rfl⟩

/-- A clone has maps of its own and says what the block says. -/
theorem Sound.clone (h : Sound maps s) :
    Sound (s.clone maps).1 (s.clone maps).2 ∧ Kept maps (s.clone maps).1 (fun _ => False) ∧
      (∀ p, Points (s.clone maps).2.stateDiff.object.storageDiffs p → maps.length ≤ p) ∧
      (s.clone maps).2.stateDiff.object.value (s.clone maps).1 = s.stateDiff.object.value maps := by
  have hmade := allocDiff_made maps (contents maps s.stateDiff.object)
  rw [value_contents] at hmade
  rw [BuildState.clone, cloneStateDiff_eq h.owns.allocated]
  exact ⟨⟨hmade.owns, fun d hd => (h.allocated d hd).mono hmade.kept.length⟩, hmade.kept,
    hmade.fresh, hmade.value⟩

variable {p : Proposer T Y}

namespace Proposer

/-- **A batch writes into maps of its own**, whether it succeeds or not. -/
theorem runTransactions_frame (adaptReceipt : CoreTransaction T → TxResult X → Receipt Y)
    (h : Sound p.maps p.buildState) (a : Attempt T X) :
    Kept p.maps (p.runTransactions adaptReceipt a).1.maps (fun _ => False) ∧
      Sound (p.runTransactions adaptReceipt a).1.maps (p.runTransactions adaptReceipt a).1.buildState := by
  obtain ⟨hclone, hkept, hfresh, -⟩ := h.clone
  rw [runTransactions]
  rcases runTxns_cases adaptReceipt (p.buildState.clone p.maps).1 (p.buildState.clone p.maps).2 a with
    ⟨-, hr⟩ | ⟨err, herr, hmaps⟩ | ⟨head, results, -, -, hr⟩
  · simp only [hr]
    exact ⟨hkept, hclone⟩
  · simp only [herr, hmaps]
    exact ⟨hkept, h.owns.mono hkept.length, fun d hd => (h.allocated d hd).mono hkept.length⟩
  · simp only [hr]
    obtain ⟨hdeclared, hsame⟩ := hclone.declareClasses head (a.txns.zip results)
    obtain ⟨hsound, hwritten⟩ := addResults_frame adaptReceipt hdeclared a.txns results
    refine ⟨hkept.trans hwritten fun q hq hp => ?_, hsound⟩
    rw [hsame] at hp
    exact absurd hq (Nat.not_lt.mpr (hfresh q hp))

theorem sound_init : Sound (init : Proposer T Y).maps (init : Proposer T Y).buildState :=
  ⟨Owns.empty _, fun _ hd => by cases hd⟩

theorem sound_run (attempts : List (Attempt T X)) (h : Sound p.maps p.buildState) :
    Sound (p.run adaptReceipt attempts).maps (p.run adaptReceipt attempts).buildState := by
  induction attempts generalizing p with
  | nil => exact h
  | cons a attempts ih => exact ih (runTransactions_frame adaptReceipt h a).2

end Proposer

/-! ### What is seen of a block -/

/-- What a reader of the block sees. -/
structure BuildView (T Y : Type) where
  transactionCount : ℕ
  eventCount : ℕ
  transactions : List (CoreTransaction T)
  receipts : List (Receipt Y)
  /-- `TransactionStateDiffs`: what each says, and its deprecated classes. -/
  transactionStateDiffs : List (DiffValue × List (Option Felt))
  /-- `StateUpdate.StateDiff`: what it says, and its deprecated classes. -/
  stateDiff : DiffValue × List (Option Felt)
  newClasses : GoMap Felt (Option ClassDefinition)
  l2GasConsumed : ℕ

def DiffRef.view (maps : Maps) (d : DiffRef) : DiffValue × List (Option Felt) :=
  (d.object.value maps, d.declaredV0Classes)

def Proposer.view (p : Proposer T Y) : BuildView T Y :=
  ⟨p.buildState.transactionCount, p.buildState.eventCount, p.buildState.transactions, p.buildState.receipts,
    p.buildState.transactionStateDiffs.map (DiffRef.view p.maps), p.buildState.stateDiff.view p.maps,
      p.buildState.newClasses,
    p.buildState.l2GasConsumed⟩

variable {a : Attempt T X}

/-- A batch that fails leaves the proposer's block as it was. -/
theorem Proposer.view_of_error (h : Sound p.maps p.buildState) {err : RunError}
    (herr : (p.runTransactions adaptReceipt a).2 = some err) :
    (p.runTransactions adaptReceipt a).1.view = p.view := by
  obtain ⟨hkept, -⟩ := runTransactions_frame adaptReceipt h a
  have hstate : (p.runTransactions adaptReceipt a).1.buildState = p.buildState := by
    rw [runTransactions] at herr ⊢
    cases hr : (runTxns adaptReceipt (p.buildState.clone p.maps).1 (p.buildState.clone p.maps).2 a).2 with
    | some err' => simp only
    | none =>
      simp only [hr] at herr
      cases herr
  have hview : ∀ d : DiffRef, d.object.Allocated p.maps → d.view (p.runTransactions adaptReceipt a).1.maps =
      d.view p.maps := by
    intro d hd
    rw [DiffRef.view, DiffRef.view, value_kept hkept hd fun _ _ hf => hf]
  rw [view, view, hstate, hview _ h.owns.allocated, map_congr_left fun d hd => hview d (h.allocated d hd)]

/-! ### Batches without deprecated classes -/

variable {ps : List (Executed T X)} {results : List (TxResult X)} {done : List (Executed T X)}

def CoreTransaction.declared : CoreTransaction T → List Felt
  | .declare classHash _ _ => [classHash]
  | .other _ => []

def BroadcastedTransaction.Declares (t : BroadcastedTransaction T) (classHash : Felt)
    (definition : Option ClassDefinition) : Prop :=
  classHash ∈ t.transaction.declared ∧ t.declaredClass = definition

/-- **The transaction declares no deprecated class**, and the machine lists the class that it declares. -/
structure Plain (p : Executed T X) : Prop where
  /-- The machine lists no deprecated class, and of the others the one that is declared. -/
  listed : ∃ d, p.2.stateDiff = some d ∧ d.deprecatedDeclaredClasses.getD [] = [] ∧
    (d.declaredClasses.getD []).map Prod.fst = p.1.transaction.declared
  definition : p.1.transaction.declared ≠ [] → ∀ bytes, p.1.declaredClass ≠ some (.deprecatedCairo bytes)

/-- All transactions of the batch are such, and the gas can be added. -/
def Attempt.Lawful (a : Attempt T X) (s : BuildState T Y) : Prop :=
  ∀ results, a.buildBlock = some results →
    (∀ p ∈ a.txns.zip results, Plain p) ∧ s.l2GasConsumed + (results.map fun r => r.l2Gas).sum < 2 ^ 64

def Proposer.LawfulRun (adaptReceipt : CoreTransaction T → TxResult X → Receipt Y) (p : Proposer T Y) :
    List (Attempt T X) → Prop
  | [] => True
  | a :: attempts =>
    a.Lawful p.buildState ∧ LawfulRun adaptReceipt (p.runTransactions adaptReceipt a).1 attempts

theorem declareClasses_cons {p : Executed T X} (hp : Plain p)
    (hok : (declareClasses head (p :: ps) s).2 = none) :
    ∃ s₁, declareClasses head (p :: ps) s = declareClasses head ps s₁ ∧
      ((p.1.transaction.declared = [] ∧ s₁ = s) ∨
        ∃ classHash compiledClassHash, p.1.transaction.declared = [classHash] ∧ classHash ∉ s.newClasses ∧
          s₁ = s.declare classHash compiledClassHash p.1.declaredClass) := by
  obtain ⟨d, hd, -, hlisted⟩ := hp.listed
  rw [declareClasses, hd] at hok ⊢
  simp only at hok ⊢
  split_ifs at hok ⊢ with hdeclares
  · cases hprocess : processClassDeclaration head p.1 s with
    | error err =>
      rw [hprocess] at hok
      cases hok
    | ok s₁ =>
      refine ⟨s₁, rfl, ?_⟩
      rcases processClassDeclaration_ok hprocess
        with ⟨rest, htx, rfl⟩ | ⟨classHash, compiledClassHash, rest, htx, hnew, rfl⟩
      · exact .inl ⟨by rw [htx]; rfl, rfl⟩
      · exact .inr ⟨classHash, compiledClassHash, by rw [htx]; rfl, hnew, rfl⟩
  · refine ⟨s, rfl, .inl ⟨?_, rfl⟩⟩
    have hnone : d.declaredClasses = none := by
      rw [← Option.not_isSome_iff_eq_none]
      exact fun h => hdeclares (.inl h)
    rw [← hlisted, hnone]
    rfl

theorem appendDeprecated_eq {l : List (Option Felt)} {definition : Option ClassDefinition}
    (h : ∀ bytes, definition ≠ some (.deprecatedCairo bytes)) :
    appendDeprecated l classHash definition = l := by
  rcases definition with _ | ⟨bytes⟩ | _
  · rfl
  · exact absurd rfl (h bytes)
  · rfl

/-- **What declaring the classes of a batch comes to.** -/
theorem declareClasses_plain (hps : ∀ p ∈ ps, Plain p) (hok : (declareClasses head ps s).2 = none) :
    (declareClasses head ps s).1.stateDiff.declaredV0Classes = s.stateDiff.declaredV0Classes ∧
      (∀ classHash, (∀ p ∈ ps, classHash ∉ p.1.transaction.declared) →
        (declareClasses head ps s).1.stateDiff.object.declaredV1Classes.lookup classHash =
          s.stateDiff.object.declaredV1Classes.lookup classHash) ∧
      ∀ classHash definition, (declareClasses head ps s).1.newClasses.lookup classHash = some definition ↔
        s.newClasses.lookup classHash = some definition ∨ ∃ p ∈ ps, p.1.Declares classHash definition := by
  induction ps generalizing s with
  | nil => exact ⟨rfl, fun _ _ => rfl, fun _ _ => by simp [declareClasses]⟩
  | cons p ps ih =>
    have hp := hps p mem_cons_self
    obtain ⟨s₁, hrest, hs₁⟩ := declareClasses_cons hp hok
    rw [hrest] at hok ⊢
    obtain ⟨hV0, hV1, hclasses⟩ := ih (fun q hq => hps q (mem_cons_of_mem _ hq)) hok
    rcases hs₁ with ⟨hnone, rfl⟩ | ⟨classHash, compiledClassHash, hdeclared, hnew, rfl⟩
    · refine ⟨hV0, fun k hk => hV1 k fun q hq => hk q (mem_cons_of_mem _ hq), fun k c => ?_⟩
      rw [hclasses]
      simp [Declares, hnone]
    · refine ⟨hV0.trans (appendDeprecated_eq (hp.definition (by simp [hdeclared]))), fun k hk => ?_,
        fun k c => ?_⟩
      · have hne : k ≠ classHash := by
          have := hk p mem_cons_self
          rw [hdeclared] at this
          exact fun heq => this (heq ▸ mem_singleton_self _)
        rw [hV1 k fun q hq => hk q (mem_cons_of_mem _ hq), BuildState.declare]
        cases compiledClassHash with
        | none => rfl
        | some c => exact lookup_insert_ne hne
      · rw [hclasses, BuildState.declare]
        have hlookup : (s.newClasses.insert classHash p.1.declaredClass).lookup k = some c ↔
            s.newClasses.lookup k = some c ∨ p.1.Declares k c := by
          rw [Declares, hdeclared, mem_singleton]
          by_cases hk : k = classHash
          · subst hk
            rw [lookup_insert, lookup_eq_none.mpr hnew]
            simp
          · rw [lookup_insert_ne hk]
            simp [hk]
        simp only [hlookup, mem_cons, or_and_right, exists_or, exists_eq_left, or_assoc]

/-- **What the block holds**, given the transactions that were executed. -/
structure Built (adaptReceipt : CoreTransaction T → TxResult X → Receipt Y) (maps : Maps) (s : BuildState T Y)
    (done : List (Executed T X)) : Prop where
  transactions : s.transactions = done.map fun p => p.1.transaction
  receipts : s.receipts = done.map fun p => adaptReceipt p.1.transaction p.2
  stateDiffs : s.transactionStateDiffs.length = done.length
  count : s.transactionCount = done.length
  events : s.eventCount = (s.receipts.map fun r => r.events.length).sum
  /-- The diff is the merge of the machine's diffs, in order. -/
  diff : s.stateDiff.object.value maps = plain (DiffValue.mergeAll (done.map fun p => p.2.value))
  deprecated :
    s.stateDiff.declaredV0Classes = (DiffValue.mergeAll (done.map fun p => p.2.value)).declaredV0.map some
  listed : ∀ p ∈ done, ∀ classHash ∈ p.1.transaction.declared,
    some classHash ∈ s.stateDiff.declaredV0Classes ∨ classHash ∈ s.stateDiff.object.declaredV1Classes
  once : s.stateDiff.declaredV0Classes.Nodup ∧
    ∀ classHash, some classHash ∈ s.stateDiff.declaredV0Classes →
      classHash ∉ s.stateDiff.object.declaredV1Classes
  /-- `NewClasses` holds the declared definitions. -/
  classes : ∀ classHash definition, s.newClasses.lookup classHash = some definition ↔
    ∃ p ∈ done, p.1.Declares classHash definition
  gas : s.l2GasConsumed = (done.map fun p => p.2.l2Gas).sum

theorem lastOf_ne_none {l : List (Felt × V)} (h : k ∈ l.map Prod.fst) : lastOf l k ≠ none := by
  intro hnone
  obtain ⟨p, hp, rfl⟩ := mem_map.mp h
  have := lookup_eq_none_iff.mp hnone p (mem_reverse.mpr hp)
  simp at this

theorem mergeAll_declaredV1_ne_none {v : DiffValue} (hv : v ∈ vs) (hk : v.declaredV1 k ≠ none) :
    (mergeAll vs).declaredV1 k ≠ none := by
  induction vs with
  | nil => cases hv
  | cons w vs ih =>
    rw [DiffValue.mergeAll_cons, DiffValue.merge]
    simp only [overlay]
    rcases mem_cons.mp hv with rfl | hv
    · intro hnone
      exact hk (Option.or_eq_none_iff.mp hnone).2
    · intro hnone
      exact ih hv (Option.or_eq_none_iff.mp hnone).1

theorem mergeAll_declaredV0 (h : ∀ v ∈ vs, v.declaredV0 = []) : (mergeAll vs).declaredV0 = [] := by
  induction vs with
  | nil => rfl
  | cons v vs ih =>
    rw [DiffValue.mergeAll_cons, DiffValue.merge]
    simp only [h v mem_cons_self, ih fun w hw => h w (mem_cons_of_mem _ hw), append_nil]

theorem consumeGas_eq {n : ℕ} (h : n + (results.map fun r => r.l2Gas).sum < 2 ^ 64) :
    consumeGas n results = n + (results.map fun r => r.l2Gas).sum := by
  induction results generalizing n with
  | nil => rfl
  | cons r results ih =>
    rw [map_cons, sum_cons] at h ⊢
    have hmod : (n + r.l2Gas) % 2 ^ 64 = n + r.l2Gas := Nat.mod_eq_of_lt (by omega)
    rw [consumeGas, foldl_cons, hmod]
    exact (ih (by omega)).trans (Nat.add_assoc _ _ _)

theorem foldl_events (receipts : List (Receipt Y)) (n : ℕ) :
    receipts.foldl (fun n receipt => n + receipt.events.length) n =
      n + (receipts.map fun r => r.events.length).sum := by
  induction receipts generalizing n with
  | nil => rfl
  | cons r receipts ih => rw [foldl_cons, ih, map_cons, sum_cons, Nat.add_assoc]

theorem Plain.value_declaredV0 {p : Executed T X} (h : Plain p) : p.2.value.declaredV0 = [] := by
  obtain ⟨d, hd, hnone, -⟩ := h.listed
  rw [TxResult.value, diffValue, hd]
  exact hnone

theorem Plain.value_declaredV1 {p : Executed T X} (h : Plain p)
    (hdeclared : classHash ∈ p.1.transaction.declared) : p.2.value.declaredV1 classHash ≠ none := by
  obtain ⟨d, hd, -, hlisted⟩ := h.listed
  rw [TxResult.value, diffValue, hd]
  exact lastOf_ne_none (hlisted ▸ hdeclared)

theorem mergeAll_plain (h : ∀ p ∈ ps, Plain p) : (mergeAll (ps.map fun p => p.2.value)).declaredV0 = [] :=
  mergeAll_declaredV0 fun v hv => by
    obtain ⟨p, hp, rfl⟩ := mem_map.mp hv
    exact (h p hp).value_declaredV0

variable {txns : List (BroadcastedTransaction T)}

/-- What is read off the results is read off the pairs. -/
theorem map_snd_zip_results {Z : Type} (hlength : results.length = txns.length) (f : TxResult X → Z) :
    ((txns.zip results).map fun p => f p.2) = results.map f := by
  have hsnd : (txns.zip results).map Prod.snd = results := map_snd_zip (le_of_eq hlength)
  calc ((txns.zip results).map fun p => f p.2) = ((txns.zip results).map Prod.snd).map f := by
        rw [map_map]
        rfl
    _ = results.map f := by rw [hsnd]

theorem exists_zip_of_mem (hlength : results.length = txns.length) {r : TxResult X}
    (hr : r ∈ results) : ∃ t, (t, r) ∈ txns.zip results := by
  have hsnd : (txns.zip results).map Prod.snd = results := map_snd_zip (le_of_eq hlength)
  rw [← hsnd] at hr
  obtain ⟨p, hp, rfl⟩ := mem_map.mp hr
  exact ⟨p.1, hp⟩

theorem Built.clone (h : Built adaptReceipt maps s done) (hs : Sound maps s) :
    Built adaptReceipt (s.clone maps).1 (s.clone maps).2 done := by
  obtain ⟨-, -, -, hvalue⟩ := hs.clone
  exact { h with diff := hvalue.trans h.diff }

section

variable {s : BuildState T Y} {done : List (Executed T X)} {head : Felt → ClassLookup}
  {txns : List (BroadcastedTransaction T)} {results : List (TxResult X)}

/-- **The merge of a batch**: what was declared beforehand is what the machine lists. -/
theorem merge_declared (maps : Maps) (hlength : results.length = txns.length)
    (hplain : ∀ p ∈ txns.zip results, Plain p) (hok : (declareClasses head (txns.zip results) s).2 = none) :
    ((declareClasses head (txns.zip results) s).1.stateDiff.object.value maps).merge
        (mergeAll ((results.map fun r => r.stateDiff).map fun d => plain (diffValue d))) =
      (s.stateDiff.object.value maps).merge
        (plain (mergeAll ((txns.zip results).map fun p => p.2.value))) := by
  have hresults : (txns.zip results).map (fun p => p.2.value) = results.map TxResult.value :=
    map_snd_zip_results hlength TxResult.value
  have hvalues : (results.map fun r => r.stateDiff).map (fun d => plain (diffValue d)) =
      ((txns.zip results).map fun p => p.2.value).map plain := by
    rw [hresults, map_map, map_map]
    rfl
  obtain ⟨-, hV1, -⟩ := declareClasses_plain hplain hok
  obtain ⟨newClasses, declaredV0Classes, declaredV1Classes, heq⟩ :=
    declareClasses_frame head (txns.zip results) s
  rw [heq] at hV1 ⊢
  rw [hvalues, ← plain_mergeAll]
  -- only the declared classes differ, and of these the machine's diff has the last word
  simp only [DiffValue.merge, value]
  congr 1
  funext classHash
  simp only [overlay, plain]
  by_cases hdeclared : ∃ p ∈ txns.zip results, classHash ∈ p.1.transaction.declared
  · obtain ⟨p, hp, hmem⟩ := hdeclared
    have hvalue : p.2.value ∈ (txns.zip results).map fun p => p.2.value := mem_map.mpr ⟨p, hp, rfl⟩
    obtain ⟨c, hc⟩ := Option.ne_none_iff_exists'.mp
      (mergeAll_declaredV1_ne_none hvalue ((hplain p hp).value_declaredV1 hmem))
    rw [hc, Option.some_or, Option.some_or]
  · exact congrArg _ (hV1 classHash fun p hp hmem => hdeclared ⟨p, hp, hmem⟩)

theorem Built.batch (h : Built adaptReceipt maps s done) (hs : Sound maps s) (hdone : ∀ p ∈ done, Plain p)
    (hlength : results.length = txns.length) (hplain : ∀ p ∈ txns.zip results, Plain p)
    (hgas : s.l2GasConsumed + (results.map fun r => r.l2Gas).sum < 2 ^ 64)
    (hok : (declareClasses head (txns.zip results) s).2 = none) :
    Built adaptReceipt
      (addResults adaptReceipt maps (declareClasses head (txns.zip results) s).1 txns results).1
      (addResults adaptReceipt maps (declareClasses head (txns.zip results) s).1 txns results).2
        (done ++ txns.zip results) := by
  have hadapted := adaptStateDiffs_adapted maps (results.map fun r => r.stateDiff)
  have hmerged := merged_adapted (hs.declareClasses head (txns.zip results)).1.owns hadapted
  have hmerge := merge_declared maps hlength hplain hok
  obtain ⟨hV0, -, hclasses⟩ := declareClasses_plain hplain hok
  obtain ⟨newClasses, declaredV0Classes, declaredV1Classes, heq⟩ :=
    declareClasses_frame head (txns.zip results) s
  have hall : ∀ p ∈ done ++ txns.zip results, Plain p :=
    fun p hp => (mem_append.mp hp).elim (hdone p) (hplain p)
  have hnone := mergeAll_plain hall
  have hnils : (adaptStateDiffs maps (results.map fun r => r.stateDiff)).2.map DiffRef.declaredV0Classes =
      results.map fun _ => [] := by
    refine hadapted.nils.trans ?_
    rw [map_map]
    refine map_congr_left fun r hr => ?_
    obtain ⟨t, ht⟩ := exists_zip_of_mem hlength hr
    have hzero : (diffValue r.stateDiff).declaredV0 = [] := (hplain (t, r) ht).value_declaredV0
    rw [Function.comp_apply, hzero]
    rfl
  have hdiff :
    (addResults adaptReceipt maps (declareClasses head (txns.zip results) s).1 txns
    results).2.stateDiff.object.value
      (addResults adaptReceipt maps (declareClasses head (txns.zip results) s).1 txns results).1 =
      plain (mergeAll ((done ++ txns.zip results).map fun p => p.2.value)) := by
    rw [map_append, mergeAll_append, plain_merge, ← h.diff, ← hmerge, ← hmerged.value, addResults,
      updatePreconfirmedBlock, foldl_mergeRef]
  have hdeprecated : (addResults adaptReceipt maps (declareClasses head (txns.zip results) s).1 txns
      results).2.stateDiff.declaredV0Classes = [] := by
    have hold : s.stateDiff.declaredV0Classes = [] := by rw [h.deprecated, mergeAll_plain hdone, map_nil]
    rw [addResults, updatePreconfirmedBlock, foldl_mergeRef]
    simp only [hV0, hold, hnils, nil_append, map_const', flatten_replicate_nil]
  have htxns : txns.map (fun t => t.transaction) = (txns.zip results).map fun p => p.1.transaction := by
    have hfst : (txns.zip results).map Prod.fst = txns := map_fst_zip (le_of_eq hlength.symm)
    calc txns.map (fun t => t.transaction)
      _ = ((txns.zip results).map Prod.fst).map fun t => t.transaction := by rw [hfst]
      _ = (txns.zip results).map fun p => p.1.transaction := by
        rw [map_map]
        rfl
  have hlengths : (txns.zip results).length = txns.length := by
    rw [length_zip, hlength, Nat.min_self]
  refine ⟨?_, ?_, ?_, ?_, ?_, hdiff, ?_, ?_, ?_, ?_, ?_⟩
  · rw [map_append, ← h.transactions, ← htxns, addResults, updatePreconfirmedBlock, heq]
  · rw [map_append, ← h.receipts, addResults, updatePreconfirmedBlock, heq]
  · have hrefs := congrArg length hadapted.nils
    rw [length_map, length_map, length_map] at hrefs
    rw [length_append, ← h.stateDiffs, hlengths, ← hlength, ← hrefs, addResults, updatePreconfirmedBlock, heq]
    exact length_append
  · rw [length_append, ← h.count, hlengths, addResults, updatePreconfirmedBlock, heq]
    simp only [length_map]
  · rw [addResults, updatePreconfirmedBlock, heq]
    simp only [foldl_events, h.events, map_append, sum_append]
  · rw [hdeprecated, hnone, map_nil]
  · intro p hp classHash hmem
    refine .inr (by_contra fun habsent => ?_)
    have hvalue : p.2.value ∈ (done ++ txns.zip results).map fun p => p.2.value := mem_map.mpr ⟨p, hp, rfl⟩
    refine mergeAll_declaredV1_ne_none hvalue ((hall p hp).value_declaredV1 hmem) ?_
    exact (congrFun (congrArg declaredV1 hdiff) classHash).symm.trans (lookup_eq_none.mpr habsent)
  · rw [hdeprecated]
    exact ⟨nodup_nil, fun _ hmem => by cases hmem⟩
  · intro classHash definition
    refine (hclasses classHash definition).trans ?_
    simp only [h.classes, mem_append, or_and_right, exists_or]
  · have hsum : ((txns.zip results).map fun p => p.2.l2Gas) = results.map fun r => r.l2Gas :=
      map_snd_zip_results hlength fun r => r.l2Gas
    rw [map_append, sum_append, hsum, ← h.gas, addResults, updatePreconfirmedBlock, heq]
    exact consumeGas_eq hgas

end

namespace Proposer

theorem built_init :
    Built adaptReceipt (init : Proposer T Y).maps (init : Proposer T Y).buildState
      ([] : List (Executed T X)) :=
  ⟨rfl, rfl, rfl, rfl, rfl, rfl, rfl, fun _ hp => (by cases hp),
    ⟨nodup_nil, fun _ hmem => by cases hmem⟩, fun _ _ => by simp [init, initPreconfirmedBlock], rfl⟩

theorem built_runTransactions (h : Built adaptReceipt p.maps p.buildState done)
    (hs : Sound p.maps p.buildState) (hdone : ∀ q ∈ done, Plain q) (hlawful : a.Lawful p.buildState) :
    Built adaptReceipt (p.runTransactions adaptReceipt a).1.maps
      (p.runTransactions adaptReceipt a).1.buildState
        (done ++ if (p.runTransactions adaptReceipt a).2 =
          none then a.txns.zip (a.buildBlock.getD []) else []) ∧
      ∀ q ∈ done ++ (if (p.runTransactions adaptReceipt a).2 =
        none then a.txns.zip (a.buildBlock.getD []) else []), Plain q := by
  obtain ⟨hclone, hkept, -, hvalue⟩ := hs.clone
  rw [runTransactions]
  rcases runTxns_cases adaptReceipt (p.buildState.clone p.maps).1 (p.buildState.clone p.maps).2 a with
    ⟨hempty, hr⟩ | ⟨err, herr, hmaps⟩ | ⟨head, results, hbuild, hok, hr⟩
  · simp only [hr, hempty, zip_nil_left, ite_self, append_nil]
    exact ⟨h.clone hs, hdone⟩
  · simp only [herr, hmaps, reduceCtorEq, if_false, append_nil]
    exact ⟨{ h with diff := (value_kept hkept hs.owns.allocated fun _ _ hf => hf).trans h.diff }, hdone⟩
  · obtain ⟨hplain, hgas⟩ := hlawful results hbuild
    simp only [hr, hbuild, Option.getD_some, if_true]
    exact ⟨(h.clone hs).batch hclone hdone (a.length_results results hbuild) hplain hgas hok,
      fun q hq => (mem_append.mp hq).elim (hdone q) (hplain q)⟩

theorem built_run {attempts : List (Attempt T X)} (h : Built adaptReceipt p.maps p.buildState done)
    (hs : Sound p.maps p.buildState) (hdone : ∀ q ∈ done, Plain q)
    (hlawful : p.LawfulRun adaptReceipt attempts) :
    Built adaptReceipt (p.run adaptReceipt attempts).maps (p.run adaptReceipt attempts).buildState
      (done ++ p.executed adaptReceipt attempts) := by
  induction attempts generalizing p done with
  | nil =>
    rw [executed, append_nil]
    exact h
  | cons a attempts ih =>
    obtain ⟨hbuilt, hplain⟩ := built_runTransactions h hs hdone hlawful.1
    rw [executed, ← append_assoc]
    exact ih hbuilt (runTransactions_frame adaptReceipt hs a).2 hplain hlawful.2

end Proposer

/-- **What a block that is being built holds.** In every run in which the batches that are executed declare no
deprecated class, the block holds what was executed; in every run a batch that fails leaves the block of the
proposer as it was. -/
theorem build_state (adaptReceipt : CoreTransaction T → TxResult X → Receipt Y)
    (attempts : List (Attempt T X)) :
    (init.LawfulRun adaptReceipt attempts →
      Built adaptReceipt (init.run adaptReceipt attempts).maps (init.run adaptReceipt attempts).buildState
        (init.executed adaptReceipt attempts)) ∧
    ∀ a err, ((init.run adaptReceipt attempts).runTransactions adaptReceipt a).2 = some err →
      ((init.run adaptReceipt attempts).runTransactions adaptReceipt a).1.view =
        (init.run adaptReceipt attempts).view := by
  refine ⟨fun hlawful => ?_, fun a err herr => ?_⟩
  · have hbuilt := built_run built_init sound_init
      (fun _ hq => by cases hq) hlawful
    rwa [nil_append] at hbuilt
  · exact view_of_error (sound_run attempts sound_init) herr

/-- The diff of a transaction that declares these classes. -/
def declaringDiff (deprecated : List Felt) (declared : List (Felt × Felt)) : VmStateDiff :=
  ⟨[], [], [], some deprecated, some declared, [], []⟩

/-- A batch of one declaration, over a head state without classes. -/
def declaringAttempt (classHash : Felt) (compiledClassHash : Option Felt) (definition : ClassDefinition)
    (d : VmStateDiff) :
    Attempt Unit Unit where
  txns := [⟨.declare classHash compiledClassHash (), some definition⟩]
  headState := some fun _ => .notFound
  buildBlock := some [⟨some d, 5, ()⟩]
  length_results := by
    intro results h
    rw [← Option.some.inj h]
    rfl

def bareReceipt (_ : CoreTransaction Unit) (_ : TxResult Unit) : Receipt Unit := ⟨[], ()⟩

/-- A `SierraClass` is declared; declared again, it is refused. -/
theorem build_state_sierra :
    Built bareReceipt
      (init.run bareReceipt [declaringAttempt 7 (some 8) (.sierra [] 8) (declaringDiff [] [(7, 8)])]).maps
      (init.run bareReceipt
        [declaringAttempt 7 (some 8) (.sierra [] 8) (declaringDiff [] [(7, 8)])]).buildState
      (init.executed bareReceipt [declaringAttempt 7 (some 8) (.sierra [] 8) (declaringDiff [] [(7, 8)])]) ∧
    ((init.run bareReceipt
        [declaringAttempt 7 (some 8) (.sierra [] 8) (declaringDiff [] [(7, 8)])]).runTransactions bareReceipt
        (declaringAttempt 7 (some 8) (.sierra [] 8) (declaringDiff [] [(7, 8)]))).1.view =
      (init.run bareReceipt
        [declaringAttempt 7 (some 8) (.sierra [] 8) (declaringDiff [] [(7, 8)])]).view := by
  refine ⟨(build_state bareReceipt _).1 ⟨?_, trivial⟩,
    (build_state bareReceipt _).2 _ .classAlreadyDeclared ?_⟩
  · intro results h
    cases h
    refine ⟨fun p hp => ?_, by decide⟩
    cases mem_singleton.mp hp
    exact ⟨⟨_, rfl, rfl, rfl⟩, fun _ _ h => by cases h⟩
  · decide +kernel

/-- **A deprecated class leaves a nil pointer**: the list of deprecated classes has the class once, and after
it a nil for the same class; the diff that is kept for the transaction has the nil only. -/
theorem deprecated_class_listed_nil :
    (init.run bareReceipt
        [declaringAttempt 7 none (.deprecatedCairo [])
          (declaringDiff [7] [])]).buildState.stateDiff.declaredV0Classes =
      [some 7, none] ∧
    (init.run bareReceipt
        [declaringAttempt 7 none (.deprecatedCairo [])
          (declaringDiff [7] [])]).buildState.transactionStateDiffs.map
        (fun d => d.declaredV0Classes) =
      [[none]] ∧
    (DiffValue.mergeAll ((init.executed bareReceipt
        [declaringAttempt 7 none (.deprecatedCairo []) (declaringDiff [7] [])]).map
          fun p => p.2.value)).declaredV0 = [7] := by
  decide +kernel

end Juno.Builder
