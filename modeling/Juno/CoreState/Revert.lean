import Juno.CoreState.Reachable

/-!
# Revert undoes Update
-/

namespace Juno.CoreState

open Lib Trie2 GoMap AList StateDiff Option

variable {c : Crypto} {L L' : Ledger} {n blockNum : ℕ} {diff : StateDiff} {obj : Object}
  {objs : Objects}

namespace Ledger.Follows

variable {a : Felt}

section

variable (hf : L.Follows c blockNum diff L')
include hf

theorem valueBefore_nonce (hok : L.ContractsOk c n) (hn : n ≤ blockNum) (a : Felt) :
    State.valueBefore (L'.nonceHistory a) blockNum = L.nonceOf a := by
  rw [hf.nonces, valueBefore_log _ le_rfl, ((hok.nonces a).mono hn).value]

theorem valueBefore_classHash (hok : L.ContractsOk c n) (hn : n ≤ blockNum) (a : Felt) :
    State.valueBefore (L'.classHashHistory a) blockNum = L.classHashOf a := by
  rw [hf.classHashes, valueBefore_log _ le_rfl, ((hok.classHashes a).mono hn).value]

theorem valueBefore_slot (hok : L.ContractsOk c n) (hn : n ≤ blockNum) (a k : Felt) :
    State.valueBefore (L'.storageHistory a k) blockNum = L.storage a k := by
  rw [hf.slots, valueBefore_log _ le_rfl, ((hok.slots a k).mono hn).value]

theorem updatable (h : L.Regular c blockNum diff) :
    L'.ContractsUpdatable (fun _ => none) blockNum (L'.reverseClasses blockNum diff)
      (L'.reverseNonces blockNum diff)
      (L'.reverseStorage blockNum diff) := by
  have hthere :
    ∀ a, (a ∈ diff.replacedClasses ∨ a ∈ diff.nonces ∨ (a ∈ diff.storageDiffs ∧ isSystemContract a = false)) →
      (L'.objectAt (fun _ => none) a).isSome = true := by
    intro a ha
    rw [Ledger.objectAt, isSome_map, hf.contracts]
    by_cases hd : a ∈ diff.deployedContracts
    · rw [contractAfter_deployed hd]
      rfl
    · cases hk : L.contracts a with
      | some k =>
        rw [contractAfter_there hd hk]
        rfl
      | none =>
        obtain ⟨hr, hn, hs⟩ := h.not_mem hd hk
        rcases ha with ha | ha | ⟨ha, hsys⟩
        · exact absurd ha hr
        · exact absurd ha hn
        · exact absurd (hs ha) (by simp [hsys])
  rw [Ledger.contractsUpdatable_iff]
  refine ⟨fun a ha => ?_, fun a ha => ?_⟩
  · rw [L'.mem_reverseClasses, L'.mem_reverseNonces] at ha
    exact hthere a (ha.imp_right .inl)
  · rw [L'.mem_reverseStorage] at ha
    cases hsys : isSystemContract a with
    | true => exact .inr rfl
    | false => exact .inl (hthere a (.inr (.inr ⟨ha, hsys⟩)))

section

variable (hok : L.ContractsOk c n)
include hok

section

variable (hn : n ≤ blockNum)
include hn

theorem change_contract (hd : a ∉ diff.deployedContracts) (deployedHeight : ℕ)
    (writes : Option (GoMap Felt Felt)) :
    (Object.change ((L'.reverseClasses blockNum diff).lookup a) ((L'.reverseNonces blockNum diff).lookup a)
      writes ⟨L.contractWith diff a deployedHeight, ∅⟩).contract =
      ⟨L.nonceOf a, L.classHashOf a, deployedHeight⟩ := by
  simp only [Object.change, Ledger.contractWith, Ledger.reverseClasses, Ledger.reverseNonces, lookup_mapVals,
    hf.valueBefore_classHash hok hn, hf.valueBefore_nonce hok hn, classHash, lookup_eq_none.mpr hd,
    or_none]
  cases diff.replacedClasses.lookup a with
  | none | some =>
    cases diff.nonces.lookup a with
    | none => rfl
    | some y => rfl

theorem newStorage_reverse (hw : obj.writes = ((L'.reverseStorage blockNum diff).lookup a).getD ∅) :
    L'.newStorage a obj = L.storage a := by
  funext k
  rw [Ledger.newStorage, hw, override_getD_empty, hf.storage]
  simp only [Ledger.reverseStorage, lookup_mapVals, Ledger.storageAfter, slot, hf.valueBefore_slot hok hn]
  cases diff.storageDiffs.lookup a with
  | none => rfl
  | some w =>
    simp only [map_some, bind_some, lookup_mapVals]
    cases w.lookup k with
    | none => rfl
    | some v => rfl

theorem restores_made (hobj : objs a = some (some obj))
    (hw : obj.writes = ((L'.reverseStorage blockNum diff).lookup a).getD ∅)
    (hk : L.contracts a = none) (hsys : isSystemContract a = true) :
    (L'.commit c objs).contracts a = L.contracts a ∧ (L'.commit c objs).storage a = L.storage a := by
  have hempty : L.storage a = fun _ => 0 := funext fun k => hok.storage_none a hk k
  have hp : L'.purged c a obj := by
    refine ⟨hsys, ?_⟩
    rw [hf.newStorage_reverse hok hn hw, hempty]
    exact mapRoot_of_emptyMap _ trieHeight_le fun _ _ => rfl
  rw [(commit_changed hobj).1, (commit_changed hobj).2, if_pos hp, if_pos hp, hk, hempty]
  exact ⟨rfl, rfl⟩

/-- A contract that was there has its nonce, class hash and storage put back. -/
theorem restores_there (hd : a ∉ diff.deployedContracts) {k : Contract} (hk : L.contracts a = some k)
    {writes : Option (GoMap Felt Felt)}
    (hchange : obj = Object.change ((L'.reverseClasses blockNum diff).lookup a)
      ((L'.reverseNonces blockNum diff).lookup a) writes ⟨L.contractWith diff a k.deployedHeight, ∅⟩)
    (hobj : objs a = some (some obj))
    (hw : obj.writes = ((L'.reverseStorage blockNum diff).lookup a).getD ∅) :
    (L'.commit c objs).contracts a = L.contracts a ∧ (L'.commit c objs).storage a = L.storage a := by
  have hstorage := hf.newStorage_reverse hok hn hw
  have hp : ¬ L'.purged c a obj := by
    intro ⟨hsys, hroot⟩
    rw [hstorage] at hroot
    exact hok.system a hsys (by simp [hk]) hroot
  have hcontract : obj.contract = k := by
    rw [hchange, hf.change_contract hok hn hd, Ledger.nonceOf, Ledger.classHashOf, hk]
    rfl
  rw [(commit_changed hobj).1, (commit_changed hobj).2, if_neg hp, if_neg hp, hstorage, hcontract, hk]
  exact ⟨rfl, rfl⟩

theorem restores (h : L.Regular c blockNum diff) (a : Felt) :
    (L'.commit c (L'.revertObjs blockNum diff)).contracts a = L.contracts a ∧
      (L'.commit c (L'.revertObjs blockNum diff)).storage a = L.storage a := by
  by_cases hd : a ∈ diff.deployedContracts
  · have hobj : L'.revertObjs blockNum diff a = some none := if_pos hd
    simp only [Ledger.commit, Ledger.kept_deleted hobj, map_none]
    exact ⟨(h.deployed a hd).symm, funext fun k => (hok.storage_none a (h.deployed a hd) k).symm⟩
  · have hU := hf.updatable h
    have hobjs :
      L'.revertObjs blockNum diff a = L'.updateContracts (fun _ => none) blockNum
      (L'.reverseClasses blockNum diff)
        (L'.reverseNonces blockNum diff) (L'.reverseStorage blockNum diff) a := if_neg hd
    have hwrites : ∀ obj, L'.revertObjs blockNum diff a = some (some obj) →
        obj.writes = ((L'.reverseStorage blockNum diff).lookup a).getD ∅ :=
      fun obj hobj => updateContracts_writes hU (by simp) (hobjs.symm.trans hobj)
    obtain ⟨hr, hnon, hs, heq⟩ | ⟨obj, hobj, -, heq⟩ | ⟨writes, hobj, -, -, hw, hsys, heq⟩ :=
      Ledger.updateContracts_cases hU a
    · rw [L'.mem_reverseClasses] at hr
      rw [L'.mem_reverseNonces] at hnon
      rw [L'.mem_reverseStorage] at hs
      have ht : ¬ diff.Touches a := by simp [Touches, hr, hnon, hs]
      rw [(commit_other (hobjs.trans heq)).1, (commit_other (hobjs.trans heq)).2, hf.contracts, hf.storage,
        storageAfter_of_not_mem hs]
      refine ⟨?_, rfl⟩
      cases hk : L.contracts a with
      | some k => rw [contractAfter_there hd hk, contractWith_eq hd ht hk]
      | none => rw [contractAfter_made hd hk, if_neg fun hmade => hs hmade.2.1]
    · rw [← hobjs] at heq
      obtain ⟨k', hk', rfl⟩ := map_eq_some_iff.mp hobj
      rw [hf.contracts] at hk'
      cases hk : L.contracts a with
      | some k =>
        rw [contractAfter_there hd hk, some.injEq] at hk'
        subst hk'
        rw [← hk]
        exact hf.restores_there hok hn hd hk rfl heq (hwrites _ heq)
      | none =>
        rw [contractAfter_made hd hk] at hk'
        have hsys : isSystemContract a = true := by
          by_contra hsys
          simp [hsys] at hk'
        rw [← hk]
        exact hf.restores_made hok hn heq (hwrites _ heq) hk hsys
    · rw [← hobjs] at heq
      have hk : L.contracts a = none := by
        have hk' := map_eq_none_iff.mp hobj
        rw [hf.contracts] at hk'
        cases hk : L.contracts a with
        | some k => simp [contractAfter_there hd hk] at hk'
        | none => rfl
      exact hf.restores_made hok hn heq (hwrites _ heq) hk hsys

theorem restores_histories : (L'.deleteHistory blockNum diff).nonceHistory = L.nonceHistory ∧
      (L'.deleteHistory blockNum diff).classHashHistory = L.classHashHistory ∧
      (L'.deleteHistory blockNum diff).storageHistory = L.storageHistory := by
  refine ⟨funext fun a => ?_, funext fun a => ?_, funext fun a => funext fun k => ?_⟩
  · simp only [Ledger.deleteHistory, hf.nonces]
    refine (hok.nonces a).unlog hn fun hnone => ?_
    exact (or_eq_none_iff.mp hnone).1
  · simp only [Ledger.deleteHistory, hf.classHashes]
    exact (hok.classHashes a).unlog hn id
  · simp only [Ledger.deleteHistory, hf.slots]
    exact (hok.slots a k).unlog hn id

end

end

end

end Ledger.Follows

/-! ### The classes -/

/-- The classes of a block can be taken back: new definitions are listed, listed classes have a definition,
the leaf of a class that is declared again is the one it has, and the metadata of a migrated class give its
leaf before. -/
structure Ledger.ClassesRevertible (c : Crypto) (L : Ledger) (metadata : Felt → Option CasmMetadata)
    (diff : StateDiff)
    (declaredClasses : GoMap Felt ClassDefinition) : Prop where
  /-- A new definition belongs to a class that is listed. -/
  listed : ∀ hash ∈ declaredClasses, L.classes hash = none → hash ∈ declaredHashes diff
  defined : ∀ hash ∈ declaredHashes diff, L.classes hash ≠ none ∨ hash ∈ declaredClasses
  /-- A new class with a leaf is a Sierra class. -/
  sierra : ∀ hash ∈ diff.declaredV1Classes, L.classes hash = none → ∀ d,
    declaredClasses.lookup hash = some d → d.isSierra = true
  /-- A class that is declared again keeps its leaf. -/
  redeclared : ∀ hash casm, diff.declaredV1Classes.lookup hash = some casm → hash ∈ declaredClasses →
    L.classes hash ≠ none →
    hash ∉ diff.migratedClasses → L.classLeaves hash = State.classLeaf c casm
  migrated : ∀ hash ∈ diff.migratedClasses, L.classes hash ≠ none
  unmigrated : ∀ hash ∈ diff.migratedClasses, (L.withMetadata metadata).unmigratedLeaf c hash =
    some (L.classLeaves hash)

section

variable {declaredClasses : GoMap Felt ClassDefinition} {metadata : Felt → Option CasmMetadata} {hash : Felt}

theorem declaredAt_of_some (hok : L.ClassesOk n) (hn : n ≤ blockNum) {dc : DeclaredClass}
    (hdc : L.classes hash = some dc)
    (hcls : L'.classes hash = (L.classes hash).or ((declaredClasses.lookup hash).map (⟨blockNum, ·⟩))) :
    L'.declaredAt blockNum hash = false := by
  have hlt := hok.declared hash dc hdc
  simp only [Ledger.declaredAt, hcls, hdc, some_or, decide_eq_false_iff_not]
  omega

theorem declaredAt_of_new {d : ClassDefinition} (hnone : L.classes hash = none)
    (hd : declaredClasses.lookup hash = some d)
    (hcls : L'.classes hash = (L.classes hash).or ((declaredClasses.lookup hash).map (⟨blockNum, ·⟩))) :
    L'.declaredAt blockNum hash = true ∧ L'.isSierra hash = d.isSierra := by
  simp only [Ledger.declaredAt, Ledger.isSierra, hcls, hnone, hd, none_or, map_some, decide_true, and_self]

theorem restores_classes (hok : L.ClassesOk n) (hn : n ≤ blockNum)
    (h : L.ClassesRevertible c metadata diff declaredClasses)
    (hcls : ∀ hash, L'.classes hash = (L.classes hash).or ((declaredClasses.lookup hash).map (⟨blockNum, ·⟩)))
    (hash : Felt) :
    (if hash ∈ declaredHashes diff ∧ L'.declaredAt blockNum hash = true then none else L'.classes hash) =
      L.classes hash := by
  cases hdc : L.classes hash with
  | some dc =>
    have hat := declaredAt_of_some hok hn hdc (hcls hash)
    rw [if_neg (by simp [hat]), hcls, hdc]
    rfl
  | none =>
    cases hd : declaredClasses.lookup hash with
    | some d =>
      have hlisted := h.listed hash (mem_of_lookup hd) hdc
      rw [if_pos ⟨hlisted, (declaredAt_of_new hdc hd (hcls hash)).1⟩]
    | none =>
      rw [hcls, hdc, hd, none_or, map_none, ite_self]

theorem restores_leaves (hok : L.ClassesOk n) (hn : n ≤ blockNum)
    (h : L.ClassesRevertible c metadata diff declaredClasses)
    (hcls : ∀ hash, L'.classes hash = (L.classes hash).or ((declaredClasses.lookup hash).map (⟨blockNum, ·⟩)))
    (hleaves : L'.classLeaves = updatedLeaves c L.classLeaves diff declaredClasses)
    (hmeta : L'.casmMetadata = metadata) : L'.revertedLeaves c blockNum diff = L.classLeaves := by
  funext hash
  unfold Ledger.revertedLeaves
  by_cases hm : hash ∈ diff.migratedClasses
  · obtain ⟨x, hx⟩ := exists_lookup hm
    have hun : L'.unmigratedLeaf c hash = some (L.classLeaves hash) := by
      have := h.unmigrated hash hm
      rw [← hmeta] at this
      exact this
    have hlookup := lookup_mapVals (fun hash _ => (L'.unmigratedLeaf c hash).getD 0) diff.migratedClasses hash
    rw [hx, map_some] at hlookup
    rw [override_of_lookup hlookup, hun, getD_some]
  · rw [override_of_not_mem (by simpa using hm), hleaves]
    have hsame : hash ∉ diff.declaredV1Classes ∨ hash ∉ declaredClasses →
        updatedLeaves c L.classLeaves diff declaredClasses hash = L.classLeaves hash :=
          updatedLeaves_of_not_mem c L.classLeaves hm
    cases hdc : L.classes hash with
    | some dc =>
      have hat := declaredAt_of_some hok hn hdc (hcls hash)
      rw [if_neg (by simp [hat])]
      by_cases hd : hash ∈ diff.declaredV1Classes ∧ hash ∈ declaredClasses
      · obtain ⟨casm, hcasm⟩ := exists_lookup hd.1
        rw [updatedLeaves_declared c L.classLeaves hm hcasm hd.2]
        exact (h.redeclared hash casm hcasm hd.2 (by simp [hdc]) hm).symm
      · rw [not_and_or] at hd
        exact hsame hd
    | none =>
      have hzero : L.classLeaves hash = 0 := by_contra fun h0 => hok.leaves hash h0 hdc
      cases hd : declaredClasses.lookup hash with
      | some d =>
        obtain ⟨hat, hsierra⟩ := declaredAt_of_new hdc hd (hcls hash)
        have hlisted := h.listed hash (mem_of_lookup hd) hdc
        by_cases hs : d.isSierra = true
        · rw [if_pos ⟨hlisted, by simp [hat, hsierra, hs]⟩, hzero]
        · rw [if_neg (by simp [hsierra, hs])]
          exact hsame (.inl fun hv1 => hs (h.sierra hash hv1 hdc d hd))
      | none =>
        rw [hsame (.inr (lookup_eq_none.mp hd)), hzero, ite_self]

end

/-! ### The ledger -/

variable {metadata : Felt → Option CasmMetadata}

/-- The contracts, the storage and the histories do not depend on the metadata. -/
theorem Ledger.Follows.withMetadata (hf : L.Follows c blockNum diff L')
    (metadata : Felt → Option CasmMetadata) : L.Follows c blockNum diff (L'.withMetadata metadata) :=
  { hf with }

variable {declaredClasses : GoMap Felt ClassDefinition}

theorem reverted_updated (hok : L.ContractsOk c n) (hokc : L.ClassesOk n) (hn : n ≤ blockNum)
    (h : L.Regular c blockNum diff) (hcls : L.ClassesRevertible c metadata diff declaredClasses) :
    ((L.updated c blockNum diff declaredClasses).withMetadata metadata).reverted c blockNum diff =
      L.withMetadata metadata := by
  have hf := (follows_updated h declaredClasses).withMetadata metadata
  obtain ⟨hnonces, hclassHashes, hslots⟩ := hf.restores_histories hok hn
  have hclasses : ∀ hash, ((L.updated c blockNum diff declaredClasses).withMetadata metadata).classes hash =
      (L.classes hash).or ((declaredClasses.lookup hash).map (⟨blockNum, ·⟩)) :=
    updated_classes c L blockNum diff declaredClasses
  have hleaves :
    ((L.updated c blockNum diff declaredClasses).withMetadata metadata).revertedLeaves c blockNum diff =
      L.classLeaves := restores_leaves hokc hn hcls hclasses rfl rfl
  refine Ledger.ext ?_ ?_ hleaves ?_ hnonces hclassHashes hslots rfl
  · exact funext fun a => (hf.restores hok hn h a).1
  · exact funext fun a => (hf.restores hok hn h a).2
  · exact funext fun hash => restores_classes hokc hn hcls hclasses hash

theorem reverts_updated {header : Header} {update : StateUpdate} (hok : L.ContractsOk c n)
    (hokc : L.ClassesOk n) (hn : n ≤ header.number) (h : L.Regular c header.number update.stateDiff)
    (hcls : L.ClassesRevertible c metadata update.stateDiff declaredClasses)
    (hacc : L.Accepts c header update declaredClasses false) :
    ((L.updated c header.number update.stateDiff declaredClasses).withMetadata metadata).Reverts c
      header update := by
  obtain ⟨newComm, hnew, hroot⟩ := hacc.newRoot
  have hf := (follows_updated h declaredClasses).withMetadata metadata
  refine ⟨?_, fun hash hmem => ?_, fun hash hmem => ?_, hf.updatable h, ?_⟩
  · rw [← hroot rfl]
    exact hnew
  · have hupdated :
      ((L.updated c header.number update.stateDiff declaredClasses).withMetadata metadata).classes hash =
        (L.classes hash).or ((declaredClasses.lookup hash).map (⟨header.number, ·⟩)) :=
      updated_classes c L header.number update.stateDiff declaredClasses hash
    rw [hupdated]
    rcases hcls.defined hash hmem with hsome | hd
    · obtain ⟨dc, hdc⟩ := ne_none_iff_exists'.mp hsome
      simp [hdc]
    · obtain ⟨d, hd⟩ := exists_lookup hd
      simp [hd]
  · have hun := hcls.unmigrated hash hmem
    have : ((L.updated c header.number update.stateDiff declaredClasses).withMetadata metadata).unmigratedLeaf
      c hash =
      some (L.classLeaves hash) := hun
    simp [this]
  · rw [reverted_updated hok hokc hn h hcls]
    exact hacc.oldRoot

/-! ### The database -/

/-- The leaf a migrated class had, by the metadata of compiled classes. -/
def unmigratedLeaf (c : Crypto) (metadata : Felt → Option CasmMetadata) (hash : Felt) : Option Felt :=
  (Ledger.empty.withMetadata metadata).unmigratedLeaf c hash

/-- **A block that can be reverted**: a regular block whose classes can be taken back. A new definition
belongs to a class the diff lists, a listed class has a definition, a new class with a leaf is a Sierra class,
a class that is declared again keeps its leaf, and the metadata of a migrated class give the leaf it had. -/
structure Block.Revertible (c : Crypto) (db : DB) (metadata : Felt → Option CasmMetadata)
    (b : Block) : Prop where
  regular : b.Regular c db
  migrated : b.MigratesStored db
  /-- A new definition belongs to a class that is listed. -/
  listed : ∀ hash ∈ b.declaredClasses, db.classes hash = none → hash ∈ declaredHashes b.diff
  defined : ∀ hash ∈ declaredHashes b.diff, db.classes hash ≠ none ∨ hash ∈ b.declaredClasses
  /-- A new class with a leaf is a Sierra class. -/
  sierra : ∀ hash ∈ b.diff.declaredV1Classes, db.classes hash = none →
    ∀ d, b.declaredClasses.lookup hash = some d → d.isSierra = true
  /-- A class that is declared again keeps its leaf. -/
  redeclared : ∀ hash casm, b.diff.declaredV1Classes.lookup hash = some casm → hash ∈ b.declaredClasses →
    db.classes hash ≠ none → hash ∉ b.diff.migratedClasses → db.classLeaf hash = State.classLeaf c casm
  unmigrated : ∀ hash ∈ b.diff.migratedClasses, unmigratedLeaf c metadata hash = some (db.classLeaf hash)

theorem LedgerOf.classesRevertible {db : DB} {b : Block} (h : LedgerOf c db n L)
    (hb : b.Revertible c db metadata) : L.ClassesRevertible c metadata b.diff b.declaredClasses := by
  have hclasses := h.classes
  constructor
  case listed => exact fun hash hd hnone => hb.listed hash hd (by rw [hclasses, hnone])
  case defined => exact fun hash hmem => by simpa [hclasses] using hb.defined hash hmem
  case sierra => exact fun hash hd hnone => hb.sierra hash hd (by rw [hclasses, hnone])
  case redeclared =>
    intro hash casm hcasm hd hsome hm
    rw [← h.classLeaf (hb.regular.keys.declaredV1 hash (mem_of_lookup hcasm))]
    exact hb.redeclared hash casm hcasm hd (by rwa [hclasses]) hm
  case migrated => exact fun hash hm => by simpa [hclasses] using hb.migrated hash hm
  case unmigrated =>
    intro hash hm
    rw [← h.classLeaf (hb.regular.keys.migrated hash hm)]
    exact hb.unmigrated hash hm

/-- **`Revert` undoes `Update`.** From a database that regular blocks reach, a block that can be reverted is
undone: every bucket is as before, and the commitment is the old root. -/
theorem revert_update (c : Crypto) {db db' : DB} {n : ℕ} (hdb : Reachable c db n) (b : Block)
    (hn : n ≤ b.header.number) (metadata : Felt → Option CasmMetadata) (hb : b.Revertible c db metadata)
    (hupdate : b.apply c false db = .ok db') (hhash : db'.HashesNonzero c)
    (hroot : b.update.newRoot = 0 → db'.Empty) :
    b.undo c (db'.withMetadata metadata) = .ok (db.withMetadata metadata) ∧
      ∃ s, State.openAt c (db.withMetadata metadata) b.update.oldRoot b.header.protocolVersion =
        .ok (b.update.oldRoot, s) := by
  obtain ⟨L, hL, hclsOk⟩ := hdb.ledgerOf
  obtain ⟨hacc, hL'⟩ := hL.update hn hb.regular hupdate hhash
  have hreg := hL.regular hb.regular hacc
  have hcls := hL.classesRevertible hb
  have hLm := hL.withMetadata metadata
  have hLm' := hL'.withMetadata metadata
  constructor
  · rw [hLm'.toDB, hLm.toDB]
    refine (revert_outcome (hLm'.opens hroot) hLm'.ok.storage_zero b.header b.update
      hb.regular.keys).eq_ok_iff.mpr ⟨?_, ?_⟩
    · exact reverts_updated hL.ok hclsOk hn hreg hcls hacc
    · exact congrArg (Ledger.toDB c) (reverted_updated hL.ok hclsOk hn hreg hcls).symm
  · obtain ⟨s, hs, -⟩ := openAt_ok (hLm.opens hb.regular.oldRoot) b.header.protocolVersion
    have hcomm : (L.withMetadata metadata).commitment c b.header.protocolVersion = .ok b.update.oldRoot :=
      hacc.oldRoot
    rw [hcomm, ← hLm.toDB] at hs
    exact ⟨s, hs⟩

/-- Hash functions under which no node hashes to zero. -/
def constCrypto : Crypto := ⟨fun _ _ => 1, fun _ _ => 1, fun _ _ _ => 1⟩

theorem hashesNonzero_const (db : DB) : db.HashesNonzero constCrypto :=
  ⟨nonzeroHashes_one trieHeight_le _, nonzeroHashes_one trieHeight_le _,
    fun _ => nonzeroHashes_one trieHeight_le _⟩

/-- The first block: it declares a class, and deploys a contract, sets its nonce and writes a slot. -/
def firstBlock : Block where
  header := ⟨0, some ⟨0, 13, 0⟩⟩
  update := ⟨0, 1,
    { empty with
      deployedContracts := singleton 5 9
      nonces := singleton 5 1
      storageDiffs := singleton 5 (singleton 3 4)
      declaredV1Classes := singleton 8 6 }⟩
  declaredClasses := singleton 8 (.sierra [1] 7)

theorem firstBlock_keysInRange : firstBlock.diff.KeysInRange := by
  have hfive : InRange 5 := by decide
  constructor
  case deployed => simpa [firstBlock] using hfive
  case touched => simpa [firstBlock, Touches, empty] using hfive
  case slots =>
    intro a w hw k hk
    simp only [firstBlock, lookup_singleton, ite_none_right_eq_some, some.injEq] at hw
    obtain ⟨-, rfl⟩ := hw
    obtain rfl := mem_singleton.mp hk
    decide
  case zero => decide
  case declaredV0 => simp [firstBlock, empty]
  case declaredV1 =>
    have height : InRange 8 := by decide
    simpa [firstBlock] using height
  case migrated => simp [firstBlock, empty]

theorem firstBlock_regular : firstBlock.Regular constCrypto DB.empty := by
  refine ⟨firstBlock_keysInRange, fun _ => ⟨fun _ => rfl, fun _ _ => rfl⟩, fun a hsys hthere _ => ?_,
    fun a _ => nonzeroHashes_one trieHeight_le _⟩
  rcases hthere with hthere | hd
  · exact absurd rfl hthere
  · obtain rfl := mem_singleton.mp hd
    exact absurd hsys (by decide)

theorem firstBlock_revertible : firstBlock.Revertible constCrypto DB.empty fun _ => none := by
  refine ⟨firstBlock_regular, fun hash hm => absurd hm (notMem_empty hash), fun hash hd _ => ?_,
    fun hash hmem => .inr ?_, fun hash _ _ d hd => ?_,
    fun _ _ _ _ hsome _ => absurd rfl hsome, fun hash hm => absurd hm (notMem_empty hash)⟩
  · obtain rfl := mem_singleton.mp hd
    decide
  · simpa [declaredHashes, firstBlock, empty] using hmem
  · simp only [firstBlock, lookup_singleton, ite_none_right_eq_some, some.injEq] at hd
    obtain ⟨-, rfl⟩ := hd
    rfl

/-- The first block and its revert. -/
theorem revert_update_first :
    ∃ db', firstBlock.apply constCrypto false DB.empty = .ok db' ∧ db'.contracts 5 = some ⟨1, 9, 0, 252⟩ ∧
      firstBlock.undo constCrypto (db'.withMetadata fun _ => none) = .ok DB.empty := by
  have hrun : (do
      let db' ← firstBlock.apply constCrypto false DB.empty
      return db'.contracts 5) = .ok (some ⟨1, 9, 0, 252⟩) := by
    decide +kernel
  obtain ⟨db', hupdate, hcontract⟩ := bind_eq_ok.mp hrun
  refine ⟨db', hupdate, Except.ok.inj hcontract, ?_⟩
  exact (revert_update constCrypto .empty firstBlock le_rfl _ firstBlock_revertible hupdate
    (hashesNonzero_const db')
    fun h => absurd h (by decide)).1

/-- Hash functions that tell apart what they are given. -/
def affineCrypto : Crypto :=
  ⟨fun a b => 2 * a + 3 * b + 1, fun a b => 3 * a + 5 * b + 2, fun a b d => a + b + 7 * d⟩

def writeBlock (number : ℕ) (oldRoot newRoot addr key value : Felt) : Block where
  header := ⟨number, some ⟨0, 13, 0⟩⟩
  update := ⟨oldRoot, newRoot, { empty with storageDiffs := singleton addr (singleton key value) }⟩
  declaredClasses := ∅

/-- Block 0 writes a slot of the system contract `0x1`, and block 1 writes zero to it: the contract is purged.
The revert of block 1 succeeds, but makes the contract anew: its record says that it was deployed at block 1.
-/
theorem revert_update_purged :
    ∃ db₀ db₁ db₂, (writeBlock 0 0 7013 1 5 7).apply affineCrypto false DB.empty = .ok db₀ ∧
      (writeBlock 1 7013 0 1 5 0).apply affineCrypto false db₀ = .ok db₁ ∧
      (writeBlock 1 7013 0 1 5 0).undo affineCrypto db₁ = .ok db₂ ∧
      db₀.contracts 1 = some ⟨0, 0, 0, 281⟩ ∧ db₂.contracts 1 = some ⟨0, 0, 1, 281⟩ := by
  have hrun : (do
      let db₀ ← (writeBlock 0 0 7013 1 5 7).apply affineCrypto false DB.empty
      let db₁ ← (writeBlock 1 7013 0 1 5 0).apply affineCrypto false db₀
      let db₂ ← (writeBlock 1 7013 0 1 5 0).undo affineCrypto db₁
      return (db₀.contracts 1, db₂.contracts 1)) = .ok (some ⟨0, 0, 0, 281⟩, some ⟨0, 0, 1, 281⟩) := by
    decide +kernel
  obtain ⟨db₀, h₀, hrun⟩ := bind_eq_ok.mp hrun
  obtain ⟨db₁, h₁, hrun⟩ := bind_eq_ok.mp hrun
  obtain ⟨db₂, h₂, hrun⟩ := bind_eq_ok.mp hrun
  obtain ⟨hc₀, hc₂⟩ := Prod.ext_iff.mp (Except.ok.inj hrun)
  exact ⟨db₀, db₁, db₂, h₀, h₁, h₂, hc₀, hc₂⟩

end Juno.CoreState
