import Juno.CoreState.Effect

/-!
# Storing blocks

`blockchain/statebackend`: `Store` applies the state update of a block and writes the
metadata of the compiled classes it declares or migrates. The state at a block is then
read through the histories.

## The model

* `storeCasmHashMetadata`, `Block.store` — `Store`, as far as the state is concerned.
* `storeAll` — blocks stored one after the other, with the numbers that `verifyBlockSuccession` asks for.
* `Query`, `StateHistory.query` — the queries of a `core.StateReader`, on the reader of `StateAtBlockNumber`.

The main result is `storeAll_below`.
-/

namespace Juno.CasmMetadata

def isMigratedAt (c : CasmMetadata) (height : ℕ) : Bool := c.migratedAt > 0 && c.migratedAt ≤ height

/-- `CasmHashAt`; nil is `ErrKeyNotFound`. -/
def casmHashAt (c : CasmMetadata) (height : ℕ) : Option Felt :=
  if c.declaredAt > height then none
  else if c.isDeclaredWithV2 || c.isMigratedAt height then some c.casmHashV2 else some (c.casmHashV1.getD 0)

/-- At a height at which everything has happened, it is the hash of now. -/
theorem casmHashAt_eq {c : CasmMetadata} {height : ℕ} (hdeclared : c.declaredAt ≤ height)
    (hmigrated : c.migratedAt ≤ height) : c.casmHashAt height = some c.casmHash := by
  rw [casmHashAt, if_neg (Nat.not_lt.mpr hdeclared), casmHash, isMigratedAt, isMigrated,
    decide_eq_true hmigrated,
    Bool.and_true]
  split_ifs <;> rfl

end Juno.CasmMetadata

namespace Juno.CoreState

open Lib

/-! ### The queries of a reader -/

/-- `lastUpdatedBlockNumber`: the last block up to the given one that has an entry, zero if there is none. -/
def lastUpdatedBlockNumber (history : ℕ → Option Felt) : ℕ → ℕ
  | 0 => 0
  | upToBlock + 1 =>
    if (history (upToBlock + 1)).isSome then upToBlock + 1 else lastUpdatedBlockNumber history upToBlock

namespace StateHistory

variable (db : DB) (blockNum : ℕ)

/-- `stateHistory.ContractStorageLastUpdatedBlock`. -/
def contractStorageLastUpdatedBlock (addr key : Felt) : ℕ :=
  lastUpdatedBlockNumber (db.storageHistory addr key) blockNum

variable (classHash : Felt)

/-- `stateHistory.Class`. -/
def classAt : Except StateError DeclaredClass :=
  match db.classes classHash with
  | none => .error .keyNotFound
  | some declaredClass =>
    if blockNum < declaredClass.declaredAt then .error .keyNotFound else .ok declaredClass

/-- `stateHistory.CompiledClassHash`. -/
def compiledClassHash : Except StateError Felt :=
  match (db.casmMetadata classHash).bind fun metadata => metadata.casmHashAt blockNum with
  | none => .error .keyNotFound
  | some casmHash => .ok casmHash

/-- `stateHistory.CompiledClassHashV2`. -/
def compiledClassHashV2 : Except StateError Felt :=
  match db.casmMetadata classHash with
  | none => .error .keyNotFound
  | some metadata => .ok metadata.casmHashV2

end StateHistory

/-- A query of a `core.StateReader`. -/
inductive Query where
  | contractClassHash (addr : Felt)
  | contractNonce (addr : Felt)
  | contractStorage (addr key : Felt)
  | contractStorageLastUpdatedBlock (addr key : Felt)
  | classDefinition (classHash : Felt)
  | compiledClassHash (classHash : Felt)
  | compiledClassHashV2 (classHash : Felt)

def Query.isContract : Query → Bool
  | .contractClassHash _ | .contractNonce _ | .contractStorage _ _ | .contractStorageLastUpdatedBlock _ _ =>
    true
  | _ => false

def Query.isContractValue : Query → Bool
  | .contractClassHash _ | .contractNonce _ | .contractStorage _ _ => true
  | _ => false

theorem Query.isContract_of_value {q : Query} (h : q.isContractValue = true) : q.isContract = true := by
  cases q with
  | contractClassHash | contractNonce | contractStorage | contractStorageLastUpdatedBlock => rfl
  | classDefinition | compiledClassHash | compiledClassHashV2 => cases h

inductive Answer where
  | felt (value : Felt)
  | block (number : ℕ)
  | definition (cls : ClassDefinition)
  deriving DecidableEq

def StateHistory.query (db : DB) (blockNum : ℕ) : Query → Except StateError Answer
  | .contractClassHash addr => (contractClassHash db blockNum addr).map .felt
  | .contractNonce addr => (contractNonce db blockNum addr).map .felt
  | .contractStorage addr key => (contractStorage db blockNum addr key).map .felt
  | .contractStorageLastUpdatedBlock addr key =>
    .ok (.block (contractStorageLastUpdatedBlock db blockNum addr key))
  | .classDefinition classHash =>
    (classAt db blockNum classHash).map fun declaredClass => .definition declaredClass.definition
  | .compiledClassHash classHash => (compiledClassHash db blockNum classHash).map .felt
  | .compiledClassHashV2 classHash => (compiledClassHashV2 db classHash).map .felt

end Juno.CoreState

namespace Juno.Statebackend

open Lib CoreState

inductive StoreError where
  /-- An error of `Update`. -/
  | state (e : StateError)
  /-- `expected block`, of `verifyBlockSuccession`. -/
  | blockNumber
  | version
  /-- `cannot migrate class: metadata not found`. -/
  | metadataNotFound
  /-- `failed to migrate class`. -/
  | migrate (e : CasmMetadata.MigrateError)
  /-- `class not available in newClasses`. -/
  | classNotAvailable
  /-- `class must be a SierraClass`. -/
  | notSierra
  deriving DecidableEq

abbrev Metadata := Felt → Option CasmMetadata

def migratedRow (metadata : Metadata) (blockNumber : ℕ) (classHash : Felt) : Except StoreError CasmMetadata :=
  match metadata classHash with
  | none => .error .metadataNotFound
  | some row =>
    match row.migrate blockNumber with
    | .error e => .error (.migrate e)
    | .ok row => .ok row

/-- `storeCasmHashMetadataV2`; the rows of migrated classes are read before the declared ones are written. -/
def storeCasmHashMetadataV2 (metadata : Metadata) (blockNumber : ℕ) (diff : StateDiff) :
    Except StoreError Metadata :=
  let declared := (diff.declaredV1Classes.mapVals fun _ casmHash =>
    some (CasmMetadata.newDeclaredV2 blockNumber casmHash)).override metadata
  diff.migratedClasses.entries.foldlM (fun rows e => do
    return Function.update rows e.1 (some (← migratedRow metadata blockNumber e.1))) declared

def declaredV1Row (newClasses : GoMap Felt ClassDefinition) (blockNumber : ℕ) (classHash casmHash : Felt) :
    Except StoreError CasmMetadata :=
  match newClasses.lookup classHash with
  | none => .error .classNotAvailable
  | some (.deprecatedCairo _) => .error .notSierra
  | some (.sierra _ casmHashV2) => .ok (.newDeclaredV1 blockNumber casmHash casmHashV2)

def storeCasmHashMetadataV1 (metadata : Metadata) (blockNumber : ℕ) (diff : StateDiff)
    (newClasses : GoMap Felt ClassDefinition) : Except StoreError Metadata :=
  diff.declaredV1Classes.entries.foldlM (fun rows e => do
    return Function.update rows e.1 (some (← declaredV1Row newClasses blockNumber e.1 e.2))) metadata

/-- The block is of a version whose compiled classes have the hash of version 2. -/
def isV2Protocol (ver : BlockVersion) : Bool := !ver.lessThan ver0_14_1

def storeCasmHashMetadata (metadata : Metadata) (b : Block) : Except StoreError Metadata :=
  match b.header.protocolVersion with
  | none => .error .version
  | some ver =>
    if isV2Protocol ver then storeCasmHashMetadataV2 metadata b.header.number b.diff
    else storeCasmHashMetadataV1 metadata b.header.number b.diff b.declaredClasses

/-- The result of `Update`. -/
def fromState {α : Type} : Except StateError α → Except StoreError α
  | .ok a => .ok a
  | .error e => .error (.state e)

def store (c : Crypto) (b : Block) (db : DB) : Except StoreError DB := do
  let db' ← fromState (b.apply c false db)
  let metadata ← storeCasmHashMetadata db.casmMetadata b
  return db'.withMetadata metadata

def storeAll (c : Crypto) (next : ℕ) : List Block → DB → Except StoreError DB
  | [], db => .ok db
  | b :: bs, db =>
    if b.header.number ≠ next then .error .blockNumber
    else do
      let db ← store c b db
      storeAll c (next + 1) bs db

/-! ### One block -/

variable {db db' : DB} {b : Block} {c : Crypto} {next : ℕ} {bs : List Block} {classHash : Felt}
  {metadata : Metadata}

/-- The hash of version 2 that a block declares a class with; a class that is migrated as well keeps the one
it had. -/
def declaredHashV2 (b : Block) (classHash : Felt) : Option Felt :=
  match b.header.protocolVersion with
  | none => none
  | some ver =>
    if isV2Protocol ver then
      if classHash ∈ b.diff.migratedClasses then none else b.diff.declaredV1Classes.lookup classHash
    else
      (b.diff.declaredV1Classes.lookup classHash).bind fun _ =>
        match b.declaredClasses.lookup classHash with
        | some (.sierra _ casmHashV2) => some casmHashV2
        | _ => none

/-- What becomes of the row of a class, as far as the state after the block is concerned. -/
inductive RowStep (b : Block) (classHash : Felt) (row : Option CasmMetadata) :
    Option CasmMetadata → Prop where
  | migrated {old : CasmMetadata} (hrow : row = some old) (hv1 : old.isDeclaredWithV2 = false)
      (hnot : old.migratedAt = 0) (hkept : declaredHashV2 b classHash = none) :
      RowStep b classHash row (some { old with migratedAt := b.header.number })
  | declared {new : CasmMetadata} {casmHash : Felt}
      (hdeclared : b.diff.declaredV1Classes.lookup classHash = some casmHash) (hhash : new.casmHash = casmHash)
      (hat : new.declaredAt = b.header.number) (hnot : new.migratedAt = 0)
      (hv2 : declaredHashV2 b classHash = some new.casmHashV2) : RowStep b classHash row (some new)
  | same (hdeclared : b.diff.declaredV1Classes.lookup classHash = none) : RowStep b classHash row row

/-- What becomes of the row of a class when a block is stored. -/
inductive RowUpdate (b : Block) (classHash : Felt) (row : Option CasmMetadata) :
    Option CasmMetadata → Prop where
  | migrated {ver : BlockVersion} {old : CasmMetadata} {hash : Felt}
      (hver : b.header.protocolVersion = some ver) (hv2 : isV2Protocol ver = true)
      (hmigrated : b.diff.migratedClasses.lookup classHash = some hash) (hrow : row = some old)
      (hv1 : old.isDeclaredWithV2 = false) (hafter : old.declaredAt < b.header.number)
      (hnot : old.migratedAt = 0) :
      RowUpdate b classHash row (some { old with migratedAt := b.header.number })
  | declaredV2 {ver : BlockVersion} {casmHash : Felt} (hver : b.header.protocolVersion = some ver)
      (hv2 : isV2Protocol ver = true) (hmigrated : b.diff.migratedClasses.lookup classHash = none)
      (hdeclared : b.diff.declaredV1Classes.lookup classHash = some casmHash) :
      RowUpdate b classHash row (some (.newDeclaredV2 b.header.number casmHash))
  | declaredV1 {ver : BlockVersion} {casmHash casmHashV2 : Felt} {bytes : List UInt8}
      (hver : b.header.protocolVersion = some ver) (hv1 : isV2Protocol ver = false)
      (hdeclared : b.diff.declaredV1Classes.lookup classHash = some casmHash)
      (hclass : b.declaredClasses.lookup classHash = some (.sierra bytes casmHashV2)) :
      RowUpdate b classHash row (some (.newDeclaredV1 b.header.number casmHash casmHashV2))
  | same {ver : BlockVersion} (hver : b.header.protocolVersion = some ver)
      (hmigrated : isV2Protocol ver = true → b.diff.migratedClasses.lookup classHash = none)
      (hdeclared : b.diff.declaredV1Classes.lookup classHash = none) : RowUpdate b classHash row row

theorem migratedRow_ok {blockNumber : ℕ} {row : CasmMetadata}
    (h : migratedRow metadata blockNumber classHash = .ok row) :
    ∃ old, metadata classHash = some old ∧ old.isDeclaredWithV2 = false ∧ old.declaredAt < blockNumber ∧
      old.migratedAt = 0 ∧
      row = { old with migratedAt := blockNumber } := by
  rw [migratedRow] at h
  cases hold : metadata classHash with
  | none =>
    rw [hold] at h
    cases h
  | some old =>
    rw [hold] at h
    simp only [CasmMetadata.migrate] at h
    split_ifs at h with hv2 hbefore halready
    cases h
    refine ⟨old, rfl, Bool.not_eq_true _ ▸ hv2, Nat.not_le.mp hbefore, ?_, rfl⟩
    rw [CasmMetadata.isMigrated, decide_eq_true_iff] at halready
    exact Nat.eq_zero_of_not_pos halready

theorem storeCasmHashMetadata_update {metadata' : Metadata}
    (h : storeCasmHashMetadata metadata b = .ok metadata') (classHash : Felt) :
    RowUpdate b classHash (metadata classHash) (metadata' classHash) := by
  rw [storeCasmHashMetadata] at h
  cases hver : b.header.protocolVersion with
  | none =>
    rw [hver] at h
    cases h
  | some ver =>
    rw [hver] at h
    simp only at h
    split_ifs at h with hp
    · rcases GoMap.foldlM_rows (g := fun classHash _ => migratedRow metadata b.header.number classHash) h
        classHash with
        ⟨hnone, hrow⟩ | ⟨hash, row, hmig, hrow, hnew⟩
      · rw [hrow, GoMap.override, GoMap.lookup_mapVals]
        cases hdecl : b.diff.declaredV1Classes.lookup classHash with
        | none => exact .same hver (fun _ => hnone) hdecl
        | some casmHash => exact .declaredV2 hver hp hnone hdecl
      · obtain ⟨old, hold, hv1, hafter, hzero, rfl⟩ := migratedRow_ok hrow
        rw [hnew]
        exact .migrated hver hp hmig hold hv1 hafter hzero
    · have hp' : isV2Protocol ver = false := Bool.not_eq_true _ ▸ hp
      rcases GoMap.foldlM_rows h classHash with ⟨hnone, hrow⟩ | ⟨casmHash, row, hdecl, hrow, hnew⟩
      · rw [hrow]
        exact .same hver (fun ht => absurd ht hp) hnone
      · rw [hnew]
        rw [declaredV1Row] at hrow
        split at hrow
        · cases hrow
        · cases hrow
        · rename_i bytes casmHashV2 hcls
          cases hrow
          exact .declaredV1 hver hp' hdecl hcls

theorem RowUpdate.rowStep {row row' : Option CasmMetadata} (h : RowUpdate b classHash row row') :
    RowStep b classHash row row' := by
  cases h with
  | @migrated ver old hash hver hv2 hmigrated hrow hv1 hafter hnot =>
    refine .migrated hrow hv1 hnot ?_
    simp only [declaredHashV2, hver, hv2, if_true, GoMap.mem_of_lookup hmigrated]
  | @declaredV2 ver casmHash hver hv2 hmigrated hdeclared =>
    refine .declared hdeclared rfl rfl rfl ?_
    simp only [declaredHashV2, hver, hv2, if_true, AList.lookup_eq_none.mp hmigrated, if_false, hdeclared]
    rfl
  | @declaredV1 ver casmHash casmHashV2 bytes hver hv1 hdeclared hclass =>
    refine .declared hdeclared rfl rfl rfl ?_
    simp only [declaredHashV2, hver, hv1, Bool.false_eq_true, if_false, hdeclared, hclass]
    rfl
  | same hver hmigrated hdeclared => exact .same hdeclared

structure Stores (db : DB) (b : Block) (db' : DB) : Prop where
  /-- `Update` accepted it. -/
  effect : b.Effect db db'
  rows : ∀ classHash, RowStep b classHash (db.casmMetadata classHash) (db'.casmMetadata classHash)

theorem store_stores (h : store c b db = .ok db') : Stores db b db' := by
  rw [store] at h
  cases happly : b.apply c false db with
  | error e =>
    rw [happly] at h
    cases h
  | ok db₁ =>
    rw [happly, fromState, ok_bind] at h
    obtain ⟨metadata, hmetadata, h⟩ := bind_eq_ok.mp h
    cases h
    exact ⟨{ Block.apply_effect happly with },
      fun classHash => (storeCasmHashMetadata_update hmetadata classHash).rowStep⟩

/-! ### Many blocks -/

theorem storeAll_append {bs' : List Block} : storeAll c next (bs ++ bs') db = .ok db' ↔
      ∃ db₁, storeAll c next bs db = .ok db₁ ∧ storeAll c (next + bs.length) bs' db₁ = .ok db' := by
  induction bs generalizing next db with
  | nil =>
    rw [List.nil_append, List.length_nil, Nat.add_zero]
    exact ⟨fun h => ⟨db, rfl, h⟩, fun ⟨db₁, h₁, h⟩ => by cases h₁; exact h⟩
  | cons b bs ih =>
    rw [List.cons_append, storeAll, storeAll, List.length_cons, ← Nat.add_assoc]
    split_ifs with hb
    · constructor
      · intro h
        cases h
      · rintro ⟨_, h, -⟩
        cases h
    · rw [bind_eq_ok]
      constructor
      · rintro ⟨db₀, h₀, h⟩
        obtain ⟨db₁, h₁, h⟩ := ih.mp h
        exact ⟨db₁, bind_eq_ok.mpr ⟨db₀, h₀, h₁⟩, by rwa [Nat.add_right_comm] at h⟩
      · rintro ⟨db₁, h₁, h⟩
        obtain ⟨db₀, h₀, h₁⟩ := bind_eq_ok.mp h₁
        exact ⟨db₀, h₀, ih.mpr ⟨db₁, h₁, by rwa [Nat.add_right_comm]⟩⟩

theorem storeAll_concat (h : storeAll c next (bs ++ [b]) db = .ok db') :
    ∃ db₁, storeAll c next bs db = .ok db₁ ∧ b.header.number = next + bs.length ∧ Stores db₁ b db' := by
  obtain ⟨db₁, h₁, h⟩ := storeAll_append.mp h
  rw [storeAll] at h
  split_ifs at h with hb
  obtain ⟨db₂, h₂, h⟩ := bind_eq_ok.mp h
  cases h
  exact ⟨db₁, h₁, not_not.mp hb, store_stores h₂⟩

/-- **No row is of a block from `next` on.** -/
structure Below (next : ℕ) (db : DB) : Prop where
  nonces : ∀ a n, next ≤ n → db.nonceHistory a n = none
  classHashes : ∀ a n, next ≤ n → db.classHashHistory a n = none
  slots : ∀ a key n, next ≤ n → db.storageHistory a key n = none
  heights : ∀ a k, db.contracts a = some k → k.deployedHeight < next
  /-- A contract that is not there was never there, a system contract apart. -/
  blank : ∀ a, isSystemContract a = false → db.contracts a = none →
    (∀ n, db.nonceHistory a n = none) ∧ (∀ n, db.classHashHistory a n = none) ∧ ∀ key n,
      db.storageHistory a key n = none
  classes : ∀ hash dc, db.classes hash = some dc → dc.declaredAt < next
  /-- The metadata of compiled classes. -/
  metadata : ∀ hash row, db.casmMetadata hash = some row → row.declaredAt < next ∧ row.migratedAt < next

theorem below_empty : Below 0 DB.empty := by
  have hnever : ∀ {α : Type} {P : Prop} {x : α}, (none : Option α) = some x → P := fun h => by cases h
  exact ⟨fun _ _ _ => rfl, fun _ _ _ => rfl, fun _ _ _ _ => rfl, fun _ _ h => hnever h,
    fun _ _ _ => ⟨fun _ => rfl, fun _ => rfl, fun _ _ => rfl⟩, fun _ _ h => hnever h, fun _ _ h => hnever h⟩

variable (history : ℕ → Option Felt)

theorem log_of_ne {blockNum n : ℕ} (hn : n ≠ blockNum) (entry : Option (Option Felt)) :
    log history blockNum entry n = history n := by
  cases entry with
  | none => rfl
  | some entry => exact Function.update_of_ne hn _ _

theorem log_none (blockNum : ℕ) : log history blockNum none = history := rfl

theorem Below.store (h : Below next db) (hnum : b.header.number = next) (hs : Stores db b db') :
    Below (next + 1) db' := by
  have heffect := hs.effect
  have hne : ∀ {n}, next + 1 ≤ n → n ≠ b.header.number := fun hn => by omega
  refine ⟨fun a n hn => ?_, fun a n hn => ?_, fun a key n hn => ?_, fun a k hk => ?_, fun a hsys hnone => ?_,
    fun hash dc hdc => ?_, fun hash row hrow => ?_⟩
  · rw [heffect.nonceHistory, log_of_ne _ (hne hn)]
    exact h.nonces a n (Nat.le_of_succ_le hn)
  · rw [heffect.classHashHistory, log_of_ne _ (hne hn)]
    exact h.classHashes a n (Nat.le_of_succ_le hn)
  · rw [heffect.storageHistory, log_of_ne _ (hne hn)]
    exact h.slots a key n (Nat.le_of_succ_le hn)
  · rcases heffect.heights a k hk with heq | ⟨k₀, hk₀, heq⟩
    · omega
    · have := h.heights a k₀ hk₀
      omega
  · have hnot : ¬ (a ∈ b.diff.deployedContracts ∨ db.contracts a ≠ none) := fun hor =>
      (heffect.contracts a hsys).mpr hor hnone
    rw [not_or, not_not] at hnot
    have htouch : ¬ b.diff.Touches a := fun ht => (heffect.there a hsys ht).elim hnot.1 fun hne => hne hnot.2
    rw [StateDiff.Touches, not_or, not_or] at htouch
    obtain ⟨hrep, hnon, hsto⟩ := htouch
    obtain ⟨h₁, h₂, h₃⟩ := h.blank a hsys hnot.2
    refine ⟨fun n => ?_, fun n => ?_, fun key n => ?_⟩
    · rw [heffect.nonceHistory, AList.lookup_eq_none.mpr hnon]
      exact h₁ n
    · rw [heffect.classHashHistory, StateDiff.classHash, AList.lookup_eq_none.mpr hrep,
        AList.lookup_eq_none.mpr hnot.1]
      exact h₂ n
    · rw [heffect.storageHistory, StateDiff.slot, AList.lookup_eq_none.mpr hsto]
      exact h₃ key n
  · rw [heffect.classes] at hdc
    cases hold : db.classes hash with
    | some old =>
      rw [hold] at hdc
      cases hdc
      exact (h.classes hash _ hold).trans (Nat.lt_succ_self _)
    | none =>
      rw [hold, Option.none_or] at hdc
      obtain ⟨cls, -, rfl⟩ := Option.map_eq_some_iff.mp hdc
      exact hnum ▸ Nat.lt_succ_self _
  · have hstep := hs.rows hash
    rw [hrow] at hstep
    generalize hold : db.casmMetadata hash = old at hstep
    generalize hsome : some row = new at hstep
    cases hstep with
    | migrated hr hv1 hnot hkept =>
      cases hsome
      have := (h.metadata hash _ (hold.trans hr)).1
      exact ⟨this.trans (Nat.lt_succ_self _), hnum ▸ Nat.lt_succ_self _⟩
    | declared hdecl hhash hat hnot hv2 =>
      cases hsome
      rw [hat, hnot, hnum]
      exact ⟨Nat.lt_succ_self _, Nat.succ_pos _⟩
    | same hdecl =>
      have := h.metadata hash row (hold.trans hsome.symm)
      exact ⟨this.1.trans (Nat.lt_succ_self _), this.2.trans (Nat.lt_succ_self _)⟩

/-- **After any blocks, no row is of a later block.** -/
theorem storeAll_below (h : Below next db) (hs : storeAll c next bs db = .ok db') :
    Below (next + bs.length) db' := by
  induction bs generalizing next db with
  | nil =>
    cases hs
    exact h
  | cons b bs ih =>
    rw [storeAll] at hs
    split_ifs at hs with hb
    obtain ⟨db₁, h₁, hs⟩ := bind_eq_ok.mp hs
    have := ih (h.store (not_not.mp hb) (store_stores h₁)) hs
    rwa [Nat.add_right_comm, Nat.add_assoc, ← List.length_cons] at this

end Juno.Statebackend
