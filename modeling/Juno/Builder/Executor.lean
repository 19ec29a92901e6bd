import Juno.Preconfirmed.Adapt
import Mathlib

/-!
# The block that is being built

Packages `builder` and `consensus/proposer`: transactions are executed in batches over the head state, and
what the virtual machine returns for a batch is added to a pre-confirmed block. The proposer runs a batch on a
clone of the block it holds, and holds the clone if the batch succeeds.

## The model

* `VmStateDiff`, `TxResult` — what the virtual machine returns for a transaction. The machine only reads the
  state.
* `DiffRef` — a `core.StateDiff`, with its storage maps behind pointers into `Maps`. Its deprecated classes
  are pointers that may be nil; they stand beside the other fields, whose own list of deprecated classes stays
  empty.
* `Attempt` — the inputs of one call of `RunTxns`: the batch, the head state's answers and the machine's
  answer, one result for each transaction.
* `runTxns` — what a call leaves in memory, also when it fails half way.

A map that `Clone` copies and that holds no other maps is a value here. Slices are only appended to, so what
shares their elements does not see it.
-/

namespace Juno.Builder

open Lib Preconfirmed

/-! ### What the virtual machine returns -/

/-- `vm.StateDiff`. A nil slice is told from an empty one where the code does. -/
structure VmStateDiff where
  /-- `StorageDiffs`: the entries of each address. -/
  storageDiffs : List (Felt × List (Felt × Felt))
  nonces : List (Felt × Felt)
  deployedContracts : List (Felt × Felt)
  deprecatedDeclaredClasses : Option (List Felt)
  declaredClasses : Option (List (Felt × Felt))
  replacedClasses : List (Felt × Felt)
  migratedCompiledClasses : List (Felt × Felt)

/-- The last value that a list gives to a key. -/
def lastOf {V : Type} (l : List (Felt × V)) (k : Felt) : Option V := l.reverse.lookup k

def VmStateDiff.value (d : VmStateDiff) : DiffValue where
  storage addr := (lastOf d.storageDiffs addr).map fun entries k => lastOf entries k
  nonces := lastOf d.nonces
  deployed := lastOf d.deployedContracts
  declaredV0 := d.deprecatedDeclaredClasses.getD []
  declaredV1 := lastOf (d.declaredClasses.getD [])
  replaced := lastOf d.replacedClasses
  migrated := lastOf d.migratedCompiledClasses

/-- What the machine returns for a transaction. -/
structure TxResult (X : Type) where
  stateDiff : Option VmStateDiff
  l2Gas : ℕ
  /-- The rest of the trace, the receipt and the fee. -/
  rest : X

/-- What the diff of a trace says; a trace without one changes nothing. -/
def diffValue (d : Option VmStateDiff) : DiffValue := (d.map VmStateDiff.value).getD .empty

def TxResult.value {X : Type} (r : TxResult X) : DiffValue := diffValue r.stateDiff

/-! ### Transactions -/

/-- `core.Transaction`: a `DeclareTransaction`, or another one. -/
inductive CoreTransaction (T : Type) where
  /-- `DeclareTransaction`, with its `ClassHash` and its `CompiledClassHash`. -/
  | declare (classHash : Felt) (compiledClassHash : Option Felt) (rest : T)
  | other (rest : T)

/-- `mempool.BroadcastedTransaction`. -/
structure BroadcastedTransaction (T : Type) where
  transaction : CoreTransaction T
  declaredClass : Option ClassDefinition

/-- A transaction with what the machine returned for it. -/
abbrev Executed (T X : Type) := BroadcastedTransaction T × TxResult X

/-! ### The block -/

/-- `core.StateDiff`. -/
structure DiffRef where
  /-- The fields apart from the deprecated classes. -/
  object : DiffObject
  declaredV0Classes : List (Option Felt)

/-- `EmptyStateDiff`. -/
def DiffRef.empty : DiffRef := ⟨.empty, []⟩

structure BuildState (T Y : Type) where
  transactionCount : ℕ
  eventCount : ℕ
  transactions : List (CoreTransaction T)
  receipts : List (Receipt Y)
  transactionStateDiffs : List DiffRef
  stateDiff : DiffRef
  /-- `NewClasses`; a definition may be nil. -/
  newClasses : GoMap Felt (Option ClassDefinition)
  l2GasConsumed : ℕ

def initPreconfirmedBlock {T Y : Type} : BuildState T Y := ⟨0, 0, [], [], [], .empty, ∅, 0⟩

/-! ### A batch -/

/-- What the head state says about a class. -/
inductive ClassLookup where
  | found
  /-- `db.ErrKeyNotFound`. -/
  | notFound
  | failed
  deriving DecidableEq

/-- What `RunTxns` fails with. -/
inductive RunError where
  | headState
  | vm
  | classAlreadyDeclared
  | getClass
  | panic
  deriving DecidableEq

structure Attempt (T X : Type) where
  txns : List (BroadcastedTransaction T)
  headState : Option (Felt → ClassLookup)
  buildBlock : Option (List (TxResult X))
  /-- The machine returns one result for each transaction. -/
  length_results : ∀ results, buildBlock = some results → results.length = txns.length

section

variable {T X Y : Type}

/-- The list of deprecated classes after a class is set: a `DeprecatedCairoClass` is appended. -/
def appendDeprecated (declaredV0Classes : List (Option Felt)) (classHash : Felt) :
    Option ClassDefinition → List (Option Felt)
  | some (.deprecatedCairo _) => declaredV0Classes ++ [some classHash]
  | _ => declaredV0Classes

variable (head : Felt → ClassLookup)

def setContractClass (s : BuildState T Y) (classHash : Felt) (definition : Option ClassDefinition) :
    Except RunError (BuildState T Y) :=
  if classHash ∈ s.newClasses then .error .classAlreadyDeclared
  else
    match head classHash with
    | .found => .error .classAlreadyDeclared
    | .failed => .error .getClass
    | .notFound =>
      .ok
        { s with
          newClasses := s.newClasses.insert classHash definition
          stateDiff :=
            { s.stateDiff with
              declaredV0Classes := appendDeprecated s.stateDiff.declaredV0Classes classHash definition } }

def setCompiledClassHash (s : BuildState T Y) (classHash compiledClassHash : Felt) : BuildState T Y :=
  { s with
    stateDiff :=
      { s.stateDiff with
        object :=
          { s.stateDiff.object with
            declaredV1Classes := s.stateDiff.object.declaredV1Classes.insert classHash compiledClassHash } } }

def processClassDeclaration (txn : BroadcastedTransaction T) (s : BuildState T Y) :
    Except RunError (BuildState T Y) :=
  match txn.transaction with
  | .declare classHash compiledClassHash _ => do
    let s ← setContractClass head s classHash txn.declaredClass
    match compiledClassHash with
    | some compiledClassHash => .ok (setCompiledClassHash s classHash compiledClassHash)
    | none => .ok s
  | .other _ => .ok s

/-- The loop over the traces that declares the classes; it stops at the first error. -/
def declareClasses (head : Felt → ClassLookup) :
    List (Executed T X) → BuildState T Y → BuildState T Y × Option RunError
  | [], s => (s, none)
  | p :: ps, s =>
    match p.2.stateDiff with
    | none => (s, some .panic)
    | some d =>
      if d.declaredClasses.isSome ∨ d.deprecatedDeclaredClasses.isSome then
        match processClassDeclaration head p.1 s with
        | .error err => (s, some err)
        | .ok s => declareClasses head ps s
      else declareClasses head ps s

/-- A loop that writes the pairs of a slice into a new map. -/
def ofPairs {V : Type} (l : List (Felt × V)) : GoMap Felt V := l.foldl (fun m p => m.insert p.1 p.2) ∅

def adaptMaps (d : VmStateDiff) : StateDiff where
  storageDiffs := ofPairs (d.storageDiffs.map fun p => (p.1, ofPairs p.2))
  nonces := ofPairs d.nonces
  deployedContracts := ofPairs d.deployedContracts
  declaredV0Classes := []
  declaredV1Classes := ofPairs (d.declaredClasses.getD [])
  replacedClasses := ofPairs d.replacedClasses
  migratedClasses := ofPairs d.migratedCompiledClasses

/-- `AdaptStateDiff`: the slice of deprecated classes is made in its length, and its elements stay nil. -/
def adaptStateDiff (maps : Maps) : Option VmStateDiff → Maps × DiffRef
  | none => (maps, .empty)
  | some d =>
    let made := allocDiff maps (adaptMaps d)
    (made.1, ⟨made.2, List.replicate (d.deprecatedDeclaredClasses.getD []).length none⟩)

def adaptStateDiffs (maps : Maps) : List (Option VmStateDiff) → Maps × List DiffRef
  | [] => (maps, [])
  | d :: ds =>
    let made := adaptStateDiff maps d
    let rest := adaptStateDiffs made.1 ds
    (rest.1, made.2 :: rest.2)

/-- `StateDiff.Merge`. -/
def mergeRef (r : Maps × DiffRef) (incoming : DiffRef) : Maps × DiffRef :=
  let merged := merge r.1 r.2.object incoming.object
  (merged.1, ⟨merged.2, r.2.declaredV0Classes ++ incoming.declaredV0Classes⟩)

def updatePreconfirmedBlock (maps : Maps) (s : BuildState T Y) (receipts : List (Receipt Y))
    (transactions : List (CoreTransaction T)) (stateDiffs : List DiffRef) : Maps × BuildState T Y :=
  let merged := stateDiffs.foldl mergeRef (maps, s.stateDiff)
  (merged.1,
    { s with
      receipts := s.receipts ++ receipts
      transactionStateDiffs := s.transactionStateDiffs ++ stateDiffs
      transactions := s.transactions ++ transactions
      transactionCount := s.transactionCount + transactions.length
      eventCount := receipts.foldl (fun n receipt => n + receipt.events.length) s.eventCount
      stateDiff := merged.2 })

/-- The loop over the gas, in `uint64` arithmetic. -/
def consumeGas (consumed : ℕ) (results : List (TxResult X)) : ℕ :=
  results.foldl (fun n r => (n + r.l2Gas) % 2 ^ 64) consumed

variable (adaptReceipt : CoreTransaction T → TxResult X → Receipt Y)

/-- The part of `RunTxns` that cannot fail: the results are adapted and added to the block. `adaptReceipt` is
`vm2core.Receipt`. -/
def addResults (maps : Maps) (s : BuildState T Y) (txns : List (BroadcastedTransaction T))
    (results : List (TxResult X)) : Maps × BuildState T Y :=
  let adapted := adaptStateDiffs maps (results.map fun r => r.stateDiff)
  let updated :=
    updatePreconfirmedBlock adapted.1 s ((txns.zip results).map fun p => adaptReceipt p.1.transaction p.2)
    (txns.map fun t => t.transaction) adapted.2
  (updated.1, { updated.2 with l2GasConsumed := consumeGas updated.2.l2GasConsumed results })

/-- `RunTxns`: what it leaves in memory, and its error. -/
def runTxns (maps : Maps) (s : BuildState T Y) (a : Attempt T X) :
    (Maps × BuildState T Y) × Option RunError :=
  if a.txns = [] then ((maps, s), none)
  else
    match a.headState with
    | none => ((maps, s), some .headState)
    | some head =>
      match a.buildBlock with
      | none => ((maps, s), some .vm)
      | some results =>
        let declared := declareClasses head (a.txns.zip results) s
        match declared.2 with
        | some err => ((maps, declared.1), some err)
        | none => (addResults adaptReceipt maps declared.1 a.txns results, none)

end

/-! ### The proposer -/

/-- One turn of `cloneStorageDiffs`. -/
def cloneStep (r : Maps × GoMap Felt ℕ) (e : Σ _ : Felt, ℕ) : Maps × GoMap Felt ℕ :=
  (r.1 ++ [r.1.read e.2], r.2.insert e.1 r.1.length)

def cloneStateDiff (maps : Maps) (d : DiffRef) : Maps × DiffRef :=
  let cloned := d.object.storageDiffs.entries.foldl cloneStep (maps, ∅)
  (cloned.1, { d with object := { d.object with storageDiffs := cloned.2 } })

/-- `BuildState.Clone`. The diffs of the transactions are shared. -/
def BuildState.clone {T Y : Type} (maps : Maps) (s : BuildState T Y) : Maps × BuildState T Y :=
  let cloned := cloneStateDiff maps s.stateDiff
  (cloned.1, { s with stateDiff := cloned.2 })

/-- The memory, and the block that the proposer holds. -/
structure Proposer (T Y : Type) where
  maps : Maps
  buildState : BuildState T Y

namespace Proposer

variable {T X Y : Type} (adaptReceipt : CoreTransaction T → TxResult X → Receipt Y)

def init : Proposer T Y := ⟨[], initPreconfirmedBlock⟩

def runTransactions (p : Proposer T Y) (a : Attempt T X) : Proposer T Y × Option RunError :=
  let cloned := p.buildState.clone p.maps
  let r := runTxns adaptReceipt cloned.1 cloned.2 a
  match r.2 with
  | some err => (⟨r.1.1, p.buildState⟩, some err)
  | none => (⟨r.1.1, r.1.2⟩, none)

def run (p : Proposer T Y) (attempts : List (Attempt T X)) : Proposer T Y :=
  attempts.foldl (fun p a => (p.runTransactions adaptReceipt a).1) p

/-- The transactions of the batches that succeeded, with their results. -/
def executed (p : Proposer T Y) : List (Attempt T X) → List (Executed T X)
  | [] => []
  | a :: attempts =>
    let r := p.runTransactions adaptReceipt a
    (if r.2 = none then a.txns.zip (a.buildBlock.getD []) else []) ++ executed r.1 attempts

end Proposer

end Juno.Builder
