import Juno.EventFilter.Aggregated
import Juno.Preconfirmed.Objects
import Mathlib

/-!
# The chain of pre-confirmed blocks

Package `sync/preconfirmed`: the blocks above the head of the chain, as the feeder gateway tells
them. A poll brings a whole block, the transactions that were added to one, or nothing new, and
`ChainStorage` keeps the blocks in a linked list of nodes that are never changed, so that a
reader may go on with the list it was given.

## The model

* `Adapter` — what `sn2core` makes of transactions, receipts and diffs from the wire, the check of the
  protocol version and the hash functions of the bloom library; these are parameters.
* `Storage` — the storage maps, the nodes, and the chain; pointers are indices, and what was allocated
  stays. A block number is a `uint64`; only `tip + 1` may wrap.
* `Call`, `step` — `ApplyUpdate` and `AdvanceTo`, which one goroutine calls.
-/

namespace Juno.Preconfirmed

open Lib
open EventFilter (Bytes BloomFilter Event)

/-! ### Blocks -/

/-- A receipt: its events and the rest. -/
structure Receipt (Y : Type) where
  events : List Event
  body : Y

/-- `starknet.PreConfirmedBlock`. -/
structure PreConfirmedBlock (W Z S H : Type) where
  blockIdentifier : String
  transactions : List W
  receipts : List (Receipt Z)
  transactionStateDiffs : List S
  /-- The sequencer, the timestamp, the version and the gas prices. -/
  header : H

/-- `starknet.PreConfirmedDeltaUpdate`. -/
structure PreConfirmedDeltaUpdate (W Z S : Type) where
  blockIdentifier : String
  transactions : List W
  receipts : List (Receipt Z)
  transactionStateDiffs : List S

/-- `starknet.PreConfirmedUpdate`. -/
inductive PreConfirmedUpdate (W Z S H : Type) where
  | block (block : PreConfirmedBlock W Z S H)
  | delta (delta : PreConfirmedDeltaUpdate W Z S)
  /-- `PreConfirmedNoChange`. -/
  | noChange

/-- What is made of what comes over the wire. -/
structure Adapter (W Z S H T Y : Type) where
  adaptTransaction : W → Option T
  adaptStateDiff : S → Option StateDiff
  /-- `AdaptTransactionReceipt`, the events apart. -/
  adaptReceiptBody : Z → Y
  checkBlockVersion : H → Bool
  /-- The hash functions of the bloom library. -/
  locations : Bytes → ℕ → List ℕ

def plainAdapter : Adapter Unit Unit StateDiff Unit Unit Unit :=
  ⟨some, some, id, fun _ => true, fun _ _ => []⟩

/-- `core.Header`. -/
structure BlockHeader (H : Type) where
  number : ℕ
  transactionCount : ℕ
  eventCount : ℕ
  rest : H

abbrev Classes := GoMap Felt ClassDefinition

/-- `pending.PreConfirmed`. -/
structure PreConfirmed (H T Y : Type) where
  header : BlockHeader H
  transactions : List T
  receipts : List (Receipt Y)
  stateDiff : DiffObject
  newClasses : Classes
  transactionStateDiffs : List DiffObject
  blockIdentifier : String

/-- What `ApplyUpdate` fails with. -/
inductive ApplyError where
  /-- A transaction cannot be adapted. -/
  | transaction
  /-- A state diff cannot be adapted. -/
  | stateDiff
  /-- `ErrPreConfirmedIdentifierMismatch`. -/
  | identifierMismatch
  /-- `unsupported block version`. -/
  | version
  /-- `bootstrap rejected`. -/
  | bootstrap
  /-- `oldest pre-confirmed slot not aligned`. -/
  | notAligned
  /-- `applying target below the oldest pre-confirmed slot`. -/
  | belowOldest
  /-- `gap above tip`. -/
  | gap
  /-- `merging pre-confirmed event bloom`. -/
  | bloom
  /-- `append rejected`. -/
  | append
  /-- `delta at non-tip slot` or `no-change at non-tip slot`. -/
  | nonTip
  /-- `ErrBaseTxCountMismatch`. -/
  | baseTxCountMismatch
  | panic
  deriving DecidableEq

variable {W Z S H T Y : Type}

def eventsBloom (A : Adapter W Z S H T Y) (receipts : List (Receipt Y)) : BloomFilter :=
  EventFilter.eventsBloom A.locations (receipts.map fun r => r.events)

/-! ### Adapting -/

/-- What the loops of `AdaptPreConfirmedBlock` and of `AdaptPreConfirmedWithDelta` leave. -/
structure Adapted (T Y : Type) where
  maps : Maps
  transactions : List T
  stateDiffs : List DiffObject
  receipts : List (Receipt Y)
  eventCount : ℕ

variable (A : Adapter W Z S H T Y)

def adaptTransactionReceipt (receipt : Receipt Z) : Receipt Y :=
  ⟨receipt.events, A.adaptReceiptBody receipt.body⟩

/-- A transaction is put in front of those adapted after it. -/
def Adapted.cons (tx : T) (stateDiff : DiffObject) (receipt : Receipt Y) (a : Adapted T Y) : Adapted T Y :=
  ⟨a.maps, tx :: a.transactions, stateDiff :: a.stateDiffs, receipt :: a.receipts,
    receipt.events.length + a.eventCount⟩

abbrev TxPart (T Y : Type) := T × StateDiff × Receipt Y

/-- The next transaction is adapted with its state diff and its receipt; what is left of the lists. -/
def adaptNext (tx : W) (stateDiffs : List S) (receipts : List (Receipt Z)) :
    Except ApplyError (TxPart T Y × List S × List (Receipt Z)) :=
  match A.adaptTransaction tx with
  | none => .error .transaction
  | some tx =>
    match stateDiffs with
    | [] => .error .panic
    | stateDiff :: stateDiffs =>
      match A.adaptStateDiff stateDiff with
      | none => .error .stateDiff
      | some stateDiff =>
        match receipts with
        | [] => .error .panic
        | receipt :: receipts =>
          .ok ((tx, stateDiff, adaptTransactionReceipt A receipt), stateDiffs, receipts)

/-- The loop of `AdaptPreConfirmedBlock`. -/
def adaptLoop (A : Adapter W Z S H T Y) (maps : Maps) :
    List W → List S → List (Receipt Z) → Except ApplyError (Adapted T Y)
  | [], _, _ => .ok ⟨maps, [], [], [], 0⟩
  | tx :: txs, stateDiffs, receipts => do
    let r ← adaptNext A tx stateDiffs receipts
    let made := allocDiff maps r.1.2.1
    let a ← adaptLoop A made.1 txs r.2.1 r.2.2
    .ok (a.cons r.1.1 made.2 r.1.2.2)

def mergeDiffs (r : Maps × DiffObject) (stateDiffs : List DiffObject) : Maps × DiffObject :=
  stateDiffs.foldl (fun r stateDiff => merge r.1 r.2 stateDiff) r

def Adapted.block (a : Adapted T Y) (stateDiff : DiffObject) (response : PreConfirmedBlock W Z S H)
    (number : ℕ) : PreConfirmed H T Y :=
  { header := ⟨number, a.transactions.length, a.eventCount, response.header⟩
    transactions := a.transactions
    receipts := a.receipts
    stateDiff := stateDiff
    newClasses := ∅
    transactionStateDiffs := a.stateDiffs
    blockIdentifier := response.blockIdentifier }

def adaptPreConfirmedBlock (maps : Maps) (response : PreConfirmedBlock W Z S H) (number : ℕ) :
    Except ApplyError (Maps × PreConfirmed H T Y) := do
  let a ← adaptLoop A maps response.transactions response.transactionStateDiffs response.receipts
  let merged := mergeDiffs (a.maps, .empty) a.stateDiffs
  .ok (merged.1, a.block merged.2 response number)

/-- The loop of `AdaptPreConfirmedWithDelta`, with the diff of the block so far. -/
def deltaLoop (A : Adapter W Z S H T Y) (maps : Maps) (next : DiffObject) :
    List W → List S → List (Receipt Z) → Except ApplyError (Adapted T Y × DiffObject)
  | [], _, _ => .ok (⟨maps, [], [], [], 0⟩, next)
  | tx :: txs, stateDiffs, receipts => do
    let r ← adaptNext A tx stateDiffs receipts
    let made := allocDiff maps r.1.2.1
    let merged := merge made.1 next made.2
    let a ← deltaLoop A merged.1 merged.2 txs r.2.1 r.2.2
    .ok (a.1.cons r.1.1 made.2 r.1.2.2, a.2)

def adaptPreConfirmedWithDelta (maps : Maps) (current : PreConfirmed H T Y)
    (delta : PreConfirmedDeltaUpdate W Z S) : Except ApplyError (Maps × PreConfirmed H T Y) :=
  if current.blockIdentifier ≠ delta.blockIdentifier then .error .identifierMismatch
  else do
    let copied := merge maps .empty current.stateDiff
    let a ← deltaLoop A copied.1 copied.2 delta.transactions delta.transactionStateDiffs delta.receipts
    .ok (a.1.maps,
      { current with
        header :=
          { current.header with
            eventCount := current.header.eventCount + a.1.eventCount
            transactionCount := current.header.transactionCount + delta.transactions.length }
        transactions := current.transactions ++ a.1.transactions
        receipts := current.receipts ++ a.1.receipts
        stateDiff := a.2
        transactionStateDiffs := current.transactionStateDiffs ++ a.1.stateDiffs })

/-! ### The chain -/

structure Node (H T Y : Type) where
  value : PreConfirmed H T Y
  bloom : BloomFilter
  parent : Option ℕ

structure ChainReader where
  head : Option ℕ
  length : ℕ

structure Storage (H T Y : Type) where
  maps : Maps
  nodes : List (Node H T Y)
  inner : Option ChainReader

/-- `NewChainStorage`. -/
def Storage.new : Storage H T Y := ⟨[], [], none⟩

variable (nodes : List (Node H T Y))

def nodeAt (p : Option ℕ) : Option (Node H T Y) := p.bind fun p => nodes[p]?

variable (c : ChainReader)

/-- `tip`; a chain that is not empty has a head. -/
def tip : ℕ :=
  ((nodeAt nodes c.head).map fun n => n.value.header.number).getD 0

def oldestPreConf : ℕ := tip nodes c - (c.length - 1)

def contains (blockNumber : ℕ) : Bool :=
  0 < c.length && oldestPreConf nodes c ≤ blockNumber && blockNumber ≤ tip nodes c

/-- `NewestFirst`: the nodes of a reader. -/
def newestFirst (nodes : List (Node H T Y)) : Option ℕ → ℕ → List (Node H T Y)
  | _, 0 => []
  | p, length + 1 =>
    match nodeAt nodes p with
    | none => []
    | some n => n :: newestFirst nodes n.parent length

def Storage.snapshotForBlock (s : Storage H T Y) (blockNumber : ℕ) : ChainReader :=
  match s.inner with
  | none => ⟨none, 0⟩
  | some c =>
    if contains s.nodes c blockNumber then ⟨c.head, tip s.nodes c - blockNumber + 1⟩ else ⟨none, 0⟩

def mergeClassesCopying (base extra : Classes) : Classes :=
  if extra.entries.length = 0 then base else base.copyFrom extra

def preConfirmedBlankIdentifier : String := "0x0"

def shouldPreserveSlot (existing incoming : PreConfirmed H T Y) : Bool :=
  if incoming.blockIdentifier ≠ existing.blockIdentifier ∧
    incoming.blockIdentifier ≠ preConfirmedBlankIdentifier then false
  else if existing.header.transactionCount < incoming.header.transactionCount then false
  else if existing.newClasses.entries.length < incoming.newClasses.entries.length then false
  else true

def ancestor (nodes : List (Node H T Y)) : Option ℕ → ℕ → Option ℕ
  | p, 0 => p
  | p, depth + 1 => ancestor nodes ((nodeAt nodes p).bind fun n => n.parent) depth

/-- What is allocated for an update, and the chain it leads to. -/
structure NewChain (H T Y : Type) where
  maps : Maps
  /-- The new node, the head of the new chain. -/
  node : Node H T Y
  length : ℕ

section

variable (A : Adapter W Z S H T Y) (maps : Maps) (block : PreConfirmedBlock W Z S H)

def adaptBlock (blockNumber : ℕ) (newClasses : Classes) : Except ApplyError (Maps × PreConfirmed H T Y) := do
  let r ← adaptPreConfirmedBlock A maps block blockNumber
  if A.checkBlockVersion r.2.header.rest then .ok (r.1, { r.2 with newClasses := newClasses })
    else .error .version

def newNode (value : PreConfirmed H T Y) (parent : Option ℕ) : Node H T Y :=
  ⟨value, eventsBloom A value.receipts, parent⟩

def bootstrapChain (blockNumber oldest : ℕ) (newClasses : Classes) : Except ApplyError (NewChain H T Y) :=
  if blockNumber ≠ oldest then .error .bootstrap
  else do
    let next ← adaptBlock A maps block blockNumber newClasses
    .ok ⟨next.1, newNode A next.2 none, 1⟩

def extend (current : ChainReader) (block : PreConfirmedBlock W Z S H) (blockNumber : ℕ)
    (newClasses : Classes) : Except ApplyError (NewChain H T Y) := do
  let next ← adaptBlock A maps block blockNumber newClasses
  .ok ⟨next.1, newNode A next.2 current.head, current.length + 1⟩

/-- `replaceSlot`; `none` is a call without an effect. -/
def replaceSlot (nodes : List (Node H T Y)) (current : ChainReader) (update : PreConfirmedUpdate W Z S H)
    (blockNumber baseTxCount : ℕ) (newClasses : Classes) : Except ApplyError (Option (NewChain H T Y)) :=
  let depthFromHead := tip nodes current - blockNumber
  match nodeAt nodes (ancestor nodes current.head depthFromHead) with
  | none => .error .panic
  | some target =>
    match update with
    | .block block => do
      let next ← adaptBlock A maps block blockNumber newClasses
      if shouldPreserveSlot target.value next.2 then .ok none
      else .ok (some ⟨next.1, newNode A next.2 target.parent, current.length - depthFromHead⟩)
    | .delta delta =>
      if depthFromHead ≠ 0 then .error .nonTip
      else if target.value.transactions.length ≠ baseTxCount then .error .baseTxCountMismatch
      else do
        let next ← adaptPreConfirmedWithDelta A maps target.value delta
        match (eventsBloom A (next.2.receipts.drop baseTxCount)).merge target.bloom with
        | none => .error .bloom
        | some bloom =>
          .ok (some
            { maps := next.1
              node :=
                { value := { next.2 with newClasses := mergeClassesCopying next.2.newClasses newClasses }
                  bloom := bloom
                  parent := target.parent }
              length := current.length })
    | .noChange =>
      if newClasses.entries.length = 0 then .ok none
      else if depthFromHead ≠ 0 then .error .nonTip
      else
        let merged := mergeClassesCopying target.value.newClasses newClasses
        if merged.entries.length = target.value.newClasses.entries.length then .ok none
        else .ok (some
          { maps := maps
            node := { target with value := { target.value with newClasses := merged } }
            length := current.length })

/-- `uint64` arithmetic. -/
def succ64 (n : ℕ) : ℕ := if n + 1 = 2 ^ 64 then 0 else n + 1

def computeUpdate (s : Storage H T Y) (update : PreConfirmedUpdate W Z S H)
    (blockNumber baseTxCount oldest : ℕ) (newClasses : Classes) :
    Except ApplyError (Option (NewChain H T Y)) :=
  match s.inner with
  | none =>
    match update with
    | .block block => (bootstrapChain A s.maps block blockNumber oldest newClasses).map some
    | _ => .error .bootstrap
  | some current =>
    if oldestPreConf s.nodes current ≠ oldest then .error .notAligned
    else if blockNumber < oldestPreConf s.nodes current then .error .belowOldest
    else if succ64 (tip s.nodes current) < blockNumber then .error .gap
    else if blockNumber = tip s.nodes current + 1 then
      match update with
      | .block block => (extend A s.maps current block blockNumber newClasses).map some
      | _ => .error .append
    else replaceSlot A s.maps s.nodes current update blockNumber baseTxCount newClasses

def Storage.applyUpdate (s : Storage H T Y) (update : PreConfirmedUpdate W Z S H)
    (blockNumber baseTxCount oldest : ℕ) (newClasses : Classes) : Except ApplyError (Storage H T Y) := do
  match ← computeUpdate A s update blockNumber baseTxCount oldest newClasses with
  | none => .ok s
  | some c =>
    .ok
      { maps := c.maps
        nodes := s.nodes ++ [c.node]
        inner := some ⟨some s.nodes.length, c.length⟩ }

end

def rebuild (nodes : List (Node H T Y)) : Option ℕ → ℕ → List (Node H T Y) × Option ℕ
  | _, 0 => (nodes, none)
  | current, keep + 1 =>
    match nodeAt nodes current with
    | none => (nodes, none)
    | some n =>
      let child := rebuild nodes n.parent keep
      (child.1 ++ [{ n with parent := child.2 }], some child.1.length)

def Storage.advanceTo (s : Storage H T Y) (oldest : ℕ) : Storage H T Y :=
  match s.inner with
  | none => s
  | some current =>
    if oldest = oldestPreConf s.nodes current then s
    else if !contains s.nodes current oldest then { s with inner := none }
    else
      let keep := current.length - (oldest - oldestPreConf s.nodes current)
      let rebuilt := rebuild s.nodes current.head keep
      { s with nodes := rebuilt.1, inner := some ⟨rebuilt.2, keep⟩ }

inductive Call (W Z S H : Type) where
  | applyUpdate (update : PreConfirmedUpdate W Z S H) (blockNumber baseTxCount oldest : ℕ)
    (newClasses : Classes)
  | advanceTo (oldest : ℕ)

/-- What a call does; one that fails changes nothing. -/
def Storage.step (A : Adapter W Z S H T Y) (s : Storage H T Y) : Call W Z S H → Storage H T Y
  | .applyUpdate update blockNumber baseTxCount oldest newClasses =>
    match s.applyUpdate A update blockNumber baseTxCount oldest newClasses with
    | .ok s' => s'
    | .error _ => s
  | .advanceTo oldest => s.advanceTo oldest

def Storage.run (A : Adapter W Z S H T Y) (s : Storage H T Y) (calls : List (Call W Z S H)) : Storage H T Y :=
  calls.foldl (Storage.step A) s

end Juno.Preconfirmed
