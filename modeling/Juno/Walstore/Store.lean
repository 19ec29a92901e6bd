import Mathlib
import Juno.Lib.GoMap

/-!
# The log of the consensus inputs

`consensus/walstore`: an append-only log of entries, each of a height, with prune records that
discard all entries up to a height. Records are collected in memory and reach the disk with a
flush, as one batch. The live entries are kept in memory in an index, which also knows which
log files they are in; every so many prune records the files without live entries are removed.

## The model

A `Disk` is what survives a crash: the log files, with the batches in them, and the prune
watermark. The end of a file can be torn. A batch is kept as the list of its records; its
encoding is not modelled. What the operating system does is chosen from outside (`Faults`): any
write, sync, close or removal can fail, and a batch that was not synced may be in its file whole,
until the file is repaired. Of the log manager it is assumed only that it makes files obsolete
that have a number below the one it is given, as it is asked to.
-/

namespace Juno.Walstore

open Juno.Lib

/-- `walRecordEnvelope`. -/
inductive Record (E : Type) where
  /-- `walRecordEntry`. -/
  | entry (e : E)
  /-- `walRecordPruneUpToHeight`. -/
  | prune (height : ℕ)
  deriving DecidableEq, Repr

/-- A log file: its number, the batches in it, and whether there is something behind them that is no
record. -/
structure Log (E : Type) where
  num : ℕ
  batches : List (List (Record E))
  torn : Bool

structure Disk (E : Type) where
  logs : List (Log E)
  /-- The height of the prune watermark file, 0 if there is none. -/
  watermark : ℕ

/-! ### The index -/

/-- `walNumSet`: a set of log numbers, empty if `first` is 0. -/
structure WalNumSet where
  first : ℕ
  rest : List ℕ
  deriving DecidableEq, Repr

namespace WalNumSet

def empty : WalNumSet := ⟨0, []⟩

/-- `addIfMissing`: false if the number is in the set. -/
def addIfMissing (s : WalNumSet) (walNum : ℕ) : Bool × WalNumSet :=
  if s.first = 0 then (true, { s with first := walNum })
  else if s.first = walNum ∨ walNum ∈ s.rest then (false, s)
  else (true, { s with rest := s.rest ++ [walNum] })

/-- The numbers `rangeOver` visits. -/
def toList (s : WalNumSet) : List ℕ := if s.first = 0 then [] else s.first :: s.rest

end WalNumSet

structure Index (E : Type) where
  entriesByHeight : GoMap ℕ (List E)
  /-- `walFilesByHeight`: the files that have entries of a height. -/
  walFilesByHeight : GoMap ℕ WalNumSet
  /-- `walHeightRefs`: how many heights have entries in a file. -/
  walHeightRefs : GoMap ℕ ℤ
  prunedUpToHeight : ℕ

variable {E : Type} (getHeight : E → ℕ)

namespace Index

def empty (prunedUpToHeight : ℕ) : Index E := ⟨∅, ∅, ∅, prunedUpToHeight⟩

variable (s : Index E) (walNum : ℕ)

def addRef : Index E :=
  { s with walHeightRefs := s.walHeightRefs.insert walNum ((s.walHeightRefs.lookup walNum).getD 0 + 1) }

/-- `walHeightRefs[walNum]--`, and the file is forgotten if there is no height left. -/
def dropRef : Index E :=
  let refs := (s.walHeightRefs.lookup walNum).getD 0 - 1
  { s with walHeightRefs := if refs = 0 then s.walHeightRefs.erase walNum else
    s.walHeightRefs.insert walNum refs }

def addLiveEntry (entry : E) : Index E :=
  let height := getHeight entry
  let s := { s with
    entriesByHeight :=
      s.entriesByHeight.insert height ((s.entriesByHeight.lookup height).getD [] ++ [entry]) }
  let (added, referencedWALs) := ((s.walFilesByHeight.lookup height).getD .empty).addIfMissing walNum
  if added then { s with walFilesByHeight := s.walFilesByHeight.insert height referencedWALs }.addRef walNum
    else s

def deleteLiveHeight (height : ℕ) : Index E :=
  let referencedWALs := (s.walFilesByHeight.lookup height).getD .empty
  let s := { s with
    entriesByHeight := s.entriesByHeight.erase height
    walFilesByHeight := s.walFilesByHeight.erase height }
  referencedWALs.toList.foldl dropRef s

def pruneLiveEntriesUpTo (height : ℕ) : Index E :=
  if height ≤ s.prunedUpToHeight then s
  else
    let s := { s with prunedUpToHeight := height }
    s.entriesByHeight.keys.foldl
      (fun s liveHeight => if liveHeight ≤ height then s.deleteLiveHeight liveHeight else s) s

/-- One record of `updateIndexesFromCommittedRecords`, and `applyEncodedRecord`. -/
def applyRecord : Record E → Index E
  | .entry e => if getHeight e ≤ s.prunedUpToHeight then s else s.addLiveEntry getHeight walNum e
  | .prune height => s.pruneLiveEntriesUpTo height

def updateIndexesFromCommittedRecords (records : List (Record E)) : Index E :=
  records.foldl (fun s r => s.applyRecord getHeight walNum r) s

/-- `LoadAllEntries`: by height. -/
def loadAllEntries : List E :=
  (s.entriesByHeight.keys.insertionSort (· ≤ ·)).flatMap
    fun height => (s.entriesByHeight.lookup height).getD []

end Index

/-! ### The writer -/

structure WalWriter where
  currentWALNum : Option ℕ
  nextWALNum : ℕ
  repairRequired : Bool

inductive WatermarkFault where
  | none
  | notReplaced
  /-- It is replaced, and the directory is not synced. -/
  | notSynced
  deriving DecidableEq, Repr

/-- What fails during a flush or a close. -/
structure Faults where
  encode : Bool
  create : Bool
  /-- The batch is not written, or not synced. -/
  sync : Bool
  /-- A batch that is not synced is written whole. -/
  written : Bool
  /-- The end of the file is not repaired. -/
  repair : Bool
  watermark : WatermarkFault
  close : Bool
  /-- The removal of the files stops with an error. -/
  remove : Bool
  /-- The files that are removed, of the obsolete ones. -/
  removed : ℕ → Bool

/-- A batch that was not synced stays in the log. -/
def Faults.leaves (f : Faults) : Bool := f.sync && f.written && f.repair

def Disk.modifyLog (d : Disk E) (walNum : ℕ) (change : Log E → Log E) : Disk E :=
  { d with logs := d.logs.map fun log => if log.num = walNum then change log else log }

variable (w : WalWriter)

/-- `ensureWriter`: none if there is no file to write to. -/
def WalWriter.ensureWriter (d : Disk E) (f : Faults) : Option (ℕ × WalWriter × Disk E) :=
  if w.repairRequired then none
  else match w.currentWALNum with
    | some walNum => some (walNum, w, d)
    | none =>
      if f.create then none
      else some (w.nextWALNum,
        { w with currentWALNum := some w.nextWALNum, nextWALNum := w.nextWALNum + 1 },
        { d with logs := d.logs ++ [⟨w.nextWALNum, [], false⟩] })

/-- `closeAndRepairCurrent`: whether it failed, the writer, and the file. If that is not repaired, what is
behind the synced part stays there: the given batches, and a torn end. -/
def WalWriter.closeAndRepairCurrent (d : Disk E) (forceRepair : Bool)
    (unsynced : List (List (Record E))) (f : Faults) : Bool × WalWriter × Disk E :=
  match w.currentWALNum with
  | none => (false, w, d)
  | some walNum =>
    let w := { w with currentWALNum := none }
    if !f.close && !forceRepair then (false, { w with repairRequired := false }, d)
    else if f.repair then
      (true, { w with repairRequired := true },
        d.modifyLog walNum fun log => { log with batches := log.batches ++ unsynced, torn := true })
    else (f.close, { w with repairRequired := false }, d)

/-- `appendSync`: the number of the log the batch is in, if it was committed. -/
def WalWriter.appendSync (d : Disk E) (batch : List (Record E)) (f : Faults) :
    Option ℕ × WalWriter × Disk E :=
  match w.ensureWriter d f with
  | none => (none, w, d)
  | some (walNum, w, d) =>
    if f.sync then
      let (_, w, d) := w.closeAndRepairCurrent d true (if f.written then [batch] else []) f
      (none, w, d)
    else (some walNum, w, d.modifyLog walNum fun log => { log with batches := log.batches ++ [batch] })

def WalWriter.minLiveWALNum : ℕ :=
  match w.currentWALNum with
  | some walNum => min walNum w.nextWALNum
  | none => w.nextWALNum

/-! ### The store -/

/-- `tendermintWALStore`, in memory. -/
structure WALStore (E : Type) where
  closed : Bool
  wal : WalWriter
  index : Index E
  pendingRecords : List (Record E)
  pruneRecordsSinceCleanup : ℕ

namespace WALStore

def cleanupPruneRecordInterval : ℕ := 256

variable (s : WALStore E)

/-- `SetWALEntry`: false if the store is closed. -/
def setWALEntry (entry : E) : Bool × WALStore E :=
  if s.closed then (false, s)
  else if getHeight entry ≤ s.index.prunedUpToHeight then (true, s)
  else (true, { s with pendingRecords := s.pendingRecords ++ [.entry entry] })

/-- The first prune record of a list is raised to the height; none if there is no prune record. -/
def raisePrune (height : ℕ) : List (Record E) → Option (List (Record E))
  | [] => none
  | .prune h :: rest => some (.prune (max h height) :: rest)
  | .entry e :: rest => (raisePrune height rest).map (.entry e :: ·)

/-- `DeleteWALEntries`: false if the store is closed. -/
def deleteWALEntries (height : ℕ) : Bool × WALStore E :=
  if s.closed then (false, s)
  else if height ≤ s.index.prunedUpToHeight then (true, s)
  else match raisePrune height s.pendingRecords with
    | some records => (true, { s with pendingRecords := records })
    | none => (true, { s with pendingRecords := s.pendingRecords ++ [.prune height] })

def countPruneRecords (records : List (Record E)) : ℕ :=
  (records.filter fun r => match r with | .prune _ => true | .entry _ => false).length

/-- The smallest log number `cleanupObsoleteWALs` keeps. -/
def minLiveWALNum (s : WALStore E) : ℕ := s.index.walHeightRefs.keys.foldl min s.wal.minLiveWALNum

variable (d : Disk E)

def cleanupObsoleteWALs (f : Faults) : Disk E :=
  { d with logs := d.logs.filter fun log => !(decide (log.num < s.minLiveWALNum) && f.removed log.num) }

/-- `removeObsoleteWALFiles`: whether it succeeded. -/
def removeObsoleteWALFiles (pruneRecordCount : ℕ) (f : Faults) : Bool × WALStore E × Disk E :=
  if pruneRecordCount = 0 then (true, s, d)
  else
    let s := { s with pruneRecordsSinceCleanup := s.pruneRecordsSinceCleanup + pruneRecordCount }
    if s.pruneRecordsSinceCleanup < cleanupPruneRecordInterval then (true, s, d)
    else match f.watermark with
      | .notReplaced => (false, s, d)
      | .notSynced => (false, s, { d with watermark := s.index.prunedUpToHeight })
      | .none =>
        let d := { d with watermark := s.index.prunedUpToHeight }
        let (rotateErr, wal, d) := s.wal.closeAndRepairCurrent d false [] f
        let s := { s with wal := wal }
        let d := s.cleanupObsoleteWALs d f
        if !rotateErr && !f.remove then (true, { s with pruneRecordsSinceCleanup := 0 }, d) else (false, s, d)

structure Flushed where
  /-- `Flush` returned no error. -/
  ok : Bool
  /-- The pending records are in the log. -/
  committed : Bool
  deriving DecidableEq, Repr

def flushLocked (f : Faults) : Flushed × WALStore E × Disk E :=
  if s.closed then (⟨false, false⟩, s, d)
  else if s.pendingRecords = [] then (⟨true, true⟩, s, d)
  else if f.encode then (⟨false, false⟩, s, d)
  else match s.wal.appendSync d s.pendingRecords f with
    | (none, wal, d) => (⟨false, false⟩, { s with wal := wal }, d)
    | (some walNum, wal, d) =>
      let s := { s with
        wal := wal
        index := s.index.updateIndexesFromCommittedRecords getHeight walNum s.pendingRecords }
      let (ok, s, d) := s.removeObsoleteWALFiles d (countPruneRecords s.pendingRecords) f
      (⟨ok, true⟩, { s with pendingRecords := [] }, d)

def close (f : Faults) : Flushed × WALStore E × Disk E :=
  if s.closed then (⟨true, false⟩, s, d)
  else
    let (flushed, s, d) := s.flushLocked getHeight d f
    let (closeErr, wal, d) := s.wal.closeAndRepairCurrent d false [] f
    (⟨flushed.ok && !closeErr, flushed.committed⟩, { s with closed := true, wal := wal }, d)

end WALStore

/-! ### Opening -/

/-- `recoverLatestWALTail`: the end of the latest log is truncated. -/
def recoverLatestWALTail : List (Log E) → List (Log E)
  | [] => []
  | [log] => [{ log with torn := false }]
  | log :: logs => log :: recoverLatestWALTail logs

def nextWALNum (logs : List (Log E)) : ℕ := logs.foldl (fun next log => max next (log.num + 1)) 1

/-- `loadExistingEntries`: every record of every log, in order. -/
def loadExistingEntries (s : Index E) (logs : List (Log E)) : Index E :=
  logs.foldl
    (fun s log =>
    log.batches.foldl (fun s batch => s.updateIndexesFromCommittedRecords getHeight log.num batch) s) s

/-- `NewTendermintWALStore`: none if a log cannot be read to its end. -/
def newTendermintWALStore (d : Disk E) : Option (WALStore E × Disk E) :=
  let d := { d with logs := recoverLatestWALTail d.logs }
  if d.logs.any (·.torn) then none
  else
    some (
      { closed := false
        wal := ⟨none, nextWALNum d.logs, false⟩
        index := loadExistingEntries getHeight (.empty d.watermark) d.logs
        pendingRecords := []
        pruneRecordsSinceCleanup := 0 }, d)

end Juno.Walstore
