import Juno.EventFilter.Matcher
import Juno.EventFilter.Running
import Mathlib

/-!
# Event queries next to a growing chain

A `MatchedBlockIterator` goes through its range window by window. For each window it takes the
filter in memory if it is that of the window, and otherwise the stored one, through a cache. The
chain goes on meanwhile: blocks are inserted, the head is reverted.

## The model

* `World` — the filters in memory, as objects that a reader may still hold after the running filter has gone
  on; the windows of the database; the cache; the chain; the iterators.
* `World.insert`, `World.onReorg` — the locked methods `Insert` and `OnReorg`, each one step, which write to
  the database.
* `World.advance` — one step of a load: `FromBlock`, `InnerFilter`, each access of the cache and of the
  database, and each query of the filter are steps of their own.
* `Step`, `run` — every interleaving. The cache may lose an entry at any time, as it has a bounded size.

The chain holds the events of the receipts of its blocks. An iterator has a ghost `floor`, the least
height of the chain since its load began: the blocks below are those that were canonical all the time.
The limit on the scanned blocks is left out, which ends an iteration early.
-/

namespace Juno.EventFilter

open Lib Function UInt64

variable {i : ℕ}

/-- Where an iterator takes its bits from. -/
inductive Source where
  /-- The filter that `InnerFilter` gave, which is changed in place. -/
  | object (id : ℕ)
  /-- A filter that was read from the database. -/
  | view (filter : AggregatedBloomFilter)

inductive Progress where
  /-- No window was loaded: `currentBits` is nil. -/
  | created
  | fromBlock
  | innerFilter
  | cacheGet
  | fallback
  | cacheAdd (filter : AggregatedBloomFilter)
  /-- In `getCandidateBlocksForFilterInto`, with the queries to make, `out` and `innerMatch`. -/
  | consult (source : Source) (rest : List (List Bytes)) (out innerMatch : BitSet)
  | loaded (currentBits : BitSet)
  /-- `done`: the range is exhausted, or a load has failed. -/
  | done

/-- `MatchedBlockIterator`. -/
structure Iterator where
  matcher : EventMatcher
  rangeStart : UInt64
  rangeEnd : UInt64
  nextIndex : UInt64
  /-- `currentWindowStart`: of the loaded window, and of the one being loaded. -/
  currentWindowStart : UInt64
  progress : Progress
  /-- The least height of the chain since the load began. -/
  floor : ℕ

namespace Iterator

variable (it : Iterator)

def new (matcher : EventMatcher) (fromBlock toBlock : UInt64) : Iterator where
  matcher := matcher
  rangeStart := fromBlock
  rangeEnd := toBlock
  nextIndex := 0
  currentWindowStart := fromBlock - fromBlock % ofNat numBlocksPerFilter
  progress := if toBlock < fromBlock then .done else .created
  floor := 0

/-- The rest of `loadNextWindow`: a load begins, at a height of the chain. -/
def enter (windowStart nextIndex : UInt64) (height : ℕ) : Iterator :=
  if it.rangeEnd < windowStart then { it with progress := .done }
  else
    { it with
      nextIndex := nextIndex
      currentWindowStart := windowStart - windowStart % ofNat numBlocksPerFilter
      progress := if it.matcher.matchesAllBlocks then .loaded (BitSet.new numBlocksPerFilter).setAll
        else .fromBlock
      floor := height }

/-- `loadNextWindow`, up to the first step of the load. -/
def loadNextWindow (height : ℕ) : Iterator :=
  match it.progress with
  | .created => it.enter it.currentWindowStart (it.rangeStart % ofNat numBlocksPerFilter) height
  | .loaded _ => it.enter (it.currentWindowStart + ofNat numBlocksPerFilter) 0 height
  | _ => it

/-- `EventFiltersCacheKey` of the window. -/
def key : UInt64 × UInt64 :=
  (it.currentWindowStart, it.currentWindowStart + ofNat numBlocksPerFilter - 1)

/-- The beginning of `getCandidateBlocksForFilterInto`. -/
def consulting (source : Source) : Iterator :=
  { it with
    progress := .consult source it.matcher.queries (BitSet.new numBlocksPerFilter).setAll
      (BitSet.new numBlocksPerFilter) }

/-- The blocks that `Next` gives from the set bits of a window, until one is beyond the range. -/
def scan (it : Iterator) : List ℕ → List UInt64
  | [] => []
  | next :: rest =>
    if next < it.nextIndex.toNat then scan it rest
    else if it.rangeEnd < it.currentWindowStart + ofNat next then []
    else (it.currentWindowStart + ofNat next) :: scan it rest

/-- The blocks that `Next` gives from a loaded window. -/
def reported (currentBits : BitSet) : List UInt64 := it.scan currentBits.setBits

def lower (height : ℕ) : Iterator := { it with floor := min it.floor height }

end Iterator

structure World where
  objects : ℕ → AggregatedBloomFilter
  fresh : ℕ
  /-- `inner` of the running filter. -/
  inner : ℕ
  /-- `next` of the running filter. -/
  next : UInt64
  windows : Windows
  cache : Windows
  chain : List (List (List Event))
  iterators : List Iterator

namespace World

variable (locations : Bytes → ℕ → List ℕ) (w : World)

def empty : World where
  objects _ := newAggregatedFilter 0
  fresh := 1
  inner := 0
  next := 0
  windows _ := none
  cache _ := none
  chain := []
  iterators := []

/-- The running filter is changed in place. -/
def place (filter : AggregatedBloomFilter) (receipts : List (List Event)) : World :=
  { w with
    objects := update w.objects w.inner filter
    next := ofNat w.chain.length + 1
    chain := w.chain ++ [receipts] }

/-- The running filter is stored, and a new one takes its place. -/
def rollover : World :=
  { w with
    objects := update w.objects w.fresh (newAggregatedFilter w.next)
    inner := w.fresh
    fresh := w.fresh + 1
    windows := update w.windows (w.objects w.inner).rangeKey (some (w.objects w.inner)) }

def insert (w : World) (receipts : List (List Event)) : World :=
  match (w.objects w.inner).insert (some (eventsBloom locations receipts)) (ofNat w.chain.length) with
  | .error _ => w
  | .ok filter =>
    if ofNat w.chain.length = filter.toBlock then (w.place filter receipts).rollover
      else w.place filter receipts

/-- The end of `OnReorg`: the head is reverted. -/
def clearBlock (curBlock : UInt64) : World :=
  match (w.objects w.inner).clear curBlock with
  | .error _ => { w with next := curBlock }
  | .ok filter =>
    { w with
      objects := update w.objects w.inner filter
      next := curBlock
      chain := w.chain.dropLast
      iterators := w.iterators.map (·.lower (w.chain.length - 1)) }

/-- The filter of the window before, read from the database, takes the place of the current one. -/
def stepBack (stored : AggregatedBloomFilter) : World :=
  { w with
    objects := update w.objects w.fresh stored
    inner := w.fresh
    fresh := w.fresh + 1
    windows := update w.windows (w.objects w.inner).rangeKey none }

def onReorg : World :=
  let curBlock := w.next - 1
  if curBlock = (w.objects w.inner).fromBlock - 1 then
    match w.windows (RunningEventFilter.alignedKey curBlock) with
    | none => { w with windows := update w.windows (w.objects w.inner).rangeKey none }
    | some lastStoredFilter => (w.stepBack lastStoredFilter).clearBlock curBlock
  else w.clearBlock curBlock

def filterOf : Source → AggregatedBloomFilter
  | .object id => w.objects id
  | .view filter => filter

def advance (it : Iterator) : Iterator :=
  match it.progress with
  | .created => it
  | .fromBlock =>
    { it with progress := if it.currentWindowStart = (w.objects w.inner).fromBlock then
      .innerFilter else .cacheGet }
  | .innerFilter => it.consulting (.object w.inner)
  | .cacheGet =>
    match w.cache it.key with
    | none => { it with progress := .fallback }
    | some filter => it.consulting (.view filter)
  | .fallback =>
    match w.windows it.key with
    | none => { it with progress := .done }
    | some filter => { it with progress := if filter.rangeKey = it.key then .cacheAdd filter else .done }
  | .cacheAdd filter => it.consulting (.view filter)
  | .consult _ [] out _ => { it with progress := .loaded out }
  | .consult source (keys :: rest) out innerMatch =>
    match (w.filterOf source).blocksForKeysInto locations keys (some innerMatch) with
    | .error _ => { it with progress := .done }
    | .ok innerMatch =>
      let out := out.inPlaceIntersection innerMatch
      { it with progress := if out.isNone then .loaded out else .consult source rest out innerMatch }
  | .loaded _ => it
  | .done => it

def cacheAfter (it : Iterator) : Windows :=
  match it.progress with
  | .cacheAdd filter => update w.cache filter.rangeKey (some filter)
  | _ => w.cache

end World

inductive Step where
  /-- `Insert` of a block with these receipts. -/
  | insert (receipts : List (List Event))
  | onReorg
  /-- `NewMatchedBlockIterator`. -/
  | newIterator (contractAddresses : List Felt) (keys : List (List Felt)) (fromBlock toBlock : UInt64)
  /-- An iterator goes on to its next window. -/
  | loadNextWindow (i : ℕ)
  /-- A step of the load of an iterator. -/
  | advance (i : ℕ)
  | evict (key : UInt64 × UInt64)

section

variable (locations : Bytes → ℕ → List ℕ)

/-- The world after a step. Blocks have 64-bit numbers, and so has the one after; the head of an empty chain
is not reverted. -/
def Step.apply (w : World) : Step → World
  | .insert receipts => if w.chain.length + 1 < size then w.insert locations receipts else w
  | .onReorg => if w.chain.isEmpty then w else w.onReorg
  | .newIterator contractAddresses keys fromBlock toBlock =>
    { w with iterators := w.iterators ++ [.new (newEventMatcher contractAddresses keys) fromBlock toBlock] }
  | .loadNextWindow i => { w with iterators := w.iterators.modify i (·.loadNextWindow w.chain.length) }
  | .advance i =>
    match w.iterators[i]? with
    | none => w
    | some it =>
      { w with
        iterators := w.iterators.set i (w.advance locations it)
        cache := w.cacheAfter it }
  | .evict key => { w with cache := update w.cache key none }

def run (w : World) (steps : List Step) : World := steps.foldl (Step.apply locations) w

end

/-! ### What `Next` gives -/

theorem toNat_add_ofNat {start : UInt64} (h : start.toNat + i < size) :
    (start + UInt64.ofNat i).toNat = start.toNat + i := by
  rw [UInt64.toNat_add, UInt64.toNat_ofNat_of_lt' (by omega)]
  exact Nat.mod_eq_of_lt h

/-- Of bits in ascending order, `Next` gives those in the range. -/
theorem Iterator.mem_scan (it : Iterator) {bits : List ℕ} (hsorted : bits.Pairwise (· < ·)) (hi : i ∈ bits)
    (hnext : it.nextIndex.toNat ≤ i) (hsize : it.currentWindowStart.toNat + i < size)
    (hend : it.currentWindowStart.toNat + i ≤ it.rangeEnd.toNat) :
    it.currentWindowStart + ofNat i ∈ it.scan bits := by
  induction bits with
  | nil => cases hi
  | cons j bits ih =>
    obtain ⟨hlt, hsorted⟩ := List.pairwise_cons.mp hsorted
    rw [Iterator.scan]
    rcases List.mem_cons.mp hi with rfl | hi
    · have hinside : ¬ it.rangeEnd < it.currentWindowStart + ofNat i := by
        rw [lt_iff_toNat_lt, toNat_add_ofNat hsize]
        omega
      rw [if_neg (Nat.not_lt.mpr hnext), if_neg hinside]
      exact List.mem_cons_self
    · have hji := hlt i hi
      split_ifs with hskip hbeyond
      · exact ih hsorted hi
      · rw [lt_iff_toNat_lt, toNat_add_ofNat (by omega)] at hbeyond
        omega
      · exact List.mem_cons_of_mem _ (ih hsorted hi)

theorem Iterator.mem_reported (it : Iterator) {bits : BitSet} (htest : bits.test i = true)
    (hnext : it.nextIndex.toNat ≤ i) (hsize : it.currentWindowStart.toNat + i < size)
    (hend : it.currentWindowStart.toNat + i ≤ it.rangeEnd.toNat) :
    it.currentWindowStart + ofNat i ∈ it.reported bits :=
  it.mem_scan (List.pairwise_lt_range.filter _) (BitSet.mem_setBits.mpr htest) hnext hsize hend

/-! ### The steps of the chain are those of the running filter -/

namespace World

variable (locations : Bytes → ℕ → List ℕ) (w : World)

def running : RunningEventFilter := ⟨w.objects w.inner, w.next⟩

/-- **`Insert` does to the running filter and to the database what `insert` does** without faults. -/
theorem insert_running (receipts : List (List Event)) :
    let call :=
      w.running.insert .none w.windows (some (eventsBloom locations receipts)) (.ofNat w.chain.length)
    (w.insert locations receipts).running = call.1 ∧
      (w.insert locations receipts).windows = call.2.toOption.getD w.windows := by
  simp only [insert, RunningEventFilter.insert, running]
  cases (w.objects w.inner).insert (some (eventsBloom locations receipts)) (.ofNat w.chain.length) with
  | error e => exact ⟨rfl, rfl⟩
  | ok filter =>
    simp only
    split_ifs with hlast hput
    · exact absurd hput Bool.false_ne_true
    · simp [place, rollover, Except.toOption]
    · simp [place, Except.toOption]

theorem clearBlock_running (curBlock : UInt64) :
    (w.clearBlock curBlock).running = (w.running.clearBlock w.windows curBlock).1 ∧
      ∀ windows, (w.running.clearBlock w.windows curBlock).2 = .ok windows →
        (w.clearBlock curBlock).windows = windows := by
  simp only [clearBlock, RunningEventFilter.clearBlock, running]
  cases (w.objects w.inner).clear curBlock with
  | error e => exact ⟨rfl, fun _ h => by cases h⟩
  | ok filter => simp

/-- **`OnReorg` does to the running filter what `onReorg` does**, and to the database if it succeeds. -/
theorem onReorg_running :
    let call := w.running.onReorg .none w.windows
    w.onReorg.running = call.1 ∧ ∀ windows, call.2 = .ok windows → w.onReorg.windows = windows := by
  simp only [onReorg, RunningEventFilter.onReorg]
  have hnext : w.running.next = w.next := rfl
  have hinner : w.running.inner = w.objects w.inner := rfl
  simp only [hnext, hinner]
  split_ifs with hcross hdelete hget
  · exact absurd hdelete Bool.false_ne_true
  · exact absurd hget Bool.false_ne_true
  · cases w.windows (RunningEventFilter.alignedKey (w.next - 1)) with
    | none => exact ⟨rfl, fun _ h => by cases h⟩
    | some stored =>
      have hback : (w.stepBack stored).running = ⟨stored, w.next⟩ := by simp [stepBack, running]
      have key := (w.stepBack stored).clearBlock_running (w.next - 1)
      rw [hback] at key
      exact key
  · exact w.clearBlock_running (w.next - 1)

end World

end Juno.EventFilter
