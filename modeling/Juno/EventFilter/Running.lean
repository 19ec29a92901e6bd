import Juno.EventFilter.Aggregated
import Mathlib

/-!
# The running event filter and failed stores

The filter of the newest window is kept in memory; when the last block of a window is stored, the
window goes to the database and a new one is begun. `Store` and `RevertHead` collect what
they write in a batch, and call the running filter as the last step before the batch is written:
the filter changes at once, the database only if the batch is written.

## The model

* `RunningEventFilter` — the filter and the next block, with `insert` and `onReorg`. Each gives the filter as
  it is left, also by a call that fails, and the windows in the batch.
* `LazyFilter` — a filter that its first use initializes. The initializer is a parameter, as in the source,
  and may write windows itself, as `fillRunningEventFilter` does.
* `attempt` — `Store` or `RevertHead`: the steps before, the filter, and the writing of the batch. The windows
  of the database are what `Get` decodes; a batch that is not written leaves them alone.

The main result is `failed_attempt_iff`.
-/

namespace Juno.EventFilter

open Lib AggregatedBloomFilter Option UInt64

variable {R : Type}

/-- `AggregatedBloomFiltersBucket`: the windows by their first and last block. -/
abbrev Windows := UInt64 × UInt64 → Option AggregatedBloomFilter

@[ext] structure RunningEventFilter where
  /-- `inner`: the current window. -/
  inner : AggregatedBloomFilter
  /-- `next`: the next block to process. -/
  next : UInt64

def FilterView.rangeKey (v : FilterView R) : UInt64 × UInt64 := (v.fromBlock, v.toBlock)

/-- Which calls fail during an attempt. -/
structure Faults where
  /-- A step before the filter is called. -/
  early : Bool
  init : Bool
  put : Bool
  delete : Bool
  get : Bool
  write : Bool

def Faults.none : Faults := ⟨false, false, false, false, false, false⟩

def Faults.onWrite : Faults := { Faults.none with write := true }

inductive AttemptError where
  | early
  /-- The filter could not be initialized. -/
  | init
  | filter (e : FilterError)
  /-- A window could not be put in the batch. -/
  | put
  /-- A deletion could not be put in the batch. -/
  | delete
  | get
  | notFound
  | write
  deriving DecidableEq

namespace RunningEventFilter

abbrev Result := Except AttemptError Windows

/-- `insert`: the filter afterwards, and the windows with what is in the batch. -/
def insert (r : RunningEventFilter) (faults : Faults) (windows : Windows) (filter : Option BloomFilter)
    (blockNumber : UInt64) : RunningEventFilter × Result :=
  match r.inner.insert filter blockNumber with
  | .error e => (r, .error (.filter e))
  | .ok inner =>
    if blockNumber = inner.toBlock then
      if faults.put then ({ r with inner := inner }, .error .put)
      else (⟨newAggregatedFilter (blockNumber + 1), blockNumber + 1⟩,
        .ok (Function.update windows inner.rangeKey (some inner)))
    else (⟨inner, blockNumber + 1⟩, .ok windows)

/-- The key of the window of a block: `rangeStartAligned` and `rangeEndAligned`. -/
def alignedKey (blockNumber : UInt64) : UInt64 × UInt64 :=
  let rangeStartAligned := blockNumber - blockNumber % ofNat numBlocksPerFilter
  (rangeStartAligned, rangeStartAligned + maxBlockOffsetPerFilter)

/-- The end of `onReorg`: the block is cleared. -/
def clearBlock (r : RunningEventFilter) (windows : Windows) (curBlock : UInt64) :
    RunningEventFilter × Result :=
  match r.inner.clear curBlock with
  | .error e => ({ r with next := curBlock }, .error (.filter e))
  | .ok inner => (⟨inner, curBlock⟩, .ok windows)

def onReorg (r : RunningEventFilter) (faults : Faults) (windows : Windows) : RunningEventFilter × Result :=
  let curBlock := r.next - 1
  if curBlock = r.inner.fromBlock - 1 then
    if faults.delete then (r, .error .delete)
    else if faults.get then (r, .error .get)
    else
      match windows (alignedKey curBlock) with
      | none => (r, .error .notFound)
      | some lastStoredFilter =>
        clearBlock { r with inner := lastStoredFilter } (Function.update windows r.inner.rangeKey none)
          curBlock
  else clearBlock r windows curBlock

end RunningEventFilter

/-- A filter that its first use initializes. -/
inductive LazyFilter where
  /-- It was initialized, or created so. -/
  | ready (r : RunningEventFilter)
  | unused
  /-- Its initialization failed: `initErr`. -/
  | failed

inductive Call where
  | store (eventsBloom : Option BloomFilter) (number : UInt64)
  | revertHead

structure Backend where
  filter : LazyFilter
  windows : Windows

section

variable (initializer : Windows → Windows × Option RunningEventFilter) (faults : Faults)

/-- `ensureInit`: the initializer runs once. The windows and the filter afterwards, if there is one. -/
def ensureInit (b : Backend) : Windows × Option RunningEventFilter :=
  match b.filter with
  | .ready r => (b.windows, some r)
  | .failed => (b.windows, none)
  | .unused => if faults.init then (b.windows, none) else initializer b.windows

def Call.filter (c : Call) (faults : Faults) (windows : Windows) (r : RunningEventFilter) :
    RunningEventFilter × RunningEventFilter.Result :=
  match c with
  | .store eventsBloom number => r.insert faults windows eventsBloom number
  | .revertHead => r.onReorg faults windows

def commit (result : RunningEventFilter.Result) : RunningEventFilter.Result := do
  let windows ← result
  if faults.write then .error .write else .ok windows

def attemptWith (c : Call) :
    Windows × Option RunningEventFilter → Backend × Except AttemptError Unit
  | (windows, none) => (⟨.failed, windows⟩, .error .init)
  | (windows, some r) =>
    let call := c.filter faults windows r
    match commit faults call.2 with
    | .error e => (⟨.ready call.1, windows⟩, .error e)
    | .ok windows => (⟨.ready call.1, windows⟩, .ok ())

/-- `Store` or `RevertHead`. -/
def attempt (c : Call) (b : Backend) : Backend × Except AttemptError Unit :=
  if faults.early then (b, .error .early) else attemptWith faults c (ensureInit initializer faults b)

/-- What the methods of the filter show: the windows, and the filter unless it cannot be initialized. -/
def observed (b : Backend) : Windows × Option RunningEventFilter := ensureInit initializer .none b

end

/-! ### When a call leaves the filter as it was -/

variable {n : UInt64} {f : AggregatedBloomFilter}

namespace AggregatedBloomFilter

variable (f) (filter : Option BloomFilter)

def AddsNothing (blockNumber : UInt64) : Prop :=
  ∀ b, filter = some b → ∀ j, b.b.test j = true → f.bitmap.bit j (f.column blockNumber) = true

/-- A bloom filter that is refused: the block is not in the window, or the length is wrong. -/
def Refuses (blockNumber : UInt64) : Prop :=
  ¬ f.Covers blockNumber ∨ ∃ b, filter = some b ∧ b.b.length ≠ eventsBloomLength

variable {f} {filter : Option BloomFilter}

theorem insert_error {e : FilterError} (h : f.insert filter n = .error e) : f.Refuses filter n := by
  rw [insert] at h
  split_ifs at h with hcovers
  · cases filter with
    | none => simp at h
    | some b =>
      simp only at h
      split_ifs at h with hlen
      exact .inr ⟨b, rfl, hlen⟩
  · exact .inl hcovers

variable {f f' : AggregatedBloomFilter}

section

variable (h : f.insert filter n = .ok f')
include h

theorem not_refuses : ¬ f.Refuses filter n := by
  rintro (hcovers | ⟨b, rfl, hlen⟩)
  · exact hcovers (insert_spec h).1
  · have hcovers := (insert_spec h).1
    rw [insert, dif_pos hcovers] at h
    simp only [ne_eq, hlen, not_false_eq_true, if_true] at h
    simp at h

theorem insert_eq_self_iff : f' = f ↔ f.AddsNothing filter n := by
  obtain ⟨-, hfrom, hbits⟩ := insert_spec h
  constructor
  · rintro rfl b rfl j hj
    have hbit := hbits j (f'.column n)
    rw [any_some, hj, decide_eq_true rfl, Bool.and_true, Bool.true_or] at hbit
    exact hbit
  · intro hadds
    refine FilterView.ext (MemRows.eq_of_bit fun j d => ?_) hfrom
    rw [hbits j d]
    cases filter with
    | none => rw [any_none, Bool.false_or]
    | some b =>
      rw [any_some]
      cases hj : b.b.test j with
      | false => rw [Bool.false_and, Bool.false_or]
      | true =>
        by_cases hd : d = f.column n
        · rw [hd, hadds b rfl j hj, Bool.or_true]
        · rw [decide_eq_false hd, Bool.and_false, Bool.false_or]

theorem toBlock_of_insert : f'.toBlock = f.toBlock := by
  rw [f'.range, f.range, (insert_spec h).2.1]

end

end AggregatedBloomFilter

/-- The window after the last block of a window is another one. -/
theorem next_window_ne (v : FilterView R) : v.toBlock + 1 ≠ v.fromBlock := by
  rw [v.range, add_assoc, ne_eq, add_eq_left]
  decide

namespace RunningEventFilter

variable (r : RunningEventFilter)

/-- The window of the block before the filter's, if the last block was the last of its window. -/
def previousKey : UInt64 × UInt64 := alignedKey (r.next - 1)

/-- `insert` returns the filter as it was exactly if it refuses the bloom filter, or all bits are set and
either the last block of a window cannot be put in the batch or the next block is already the one that
follows. -/
theorem insert_unchanged_iff (faults : Faults) (windows : Windows) (filter : Option BloomFilter)
    (n : UInt64) : (r.insert faults windows filter n).1 = r ↔ r.inner.Refuses filter n ∨
      r.inner.AddsNothing filter n ∧ if n = r.inner.toBlock then faults.put = true else r.next = n + 1 := by
  rw [insert]
  cases h : AggregatedBloomFilter.insert r.inner filter n with
  | error e => exact ⟨fun _ => .inl (insert_error h), fun _ => rfl⟩
  | ok inner =>
    have hnot := not_refuses h
    have hself := insert_eq_self_iff h
    have hto := toBlock_of_insert h
    simp only [hto, hnot, false_or]
    split_ifs with hlast hput
    · simp only [RunningEventFilter.ext_iff, hself, hput]
    · refine iff_of_false (fun heq => ?_) fun hput' => hput hput'.2
      have hfrom : n + 1 = r.inner.fromBlock := congrArg (fun r => r.inner.fromBlock) heq
      exact next_window_ne r.inner (hlast ▸ hfrom)
    · rw [RunningEventFilter.ext_iff, hself, eq_comm (a := r.next)]

theorem clearBlock_next (windows : Windows) (curBlock : UInt64) :
    (r.clearBlock windows curBlock).1.next = curBlock := by
  rw [clearBlock]
  cases clear r.inner curBlock with
  | error e => rfl
  | ok inner => rfl

/-- `onReorg` returns the filter as it was exactly if it goes back to the window before and cannot read it. -/
theorem onReorg_unchanged_iff (faults : Faults) (windows : Windows) :
    (r.onReorg faults windows).1 = r ↔
      r.next = r.inner.fromBlock ∧
        (faults.delete = true ∨ faults.get = true ∨ windows r.previousKey = none) := by
  have hcross : r.next - 1 = r.inner.fromBlock - 1 ↔ r.next = r.inner.fromBlock := UInt64.sub_left_inj 1
  have hclear : ∀ (r' : RunningEventFilter) (w : Windows), (r'.clearBlock w (r.next - 1)).1 ≠ r := by
    intro r' w heq
    have hnext := congrArg RunningEventFilter.next heq
    rw [clearBlock_next, sub_eq_self] at hnext
    exact absurd hnext (by decide)
  rw [onReorg, previousKey]
  simp only [hcross]
  split_ifs with hnext hdelete hget
  · simp [hnext, hdelete]
  · simp [hnext, hget]
  · cases hrow : windows (alignedKey (r.next - 1)) with
    | none => simp [hnext]
    | some stored => simpa [hnext, hdelete, hget] using hclear _ _
  · exact iff_of_false (hclear r windows) fun h => hnext h.1

end RunningEventFilter

/-! ### Attempts -/

def Call.Spares (c : Call) (faults : Faults) (windows : Windows) (r : RunningEventFilter) : Prop :=
  match c with
  | .store eventsBloom number => r.inner.Refuses eventsBloom number ∨
      r.inner.AddsNothing eventsBloom number ∧ if number = r.inner.toBlock then faults.put = true
        else r.next = number + 1
  | .revertHead =>
    r.next = r.inner.fromBlock ∧ (faults.delete = true ∨ faults.get = true ∨ windows r.previousKey = none)

theorem Call.filter_unchanged_iff (c : Call) (faults : Faults) (windows : Windows) (r : RunningEventFilter) :
    (c.filter faults windows r).1 = r ↔ c.Spares faults windows r := by
  cases c with
  | store eventsBloom number => exact r.insert_unchanged_iff faults windows eventsBloom number
  | revertHead => exact r.onReorg_unchanged_iff faults windows

section

variable (initializer : Windows → Windows × Option RunningEventFilter) {faults : Faults} {b : Backend}
  {e : AttemptError}

/-- An attempt that leaves the filter alone: it fails before the filter is called, there is nothing to keep,
or the filter is initialized if it has to be and the call spares it. -/
def AttemptSpares (faults : Faults) (c : Call) (b : Backend) : Prop :=
  faults.early = true ∨ observed initializer b = (b.windows, none) ∨
    (b.filter = .unused → faults.init = false) ∧
    ∀ r, (observed initializer b).2 = some r → c.Spares faults (observed initializer b).1 r

/-- The filter is opened as it is shown, unless the initializer fails. -/
theorem ensureInit_eq (h : b.filter = .unused → faults.init = false) :
    ensureInit initializer faults b = observed initializer b := by
  obtain ⟨filter, windows⟩ := b
  cases filter with
  | ready r => rfl
  | failed => rfl
  | unused =>
    rw [observed, ensureInit, ensureInit, h rfl]
    rfl

/-- An attempt that fails leaves the windows that it found, or that the initializer wrote. -/
theorem attemptWith_failed {c : Call} {o : Windows × Option RunningEventFilter}
    (hfail : (attemptWith faults c o).2 = .error e) :
    observed initializer (attemptWith faults c o).1 = (o.1, o.2.map fun r => (c.filter faults o.1 r).1) := by
  obtain ⟨windows, _ | r⟩ := o
  · rfl
  · rw [attemptWith] at hfail ⊢
    simp only at hfail ⊢
    cases hcommit : commit faults (c.filter faults windows r).2 with
    | error e => rfl
    | ok windows' =>
      rw [hcommit] at hfail
      cases hfail

/-- What a failed attempt shows is what was shown before exactly if it spares the filter. -/
theorem observed_attempt_iff (c : Call) (hfail : (attempt initializer faults c b).2 = .error e) :
    observed initializer (attempt initializer faults c b).1 = observed initializer b ↔
      AttemptSpares initializer faults c b := by
  rw [AttemptSpares]
  rw [attempt] at hfail ⊢
  cases hearly : faults.early with
  | true => simp
  | false =>
    rw [hearly, if_neg Bool.false_ne_true] at hfail
    simp only [Bool.false_eq_true, if_false, false_or]
    rw [attemptWith_failed initializer hfail]
    by_cases hinit : b.filter = .unused → faults.init = false
    · rw [ensureInit_eq initializer hinit]
      obtain ⟨windows, _ | r⟩ := observed initializer b
      · simpa using .inr hinit
      · simpa [c.filter_unchanged_iff] using fun _ => hinit
    · -- the initializer fails, and its error is kept
      obtain ⟨hunused, hfault⟩ := Classical.not_imp.mp hinit
      have hfault : faults.init = true := by simpa using hfault
      simp [ensureInit, hunused, hfault, eq_comm]

theorem attempt_eq (hearly : faults.early = false) (hinit : faults.init = false) (c : Call) (b : Backend) :
    attempt initializer faults c b = attemptWith faults c (observed initializer b) := by
  rw [attempt, hearly, if_neg Bool.false_ne_true, ensureInit_eq initializer fun _ => hinit]

/-- Attempts in which the initializer does not fail depend on what the filter shows only. -/
theorem attempt_congr (hinit : faults.init = false) (c : Call) {b' : Backend}
    (h : observed initializer b = observed initializer b') :
    (attempt initializer faults c b).2 = (attempt initializer faults c b').2 ∧
      observed initializer (attempt initializer faults c b).1 =
        observed initializer (attempt initializer faults c b').1 := by
  rw [attempt, attempt, ensureInit_eq initializer fun _ => hinit, ensureInit_eq initializer fun _ => hinit, h]
  split_ifs
  · exact ⟨rfl, h⟩
  · exact ⟨rfl, rfl⟩

/-- **A failed attempt leaves the filter as it was, so that a retry goes as if there had been no attempt,
exactly if it spares the filter.** -/
theorem failed_attempt_iff (faults : Faults) (c : Call) (b : Backend) {e : AttemptError}
    (hfail : (attempt initializer faults c b).2 = .error e) :
    (observed initializer (attempt initializer faults c b).1 = observed initializer b ∧
      ∀ again : Faults, again.init = false →
        (attempt initializer again c (attempt initializer faults c b).1).2 =
          (attempt initializer again c b).2 ∧
          observed initializer (attempt initializer again c (attempt initializer faults c b).1).1 =
            observed initializer (attempt initializer again c b).1) ↔
      AttemptSpares initializer faults c b := by
  rw [← observed_attempt_iff initializer c hfail]
  exact ⟨And.left, fun h => ⟨h, fun again hinit => attempt_congr initializer hinit c h⟩⟩

/-- The backend after a run of attempts from an empty database. -/
inductive Reachable : Backend → Prop
  /-- Nothing is stored, and the filter was not used. -/
  | start : Reachable ⟨.unused, fun _ => none⟩
  | attempt {b : Backend} (faults : Faults) (c : Call) (h : Reachable b) :
    Reachable (EventFilter.attempt initializer faults c b).1

end

/-! ### The end of a window -/

/-- `InitializeRunningEventFilter` of a database without blocks. -/
def emptyInitializer : Windows → Windows × Option RunningEventFilter :=
  fun windows => (windows, some ⟨newAggregatedFilter 0, 0⟩)

/-- `EventsBloom` of a block without events. -/
def emptyBloom : BloomFilter := .new eventsBloomLength eventsBloomHashFuncs

theorem insert_emptyBloom (h : f.Covers n) : f.insert (some emptyBloom) n = .ok f := by
  obtain ⟨f', hf'⟩ : ∃ f', f.insert (some emptyBloom) n = .ok f' := insert_ok h rfl
  have hnothing : f.AddsNothing (some emptyBloom) n := by
    intro b hb j hj
    obtain rfl := some.inj hb
    rw [emptyBloom, BloomFilter.new, BitSet.test_new] at hj
    exact absurd hj Bool.false_ne_true
  rw [hf', (insert_eq_self_iff hf').mpr hnothing]

theorem covers_first {n : ℕ} (hn : n < numBlocksPerFilter) : (newAggregatedFilter 0).Covers (ofNat n) := by
  rw [numBlocksPerFilter] at hn
  have hval : (ofNat n).toNat = n := toNat_ofNat_of_lt' (hn.trans (by decide))
  refine ⟨UInt64.zero_le, UInt64.le_iff_toNat_le.mpr ?_⟩
  rw [hval]
  exact Nat.le_of_lt_succ hn

/-- The filter takes a block without events that is not the last one of the first window. -/
theorem insert_first {n : ℕ} (hn : n + 1 < numBlocksPerFilter) (windows : Windows) (next : UInt64) :
    RunningEventFilter.insert ⟨newAggregatedFilter 0, next⟩ Faults.none windows (some emptyBloom) (ofNat n) =
      (⟨newAggregatedFilter 0, ofNat (n + 1)⟩, .ok windows) := by
  have hlast : ofNat n ≠ (newAggregatedFilter 0).toBlock := by
    intro heq
    have hval : (ofNat n).toNat = n := toNat_ofNat_of_lt' ((Nat.lt_of_succ_lt hn).trans (by decide))
    rw [heq] at hval
    have hto : (newAggregatedFilter 0).toBlock.toNat = 8191 := rfl
    rw [numBlocksPerFilter] at hn
    omega
  rw [RunningEventFilter.insert, insert_emptyBloom (covers_first (Nat.lt_of_succ_lt hn))]
  simp only [if_neg hlast, ofNat_add]
  rfl

/-- The filter at the last block of the first window, when no block has an event. -/
def lastBlock : Backend := ⟨.ready ⟨newAggregatedFilter 0, 8191⟩, fun _ => none⟩

theorem insert_lastBlock :
    (newAggregatedFilter 0).insert (some emptyBloom) 8191 = .ok (newAggregatedFilter 0) :=
  insert_emptyBloom (covers_first (n := 8191) (by decide))

/-- A window that cannot be put in the batch: the filter stays in the window, so that the block can be stored
again. -/
theorem failed_attempt_iff_put :
    let faults := { Faults.none with put := true }
    let c := Call.store (some emptyBloom) 8191
    (attempt emptyInitializer faults c lastBlock).2 = .error .put ∧
      (attempt emptyInitializer .none c (attempt emptyInitializer faults c lastBlock).1).2 = .ok () := by
  intro faults c
  have hput : c.filter faults (fun _ => none) ⟨newAggregatedFilter 0, 8191⟩ =
      (⟨newAggregatedFilter 0, 8191⟩, .error .put) := by
    rw [Call.filter, RunningEventFilter.insert, insert_lastBlock]
    rfl
  have hfail : (attempt emptyInitializer faults c lastBlock).2 = .error .put := by
    rw [attempt_eq _ rfl rfl, show observed emptyInitializer lastBlock = (fun _ => none, some _) from rfl,
      attemptWith, hput]
    rfl
  have hspares : AttemptSpares emptyInitializer faults c lastBlock :=
    .inr (.inr ⟨fun h => (by cases h), fun r hr => by
      obtain rfl := some.inj hr
      exact (c.filter_unchanged_iff _ _ _).mp (congrArg Prod.fst hput)⟩)
  have hagain := ((failed_attempt_iff _ _ _ _ hfail).mpr hspares).2 .none rfl
  refine ⟨hfail, hagain.1.trans ?_⟩
  rw [attempt_eq _ rfl rfl, show observed emptyInitializer lastBlock = (fun _ => none, some _) from rfl,
    attemptWith, Call.filter,
    RunningEventFilter.insert, insert_lastBlock]
  rfl

/-- A block without events is stored, unless it is the last one of the window. -/
theorem attempt_first {n : ℕ} (hn : n + 1 < numBlocksPerFilter) {b : Backend}
    (hobs : observed emptyInitializer b = (fun _ => none, some ⟨newAggregatedFilter 0, ofNat n⟩)) :
    (attempt emptyInitializer .none (.store (some emptyBloom) (ofNat n)) b).1 =
      ⟨.ready ⟨newAggregatedFilter 0, ofNat (n + 1)⟩, fun _ => none⟩ := by
  rw [attempt_eq _ rfl rfl, hobs, attemptWith]
  simp only [Call.filter, insert_first hn]
  rfl

/-- Blocks without events can be stored up to the last one of the window. -/
theorem reachable_empty {n : ℕ} (hn : n < numBlocksPerFilter) :
    ∃ b, Reachable emptyInitializer b ∧
      observed emptyInitializer b = (fun _ => none, some ⟨newAggregatedFilter 0, ofNat n⟩) := by
  induction n with
  | zero => exact ⟨_, .start, rfl⟩
  | succ n ih =>
    obtain ⟨b, hreach, hobs⟩ := ih (Nat.lt_of_succ_lt hn)
    refine ⟨_, hreach.attempt Faults.none (.store (some emptyBloom) (ofNat n)), ?_⟩
    rw [attempt_first hn hobs]
    rfl

/-- **A store of the last block of a window whose batch is not written cannot be tried again:** the filter has
moved to the next window, which refuses the block. -/
theorem failed_store_breaks_window : ∃ b, Reachable emptyInitializer b ∧
    (attempt emptyInitializer Faults.onWrite (.store (some emptyBloom) 8191) b).2 = .error .write ∧
    (attempt emptyInitializer Faults.none (.store (some emptyBloom) 8191) b).2 = .ok () ∧
    (attempt emptyInitializer Faults.none (.store (some emptyBloom) 8191)
      (attempt emptyInitializer Faults.onWrite (.store (some emptyBloom) 8191) b).1).2 =
        .error (.filter .blockOutOfRange) := by
  obtain ⟨b, hreach, hobs⟩ := reachable_empty (n := 8191) (by decide)
  have hinsert := insert_lastBlock
  have hcall : ∀ faults : Faults, faults.put = false → ∃ windows',
      Call.filter (.store (some emptyBloom) 8191) faults (fun _ => none) ⟨newAggregatedFilter 0, ofNat 8191⟩ =
        (⟨newAggregatedFilter 8192, 8192⟩, .ok windows') := by
    intro faults hput
    rw [Call.filter, RunningEventFilter.insert, hinsert]
    simp only [hput, if_neg Bool.false_ne_true]
    exact ⟨_, if_pos rfl⟩
  obtain ⟨windows', hwrite⟩ := hcall Faults.onWrite rfl
  obtain ⟨windows'', hnone⟩ := hcall Faults.none rfl
  have hmoved : (attempt emptyInitializer Faults.onWrite (.store (some emptyBloom) 8191) b) =
      (⟨.ready ⟨newAggregatedFilter 8192, 8192⟩, fun _ => none⟩, .error .write) := by
    rw [attempt_eq _ rfl rfl, hobs, attemptWith, hwrite]
    rfl
  refine ⟨b, hreach, by rw [hmoved], ?_, ?_⟩
  · rw [attempt_eq _ rfl rfl, hobs, attemptWith, hnone]
    rfl
  · rw [hmoved]
    rfl

end Juno.EventFilter
