import Juno.Walstore.Index

/-!
# Runs of the log of the consensus inputs

The store is used, closed, opened again, and the process may crash between any two calls. What
`LoadAllEntries` gives is compared with the records that were given to the store: those a flush
has written, and those still pending.

## The model

`System` has the disk, the store in memory if there is one, and the two lists of records. A flush
that returns no error has written the pending records; so has one that returns an error after the
batch was committed. A crash loses the memory, and the record that was being written may be torn:
in the open log, or in one that was just created.

The main results are `runs_keep_entries` and `height_zero_lost_and_failed_flush_kept`.
-/

namespace Juno.Walstore

open Juno.Lib List

variable {E : Type} (getHeight : E → ℕ)

/-! ### The logs and the writer -/

variable {logs : List (Log E)} {log : Log E} {d d' : Disk E} {f : Faults}

def tagged (logs : List (Log E)) : List (ℕ × Record E) :=
  logs.flatMap fun log => log.batches.flatten.map fun r => (log.num, r)

@[simp] theorem tagged_append (logs logs' : List (Log E)) :
    tagged (logs ++ logs') = tagged logs ++ tagged logs' :=
  flatMap_append

@[simp] theorem tagged_cons (log : Log E) (logs : List (Log E)) :
    tagged (log :: logs) = (log.batches.flatten.map fun r => (log.num, r)) ++ tagged logs := rfl

@[simp] theorem tagged_nil : tagged ([] : List (Log E)) = [] := rfl

/-- The logs are in order, and only the last one can be torn. -/
structure LogsOk (logs : List (Log E)) : Prop where
  sorted : logs.Pairwise fun a b => a.num < b.num ∧ a.torn = false
  positive : ∀ log ∈ logs, log.num ≠ 0

/-- What holds of the logs while a store is open. -/
structure WriterOk (w : WalWriter) (logs : List (Log E)) : Prop extends LogsOk logs where
  below : ∀ log ∈ logs, log.num < w.nextWALNum
  next : w.nextWALNum ≠ 0
  current : ∀ n, w.currentWALNum = some n → w.repairRequired = false ∧ ∃ init log,
    logs = init ++ [log] ∧ log.num = n
  clean : w.repairRequired = false → ∀ log ∈ logs, log.torn = false

theorem LogsOk.tagged_ne_zero (h : LogsOk logs) : ∀ r ∈ tagged logs, r.1 ≠ 0 := by
  intro r hr
  obtain ⟨log, hlog, hmem⟩ := mem_flatMap.mp hr
  obtain ⟨r', -, rfl⟩ := mem_map.mp hmem
  exact h.positive log hlog

theorem forall_mem_snoc {P : Log E → Prop} : (∀ l ∈ logs ++ [log], P l) ↔ (∀ l ∈ logs, P l) ∧ P log := by
  simp [or_imp, forall_and]

/-- A log with a new number, behind logs that are all whole. -/
theorem LogsOk.snoc (h : LogsOk logs) (hnum : log.num ≠ 0) (hbelow : ∀ l ∈ logs, l.num < log.num)
    (hclean : ∀ l ∈ logs, l.torn = false) : LogsOk (logs ++ [log]) := by
  refine ⟨pairwise_append.mpr ⟨h.sorted, pairwise_singleton _ _, fun a ha b hb => ?_⟩,
    forall_mem_snoc.mpr ⟨h.positive, hnum⟩⟩
  obtain rfl := mem_singleton.mp hb
  exact ⟨hbelow a ha, hclean a ha⟩

/-- The logs before the last one are whole, and have other numbers. -/
theorem LogsOk.before_last (h : LogsOk (logs ++ [log])) {l : Log E} (hl : l ∈ logs) :
    l.num < log.num ∧ l.torn = false :=
  (pairwise_append.mp h.sorted).2.2 l hl log (mem_singleton.mpr rfl)

/-- **The last log of a disk is changed**, and keeps its number. -/
theorem LogsOk.modifyLog {init : List (Log E)} (h : LogsOk d.logs) (hlogs : d.logs = init ++ [log])
    (change : Log E → Log E) (hnum : (change log).num = log.num) :
    (d.modifyLog log.num change).logs = init ++ [change log] ∧ LogsOk (init ++ [change log]) := by
  rw [hlogs] at h
  have hinit : init.map (fun l => if l.num = log.num then change l else l) = init := by
    refine (map_congr_left fun l hl => ?_).trans (map_id _)
    exact if_neg (h.before_last hl).1.ne
  obtain ⟨hpositive, hlast⟩ := forall_mem_snoc.mp h.positive
  constructor
  · rw [Disk.modifyLog, hlogs, map_append, hinit]
    simp
  · refine LogsOk.snoc ⟨(pairwise_append.mp h.sorted).1, hpositive⟩ (hnum ▸ hlast) (fun l hl => ?_)
      fun l hl => (h.before_last hl).2
    rw [hnum]
    exact (h.before_last hl).1

theorem LogsOk.filter (h : LogsOk logs) (keep : Log E → Bool) : LogsOk (logs.filter keep) :=
  ⟨h.sorted.filter keep, fun log hlog => h.positive log (mem_filter.mp hlog).1⟩

section

variable {w w' : WalWriter}

/-- `ensureWriter` leaves the records and opens a log. -/
theorem WriterOk.ensureWriter (h : WriterOk w d.logs) {n : ℕ} (hw : w.ensureWriter d f = some (n, w', d')) :
    WriterOk w' d'.logs ∧ w'.currentWALNum = some n ∧ tagged d'.logs = tagged d.logs ∧
      d'.watermark = d.watermark := by
  unfold WalWriter.ensureWriter at hw
  cases hcur : w.currentWALNum with
  | some m =>
    simp only [hcur] at hw
    split_ifs at hw
    cases hw
    exact ⟨h, hcur, rfl, rfl⟩
  | none =>
    simp only [hcur] at hw
    split_ifs at hw with hrepair
    rw [Bool.not_eq_true] at hrepair
    cases hw
    refine ⟨⟨h.toLogsOk.snoc h.next h.below (h.clean hrepair), ?_, Nat.succ_ne_zero _,
      fun n hn => ?_, fun _ => ?_⟩,
      rfl, by simp, rfl⟩
    · exact forall_mem_snoc.mpr ⟨fun log hlog => Nat.lt_succ_of_lt (h.below log hlog), Nat.lt_succ_self _⟩
    · obtain rfl := Option.some.inj hn
      exact ⟨hrepair, d.logs, _, rfl, rfl⟩
    · exact forall_mem_snoc.mpr ⟨h.clean hrepair, rfl⟩

theorem WriterOk.closeAndRepairCurrent (h : WriterOk w d.logs) (forceRepair : Bool)
    {unsynced : List (List (Record E))} (hf : f.repair = true → unsynced = []) :
    WriterOk (w.closeAndRepairCurrent d forceRepair unsynced f).2.1
        (w.closeAndRepairCurrent d forceRepair unsynced f).2.2.logs ∧
      tagged (w.closeAndRepairCurrent d forceRepair unsynced f).2.2.logs = tagged d.logs ∧
      (w.closeAndRepairCurrent d forceRepair unsynced f).2.2.watermark = d.watermark := by
  unfold WalWriter.closeAndRepairCurrent
  cases hcur : w.currentWALNum with
  | none => exact ⟨h, rfl, rfl⟩
  | some n =>
    obtain ⟨hrepair, init, log, hlogs, rfl⟩ := h.current n hcur
    have hclosed : WriterOk { w with currentWALNum := none, repairRequired := false } d.logs :=
      ⟨h.toLogsOk, h.below, h.next, fun n hn => (nomatch hn), fun _ => h.clean hrepair⟩
    simp only
    split_ifs with hkeep hrepair
    · exact ⟨hclosed, rfl, rfl⟩
    · rw [hf hrepair]
      obtain ⟨hmod, hok⟩ := h.toLogsOk.modifyLog hlogs
        (fun log => { log with batches := log.batches ++ [], torn := true }) rfl
      have hbelow := h.below
      rw [hlogs, forall_mem_snoc] at hbelow
      simp only [hmod]
      refine ⟨⟨hok, forall_mem_snoc.mpr ⟨hbelow.1, hbelow.2⟩, h.next, fun n hn => (nomatch hn),
        fun hr => (nomatch hr)⟩,
        ?_, rfl⟩
      simp only [hlogs, tagged_append, tagged_cons, append_nil]
    · exact ⟨hclosed, rfl, rfl⟩

theorem WriterOk.appendSync (h : WriterOk w d.logs) (batch : List (Record E))
    (hf : f.leaves = false) {o : Option ℕ} (hw : w.appendSync d batch f = (o, w', d')) :
    WriterOk w' d'.logs ∧ d'.watermark = d.watermark ∧
      (o = none → tagged d'.logs = tagged d.logs) ∧
      ∀ n, o = some n → n ≠ 0 ∧ tagged d'.logs = tagged d.logs ++ batch.map fun r => (n, r) := by
  unfold WalWriter.appendSync at hw
  cases hens : w.ensureWriter d f with
  | none =>
    simp only [hens] at hw
    cases hw
    exact ⟨h, rfl, fun _ => rfl, fun n hn => (nomatch hn)⟩
  | some r =>
    obtain ⟨n, w₁, d₁⟩ := r
    obtain ⟨h₁, hcur, htag, hmark⟩ := h.ensureWriter hens
    simp only [hens] at hw
    by_cases hsync : f.sync = true
    · rw [if_pos hsync] at hw
      cases hw
      have hnone : f.repair = true → (if f.written then [batch] else []) = [] := fun hrepair => by
        simpa [Faults.leaves, hsync, hrepair] using hf
      obtain ⟨h₂, htag₂, hmark₂⟩ := h₁.closeAndRepairCurrent true hnone
      exact ⟨h₂, hmark₂.trans hmark, fun _ => htag₂.trans htag, fun n hn => (nomatch hn)⟩
    · rw [if_neg hsync] at hw
      cases hw
      obtain ⟨hrepair, init, log, hlogs, rfl⟩ := h₁.current n hcur
      obtain ⟨hmod, hok⟩ := h₁.toLogsOk.modifyLog hlogs
        (fun log => { log with batches := log.batches ++ [batch] }) rfl
      have hbelow := h₁.below
      have hclean := h₁.clean hrepair
      rw [hlogs, forall_mem_snoc] at hbelow hclean
      refine ⟨?_, hmark, fun hn => (nomatch hn), fun n hn => ?_⟩
      · rw [hmod]
        refine ⟨hok, forall_mem_snoc.mpr ⟨hbelow.1, hbelow.2⟩, h₁.next, fun n hn => ?_,
          fun _ => forall_mem_snoc.mpr ⟨hclean.1, hclean.2⟩⟩
        obtain rfl := Option.some.inj (hcur.symm.trans hn)
        exact ⟨hrepair, init, _, rfl, rfl⟩
      · obtain rfl := Option.some.inj hn
        refine ⟨(forall_mem_snoc.mp hok.positive).2, ?_⟩
        rw [hmod, ← htag, hlogs]
        simp

end

/-! ### Records that say the same -/

/-- Two lists of records say the same to a store that is pruned up to a height. -/
structure Same (pruned : ℕ) (rs rs' : List (Record E)) : Prop where
  entries : above getHeight pruned (entries rs) = above getHeight pruned (entries rs')
  prune : max pruned (maxPrune rs) = max pruned (maxPrune rs')

/-- The records of the disk have the live entries of those that were flushed. -/
structure Holds (watermark : ℕ) (recs flushed : List (Record E)) : Prop where
  pruned : max watermark (maxPrune recs) = maxPrune flushed
  live : above getHeight (maxPrune flushed) (entries recs) = above getHeight (maxPrune flushed)
    (entries flushed)

variable {getHeight} {height height' : ℕ} {rs rs' flushed : List (Record E)}

theorem above_append (height : ℕ) (es es' : List E) :
    above getHeight height (es ++ es') = above getHeight height es ++ above getHeight height es' :=
  filter_append ..

theorem above_above (hle : height ≤ height') (es : List E) :
    above getHeight height' (above getHeight height es) = above getHeight height' es := by
  unfold above
  rw [filter_filter]
  refine filter_congr fun e _ => ?_
  by_cases he : height' < getHeight e
  · simp [he, hle.trans_lt he]
  · simp [he]

theorem above_congr (hle : height ≤ height') {es es' : List E}
    (h : above getHeight height es = above getHeight height es') :
    above getHeight height' es = above getHeight height' es' := by
  rw [← above_above hle, h, above_above hle]

theorem Same.refl (pruned : ℕ) (rs : List (Record E)) : Same getHeight pruned rs rs := ⟨rfl, rfl⟩

theorem Same.append {pruned : ℕ} {more more' : List (Record E)} (h : Same getHeight pruned rs rs')
    (hmore : Same getHeight pruned more more') :
    Same getHeight pruned (rs ++ more) (rs' ++ more') where
  entries := by rw [entries_append, entries_append, above_append, above_append, h.entries, hmore.entries]
  prune := by
    have h1 := h.prune
    have h2 := hmore.prune
    rw [maxPrune_append, maxPrune_append]
    omega

theorem Holds.append {watermark : ℕ} {recs : List (Record E)}
    (h : Holds getHeight watermark recs flushed) (hsame : Same getHeight (maxPrune flushed) rs rs') :
    Holds getHeight watermark (recs ++ rs) (flushed ++ rs') where
  pruned := by
    have h1 := h.pruned
    have h2 := hsame.prune
    rw [maxPrune_append, maxPrune_append]
    omega
  live := by
    have hle : maxPrune flushed ≤ maxPrune (flushed ++ rs') := by simp
    rw [entries_append, entries_append, above_append, above_append, above_congr hle h.live,
      above_congr hle hsame.entries]

/-! ### The store -/

variable (getHeight) in
/-- The index is that of the disk, and the disk has the live entries. -/
structure DiskOk (s : WALStore E) (d : Disk E) (flushed : List (Record E)) : Prop where
  writer : WriterOk s.wal d.logs
  index : IndexOf getHeight d.watermark (tagged d.logs) s.index
  holds : Holds getHeight d.watermark ((tagged d.logs).map Prod.snd) flushed

variable (getHeight) in
structure StoreOk (s : WALStore E) (d : Disk E) (flushed pending : List (Record E)) : Prop
    extends DiskOk getHeight s d flushed where
  same : Same getHeight (maxPrune flushed) s.pendingRecords pending

variable {s : WALStore E}

theorem DiskOk.pruned (h : DiskOk getHeight s d flushed) : s.index.prunedUpToHeight = maxPrune flushed :=
  h.index.pruned.trans h.holds.pruned

variable (getHeight) in
/-- The entries above a height that are in a file stay in that file. -/
def Stay (height : ℕ) (d d' : Disk E) : Prop :=
  ∀ n e, (n, Record.entry e) ∈ tagged d.logs → height < getHeight e → (n, Record.entry e) ∈ tagged d'.logs

variable (getHeight) in
/-- The pending records are flushed if there was no error or they were committed, and else they are kept. -/
def FlushOk (d : Disk E) (flushed pending : List (Record E)) (o : WALStore.Flushed) (s' : WALStore E)
    (d' : Disk E) : Prop :=
  if o.ok || o.committed then
    StoreOk getHeight s' d' (flushed ++ pending) [] ∧ Stay getHeight (maxPrune (flushed ++ pending)) d d'
  else StoreOk getHeight s' d' flushed pending ∧ Stay getHeight (maxPrune flushed) d d'

theorem foldl_min_le (l : List ℕ) (a : ℕ) : l.foldl min a ≤ a ∧ ∀ n ∈ l, l.foldl min a ≤ n := by
  induction l generalizing a with
  | nil => exact ⟨le_rfl, fun n hn => nomatch hn⟩
  | cons b l ih =>
    obtain ⟨h1, h2⟩ := ih (min a b)
    refine ⟨h1.trans (min_le_left a b), fun n hn => ?_⟩
    rcases mem_cons.mp hn with rfl | hn
    · exact h1.trans (min_le_right a n)
    · exact h2 n hn

theorem tagged_filter (keep : ℕ → Bool) (logs : List (Log E)) :
    tagged (logs.filter fun log => keep log.num) = (tagged logs).filter fun r => keep r.1 := by
  induction logs with
  | nil => rfl
  | cons log logs ih =>
    have hmap : (log.batches.flatten.map fun r => (log.num, r)).filter (fun r => keep r.1) =
        if keep log.num then log.batches.flatten.map fun r => (log.num, r) else [] := by
      generalize log.batches.flatten = rs
      rw [filter_map, Function.comp_def]
      by_cases hk : keep log.num = true
      · simp [hk]
      · simp [hk]
    rw [tagged_cons, filter_append, ← ih, hmap, filter_cons]
    split_ifs
    · rw [tagged_cons]
    · rw [nil_append]

open WALStore

variable {o : WALStore.Flushed}

section

variable {s : WALStore E} {d : Disk E} {flushed pending : List (Record E)} {s' : WALStore E}

section

variable (h : DiskOk getHeight s d flushed)
include h

theorem DiskOk.rewrite (hwriter : WriterOk s'.wal d'.logs) (hindex : s'.index = s.index)
    (htag : tagged d'.logs = tagged d.logs) (hmark : d'.watermark = d.watermark) :
    DiskOk getHeight s' d' flushed where
  writer := hwriter
  index := by rw [hindex, htag, hmark]; exact h.index
  holds := by rw [htag, hmark]; exact h.holds

/-- Once the watermark is written, files may go that have no live entry. -/
theorem DiskOk.drop (keep : ℕ → Bool) (hlogs : d'.logs = d.logs.filter fun log => keep log.num)
    (hmark : d'.watermark = s.index.prunedUpToHeight)
    (hkeep : ∀ n ∈ s.index.walHeightRefs.keys, keep n = true)
    (hcurrent : ∀ n, s.wal.currentWALNum = some n → keep n = true) :
    DiskOk getHeight s d' flushed ∧ Stay getHeight (maxPrune flushed) d d' := by
  have htag : tagged d'.logs = (tagged d.logs).filter fun r => keep r.1 := by rw [hlogs, tagged_filter]
  have hlive : ∀ n e, (n, Record.entry e) ∈ tagged d.logs → s.index.prunedUpToHeight < getHeight e →
      keep n = true :=
    fun n e hmem he => hkeep n (h.index.mem_refs hmem he)
  refine ⟨⟨?_, ?_, ⟨?_, ?_⟩⟩, fun n e hmem he => ?_⟩
  · rw [hlogs]
    refine ⟨h.writer.toLogsOk.filter _, fun log hlog => h.writer.below log (mem_filter.mp hlog).1,
      h.writer.next,
      fun n hn => ?_, fun hr log hlog => h.writer.clean hr log (mem_filter.mp hlog).1⟩
    obtain ⟨hrepair, init, log, hinit, hnum⟩ := h.writer.current n hn
    refine ⟨hrepair, init.filter fun log => keep log.num, log, ?_, hnum⟩
    rw [hinit, filter_append, filter_cons_of_pos (by rw [hnum]; exact hcurrent n hn)]
    rfl
  · rw [htag, hmark]
    exact h.index.filter (fun r => keep r.1) hlive
  · rw [htag, hmark]
    exact (h.index.filter (fun r => keep r.1) hlive).pruned.symm.trans h.pruned
  · rw [htag, ← h.holds.live]
    refine filter_entries_filter (fun r => keep r.1) fun n e hmem he => hlive n e hmem ?_
    rw [h.pruned]
    exact of_decide_eq_true he
  · rw [htag]
    exact mem_filter.mpr ⟨hmem, hlive n e hmem (h.pruned ▸ he)⟩

/-- `cleanupObsoleteWALs` keeps every file with a live entry. -/
theorem DiskOk.cleanupObsoleteWALs (hmark : d.watermark = s.index.prunedUpToHeight) (f : Faults) :
    DiskOk getHeight s (s.cleanupObsoleteWALs d f) flushed ∧
      Stay getHeight (maxPrune flushed) d (s.cleanupObsoleteWALs d f) := by
  obtain ⟨hwriter, hrefs⟩ := foldl_min_le s.index.walHeightRefs.keys s.wal.minLiveWALNum
  refine h.drop (fun n => !(decide (n < s.minLiveWALNum) && f.removed n)) rfl hmark (fun n hn => ?_)
    fun n hn => ?_
  · have hle : s.minLiveWALNum ≤ n := hrefs n hn
    simp [not_lt.mpr hle]
  · have hle : s.minLiveWALNum ≤ n := by
      refine hwriter.trans ?_
      simp [WalWriter.minLiveWALNum, hn]
    simp [not_lt.mpr hle]

/-- `removeObsoleteWALFiles` keeps every file with a live entry. -/
theorem DiskOk.removeObsoleteWALFiles (pruneRecordCount : ℕ) (f : Faults) {ok : Bool}
    (hs : s.removeObsoleteWALFiles d pruneRecordCount f = (ok, s', d')) :
    DiskOk getHeight s' d' flushed ∧ Stay getHeight (maxPrune flushed) d d' ∧ s'.closed = s.closed ∧
      s'.pendingRecords = s.pendingRecords := by
  have hstay : Stay getHeight (maxPrune flushed) d d := fun n e hmem _ => hmem
  -- the watermark alone changes nothing
  have hmarked : DiskOk getHeight s { d with watermark := s.index.prunedUpToHeight } flushed := by
    refine (h.drop (fun _ => true) ?_ rfl (fun _ _ => rfl) fun _ _ => rfl).1
    exact (filter_eq_self.mpr fun _ _ => rfl).symm
  simp only [WALStore.removeObsoleteWALFiles] at hs
  split at hs
  · cases hs
    exact ⟨h, hstay, rfl, rfl⟩
  split at hs
  · cases hs
    exact ⟨h.rewrite h.writer rfl rfl rfl, hstay, rfl, rfl⟩
  cases hfault : f.watermark with
  | notReplaced =>
    simp only [hfault] at hs
    cases hs
    exact ⟨h.rewrite h.writer rfl rfl rfl, hstay, rfl, rfl⟩
  | notSynced =>
    simp only [hfault] at hs
    cases hs
    exact ⟨hmarked.rewrite hmarked.writer rfl rfl rfl, hstay, rfl, rfl⟩
  | none =>
    simp only [hfault] at hs
    rcases hclose : s.wal.closeAndRepairCurrent { d with watermark := s.index.prunedUpToHeight } false [] f
      with ⟨rotateErr, wal, d₁⟩
    obtain ⟨hw, htag, hmark⟩ := hmarked.writer.closeAndRepairCurrent false fun _ => rfl
    rw [hclose] at hs hw htag hmark
    simp only at hs hw htag hmark
    have hrotated : DiskOk getHeight
        { s with
          pruneRecordsSinceCleanup := s.pruneRecordsSinceCleanup + pruneRecordCount
          wal := wal } d₁ flushed :=
      hmarked.rewrite hw rfl htag hmark
    obtain ⟨hclean, hkept⟩ := hrotated.cleanupObsoleteWALs hmark f
    have hkept' : Stay getHeight (maxPrune flushed) d _ := fun n e hmem he => hkept n e (htag ▸ hmem) he
    split_ifs at hs
    · cases hs
      exact ⟨hclean.rewrite hclean.writer rfl rfl rfl, hkept', rfl, rfl⟩
    · cases hs
      exact ⟨hclean, hkept', rfl, rfl⟩

end

section

variable (h : StoreOk getHeight s d flushed pending)
include h

/-- `Flush` moves the pending records to the flushed ones, or leaves both. -/
theorem StoreOk.flushLocked (hf : f.leaves = false) (hs : s.flushLocked getHeight d f = (o, s', d')) :
    FlushOk getHeight d flushed pending o s' d' ∧
      s'.closed = s.closed ∧ (o.committed = false → o.ok = false) := by
  unfold FlushOk
  unfold WALStore.flushLocked at hs
  split_ifs at hs with hclosed hempty hencode
  · cases hs
    exact ⟨⟨h, fun n e hmem _ => hmem⟩, rfl, fun _ => rfl⟩
  · cases hs
    have hsame := h.same
    rw [hempty] at hsame
    have hholds := h.holds.append hsame
    rw [append_nil] at hholds
    exact ⟨⟨⟨⟨h.writer, h.index, hholds⟩, hempty ▸ Same.refl _ _⟩, fun n e hmem _ => hmem⟩, rfl,
      fun hfalse => nomatch hfalse⟩
  · cases hs
    exact ⟨⟨h, fun n e hmem _ => hmem⟩, rfl, fun _ => rfl⟩
  rcases happend : s.wal.appendSync d s.pendingRecords f with ⟨_ | n, wal, d₁⟩
  · obtain ⟨hw, hmark, htag, -⟩ := h.writer.appendSync _ hf happend
    rw [happend] at hs
    cases hs
    exact ⟨⟨⟨h.rewrite hw rfl (htag rfl) hmark, h.same⟩, fun n e hmem _ => (htag rfl).symm ▸ hmem⟩,
      rfl, fun _ => rfl⟩
  · obtain ⟨hw, hmark, -, htag⟩ := h.writer.appendSync _ hf happend
    obtain ⟨hn, htag⟩ := htag n rfl
    rw [happend] at hs
    simp only at hs
    have hmap : (tagged d₁.logs).map Prod.snd = (tagged d.logs).map Prod.snd ++ s.pendingRecords := by
      simp [htag, Function.comp_def]
    have hindex : IndexOf getHeight d₁.watermark (tagged d₁.logs)
        (s.index.updateIndexesFromCommittedRecords getHeight n s.pendingRecords) := by
      have hfold := h.index.foldl (s.pendingRecords.map fun r => (n, r)) fun r hr => by
        obtain ⟨r', -, rfl⟩ := mem_map.mp hr
        exact hn
      rw [foldl_map, ← htag, ← hmark] at hfold
      exact hfold
    have hwritten : DiskOk getHeight
        { s with
          wal := wal
          index :=
            s.index.updateIndexesFromCommittedRecords getHeight n s.pendingRecords } d₁
              (flushed ++ pending) :=
      ⟨hw, hindex, hmap ▸ hmark ▸ h.holds.append h.same⟩
    rcases hremove : removeObsoleteWALFiles
        { s with
          wal := wal
          index := s.index.updateIndexesFromCommittedRecords getHeight n s.pendingRecords }
        d₁ (countPruneRecords s.pendingRecords) f with ⟨ok, s₂, d₂⟩
    rw [hremove] at hs
    cases hs
    obtain ⟨hdisk, hstay, hclosed₂, -⟩ := hwritten.removeObsoleteWALFiles _ f hremove
    refine ⟨?_, hclosed₂, fun hfalse => nomatch hfalse⟩
    rw [if_pos (Bool.or_true _)]
    refine ⟨⟨hdisk.rewrite hdisk.writer rfl rfl rfl, Same.refl _ _⟩, fun m e hmem he => hstay m e ?_ he⟩
    rw [htag]
    exact mem_append_left _ hmem

/-- `Close` is a flush, and nothing is written any more. -/
theorem StoreOk.close (hopen : s.closed = false) (hf : f.leaves = false)
    (hs : s.close getHeight d f = (o, s', d')) : FlushOk getHeight d flushed pending o s' d' := by
  unfold WALStore.close at hs
  rw [if_neg (by simp [hopen])] at hs
  rcases hflush : s.flushLocked getHeight d f with ⟨o₁, s₁, d₁⟩
  obtain ⟨hflushed, -, hfailed⟩ := h.flushLocked hf hflush
  rcases hclose : s₁.wal.closeAndRepairCurrent d₁ false [] f with ⟨closeErr, wal, d₂⟩
  simp only [hflush, hclose] at hs
  obtain ⟨rfl, rfl, rfl⟩ := Prod.mk.inj hs |>.imp_right Prod.mk.inj
  have hafter : ∀ {flushed' pending' : List (Record E)},
      StoreOk getHeight s₁ d₁ flushed' pending' ∧ Stay getHeight (maxPrune flushed') d d₁ →
      StoreOk getHeight { s₁ with closed := true, wal := wal } d₂ flushed' pending' ∧
        Stay getHeight (maxPrune flushed') d d₂ := by
    rintro flushed' pending' ⟨h₁, hstay⟩
    obtain ⟨hw, htag, hmark⟩ := h₁.writer.closeAndRepairCurrent false fun _ => rfl
    rw [hclose] at hw htag hmark
    exact ⟨⟨h₁.rewrite hw rfl htag hmark, h₁.same⟩, fun n e hmem he => htag.symm ▸ hstay n e hmem he⟩
  unfold FlushOk at hflushed ⊢
  cases hcommitted : o₁.committed with
  | true =>
    rw [hcommitted, Bool.or_true, if_pos rfl] at hflushed
    rw [Bool.or_true, if_pos rfl]
    exact hafter hflushed
  | false =>
    rw [hcommitted, hfailed hcommitted, if_neg (by simp)] at hflushed
    rw [hfailed hcommitted, if_neg (by simp)]
    exact hafter hflushed

theorem StoreOk.setWALEntry (e : E) :
    StoreOk getHeight (s.setWALEntry getHeight e).2 d flushed
      (if (s.setWALEntry getHeight e).1 then pending ++ [.entry e] else pending) := by
  unfold WALStore.setWALEntry
  by_cases hclosed : s.closed = true
  · rw [if_pos hclosed]
    exact h
  rw [if_neg hclosed]
  by_cases hold : getHeight e ≤ s.index.prunedUpToHeight
  · rw [if_pos hold]
    -- an entry that is pruned already says nothing
    have hnothing : Same getHeight (maxPrune flushed) [] [.entry e] := by
      rw [h.pruned] at hold
      exact ⟨by simp [entries, Record.toEntry, above, hold], by simp [Record.pruneHeight]⟩
    have hsame := h.same.append hnothing
    rw [append_nil] at hsame
    exact ⟨h.toDiskOk, hsame⟩
  · rw [if_neg hold]
    exact ⟨h.toDiskOk.rewrite h.writer rfl rfl rfl, h.same.append (Same.refl _ _)⟩

end

theorem raisePrune_spec (h : WALStore.raisePrune height rs = some rs') :
    entries rs' = entries rs ∧ maxPrune rs' = max (maxPrune rs) height := by
  induction rs generalizing rs' with
  | nil => exact nomatch h
  | cons r rs ih =>
    cases r with
    | prune k =>
      obtain rfl := Option.some.inj h
      refine ⟨rfl, ?_⟩
      change max (max k height) _ = max (max k _) height
      exact max_right_comm _ _ _
    | entry e =>
      obtain ⟨rs'', hrs, rfl⟩ := Option.map_eq_some_iff.mp h
      obtain ⟨h1, h2⟩ := ih hrs
      refine ⟨congrArg (e :: ·) h1, ?_⟩
      change max 0 (maxPrune rs'') = max (max 0 (maxPrune rs)) height
      rw [h2, max_assoc]

theorem StoreOk.deleteWALEntries (h : StoreOk getHeight s d flushed pending) (height : ℕ) :
    StoreOk getHeight (s.deleteWALEntries height).2 d flushed
      (if (s.deleteWALEntries height).1 then pending ++ [.prune height] else pending) := by
  unfold WALStore.deleteWALEntries
  by_cases hclosed : s.closed = true
  · rw [if_pos hclosed]
    exact h
  rw [if_neg hclosed]
  have hadded := h.same.append (Same.refl (maxPrune flushed) [.prune height])
  by_cases hold : height ≤ s.index.prunedUpToHeight
  · rw [if_pos hold]
    have hnothing : Same getHeight (maxPrune flushed) [] [Record.prune height] := by
      rw [h.pruned] at hold
      exact ⟨rfl, by simp [Record.pruneHeight, hold]⟩
    have hsame := h.same.append hnothing
    rw [append_nil] at hsame
    exact ⟨h.toDiskOk, hsame⟩
  rw [if_neg hold]
  cases hraise : raisePrune height s.pendingRecords with
  | none => exact ⟨h.toDiskOk.rewrite h.writer rfl rfl rfl, hadded⟩
  | some records =>
    obtain ⟨hentries, hmax⟩ := raisePrune_spec hraise
    have hraised : Same getHeight (maxPrune flushed) records (pending ++ [.prune height]) := by
      refine ⟨?_, ?_⟩
      · rw [← hadded.entries, entries_append, entries_prune, hentries]
        simp [entries]
      · rw [← hadded.prune]
        simp [hmax, Record.pruneHeight]
    exact ⟨h.toDiskOk.rewrite h.writer rfl rfl rfl, hraised⟩

end

/-! ### Opening -/

theorem recoverLatestWALTail_append (init : List (Log E)) (log : Log E) :
    recoverLatestWALTail (init ++ [log]) = init ++ [{ log with torn := false }] := by
  induction init with
  | nil => rfl
  | cons l init ih =>
    cases init with
    | nil => rfl
    | cons l' init => exact congrArg (l :: ·) ih

theorem LogsOk.recoverLatestWALTail (h : LogsOk logs) :
    LogsOk (recoverLatestWALTail logs) ∧ tagged (recoverLatestWALTail logs) = tagged logs ∧
      ∀ log ∈ recoverLatestWALTail logs, log.torn = false := by
  rcases eq_nil_or_concat logs with rfl | ⟨init, log, rfl⟩
  · exact ⟨h, rfl, fun log hlog => nomatch hlog⟩
  · rw [concat_eq_append, recoverLatestWALTail_append]
    rw [concat_eq_append] at h
    obtain ⟨-, hok⟩ := LogsOk.modifyLog (d := ⟨_, 0⟩) h rfl (fun log => { log with torn := false }) rfl
    exact ⟨hok, by simp, forall_mem_snoc.mpr ⟨fun l hl => (h.before_last hl).2, rfl⟩⟩

theorem le_nextWALNum (logs : List (Log E)) (next : ℕ) :
    next ≤ logs.foldl (fun next log => max next (log.num + 1)) next ∧
      ∀ log ∈ logs, log.num < logs.foldl (fun next log => max next (log.num + 1)) next := by
  induction logs generalizing next with
  | nil => exact ⟨le_rfl, fun log hlog => nomatch hlog⟩
  | cons l logs ih =>
    obtain ⟨h1, h2⟩ := ih (max next (l.num + 1))
    refine ⟨(le_max_left _ _).trans h1, fun log hlog => ?_⟩
    rcases mem_cons.mp hlog with rfl | hlog
    · exact (le_max_right next _).trans h1
    · exact h2 log hlog

theorem loadExistingEntries_eq (s : Index E) (logs : List (Log E)) :
    loadExistingEntries getHeight s logs = (tagged logs).foldl (fun s r => s.applyRecord getHeight r.1 r.2)
      s := by
  induction logs generalizing s with
  | nil => rfl
  | cons log logs ih =>
    rw [tagged_cons, foldl_append, ← ih, foldl_map, foldl_flatten]
    rfl

theorem newTendermintWALStore_ok (hlogs : LogsOk d.logs)
    (hholds : Holds getHeight d.watermark ((tagged d.logs).map Prod.snd) flushed) :
    ∃ s d', newTendermintWALStore getHeight d = some (s, d') ∧ StoreOk getHeight s d' flushed [] ∧
      tagged d'.logs = tagged d.logs := by
  obtain ⟨hok, htag, hclean⟩ := hlogs.recoverLatestWALTail
  obtain ⟨hone, hbelow⟩ := le_nextWALNum (recoverLatestWALTail d.logs) 1
  have hnew : newTendermintWALStore getHeight d = some (_, _) := if_neg (by simpa using hclean)
  refine ⟨_, _, hnew, ⟨⟨⟨hok, hbelow, ?_, fun n hn => (nomatch hn), fun _ => hclean⟩, ?_, ?_⟩, Same.refl _ _⟩,
    htag⟩
  · exact Nat.ne_of_gt hone
  · have hfold := (indexOf_empty getHeight d.watermark).foldl _ hok.tagged_ne_zero
    rw [nil_append, ← loadExistingEntries_eq] at hfold
    exact hfold
  · rw [htag]
    exact hholds

/-! ### The system -/

/-- The log, the store, and what was given to the store. -/
structure System (E : Type) where
  disk : Disk E
  store : Option (WALStore E)
  flushed : List (Record E)
  /-- The records since the last flush. -/
  pending : List (Record E)

inductive Op (E : Type) where
  | setWALEntry (entry : E)
  | deleteWALEntries (height : ℕ)
  | flush (faults : Faults)
  | close (faults : Faults)
  /-- A crash, which may leave a torn record. -/
  | crash (torn : Bool)
  /-- `NewTendermintWALStore`. -/
  | reopen

/-- A flush or a close leaves no batch in the log that it did not sync. -/
def Op.clean : Op E → Bool
  | .flush faults => !faults.leaves
  | .close faults => !faults.leaves
  | _ => true

/-- Faults that leave no batch in the log that was not synced. -/
abbrev CleanFaults := {f : Faults // f.leaves = false}

theorem CleanFaults.clean_flush (f : CleanFaults) : (Op.flush f.1 : Op E).clean = true := by
  simp [Op.clean, f.2]

theorem CleanFaults.clean_close (f : CleanFaults) : (Op.close f.1 : Op E).clean = true := by
  simp [Op.clean, f.2]

variable {ops : List (Op E)}

namespace System

/-- Nothing was written yet. -/
def init : System E := ⟨⟨[], 0⟩, none, [], []⟩

variable (s : System E)

/-- The disk after a crash in the middle of a write. -/
def tear : Disk E :=
  match s.store with
  | none => s.disk
  | some store =>
    if store.closed || store.wal.repairRequired then s.disk
    else match store.wal.currentWALNum with
      | some walNum => s.disk.modifyLog walNum fun log => { log with torn := true }
      | none => { s.disk with logs := s.disk.logs ++ [⟨store.wal.nextWALNum, [], true⟩] }

variable (getHeight) in
def reopen : System E :=
  match newTendermintWALStore getHeight s.disk with
  | none => { s with store := none, pending := [] }
  | some (store, disk) => { s with disk := disk, store := some store, pending := [] }

/-- The system after a flush: the pending records were flushed if there was no error or they were
committed. -/
def flushedAs (o : WALStore.Flushed) (store : WALStore E) (disk : Disk E) : System E :=
  if o.ok || o.committed then ⟨disk, some store, s.flushed ++ s.pending, []⟩
  else ⟨disk, some store, s.flushed, s.pending⟩

variable (getHeight) in
/-- One step. Without a store the calls do nothing, and a store is opened only if there is none or it is
closed. -/
def step : Op E → System E
  | .setWALEntry entry =>
    match s.store with
    | none => s
    | some store =>
      let (ok, store) := store.setWALEntry getHeight entry
      { s with store := some store, pending := if ok then s.pending ++ [.entry entry] else s.pending }
  | .deleteWALEntries height =>
    match s.store with
    | none => s
    | some store =>
      let (ok, store) := store.deleteWALEntries height
      { s with store := some store, pending := if ok then s.pending ++ [.prune height] else s.pending }
  | .flush faults =>
    match s.store with
    | none => s
    | some store =>
      let (o, store, disk) := store.flushLocked getHeight s.disk faults
      s.flushedAs o store disk
  | .close faults =>
    match s.store with
    | none => s
    | some store =>
      if store.closed then s
      else
        let (o, store, disk) := store.close getHeight s.disk faults
        s.flushedAs o store disk
  | .crash torn => { s with disk := if torn then s.tear else s.disk, store := none, pending := [] }
  | .reopen =>
    match s.store with
    | none => s.reopen getHeight
    | some store => if store.closed then s.reopen getHeight else s

variable (getHeight) in
def run (ops : List (Op E)) : System E := ops.foldl (step getHeight) s

variable (getHeight) in
structure Inv (s : System E) : Prop where
  logs : LogsOk s.disk.logs
  holds : Holds getHeight s.disk.watermark ((tagged s.disk.logs).map Prod.snd) s.flushed
  store : ∀ store, s.store = some store → StoreOk getHeight store s.disk s.flushed s.pending

variable (getHeight) in
/-- What one step does, and where the entries of the lists of records come from. -/
structure Step (op : Op E) (s s' : System E) : Prop where
  inv : Inv getHeight s'
  stay : Stay getHeight (maxPrune s'.flushed) s.disk s'.disk
  flushed : ∀ e ∈ entries s'.flushed, e ∈ entries s.flushed ∨ e ∈ entries s.pending
  pending : ∀ e ∈ entries s'.pending, e ∈ entries s.pending ∨ op = .setWALEntry e

variable (getHeight) in
theorem inv_init : Inv getHeight (init : System E) :=
  ⟨⟨Pairwise.nil, fun _ hlog => nomatch hlog⟩, ⟨rfl, rfl⟩, fun _ hstore => nomatch hstore⟩

variable {s : System E} {store : WALStore E} {disk : Disk E}

theorem Inv.of_store {pending : List (Record E)} (h : StoreOk getHeight store disk flushed pending) :
    Inv getHeight ⟨disk, some store, flushed, pending⟩ :=
  ⟨h.writer.toLogsOk, h.holds, fun _ hstore => Option.some.inj hstore ▸ h⟩

theorem Inv.tear (h : Inv getHeight s) :
    LogsOk s.tear.logs ∧ tagged s.tear.logs = tagged s.disk.logs ∧ s.tear.watermark = s.disk.watermark := by
  unfold System.tear
  cases hstore : s.store with
  | none => exact ⟨h.logs, rfl, rfl⟩
  | some store =>
    have hok := (h.store store hstore).writer
    simp only
    split_ifs with hquiet
    · exact ⟨h.logs, rfl, rfl⟩
    have hrepair : store.wal.repairRequired = false := by
      rw [Bool.or_eq_true, not_or] at hquiet
      simpa using hquiet.2
    cases hcur : store.wal.currentWALNum with
    | none =>
      exact ⟨h.logs.snoc hok.next hok.below (hok.clean hrepair), by simp, rfl⟩
    | some n =>
      obtain ⟨-, init, log, hlogs, rfl⟩ := hok.current n hcur
      obtain ⟨hmod, hok⟩ := h.logs.modifyLog hlogs (fun log => { log with torn := true }) rfl
      simp only [hmod]
      exact ⟨hok, by simp [hlogs], rfl⟩

variable {op : Op E}

theorem Inv.reopen (h : Inv getHeight s) : Step getHeight op s (s.reopen getHeight) := by
  obtain ⟨store, disk, hnew, hok, htag⟩ := newTendermintWALStore_ok h.logs h.holds
  unfold System.reopen
  simp only [hnew]
  exact ⟨.of_store hok, fun n e hmem _ => htag ▸ hmem, fun e he => .inl he, fun e he => nomatch he⟩

theorem Step.flushedAs (h : FlushOk getHeight s.disk s.flushed s.pending o store disk) :
    Step getHeight op s (s.flushedAs o store disk) := by
  unfold FlushOk at h
  unfold System.flushedAs
  split_ifs at h ⊢
  · refine ⟨.of_store h.1, h.2, fun e he => ?_, fun e he => nomatch he⟩
    rw [entries_append] at he
    exact mem_append.mp he
  · exact ⟨.of_store h.1, h.2, fun e he => .inl he, fun e he => .inl he⟩

theorem Inv.step (h : Inv getHeight s) (op : Op E) (hop : op.clean = true) :
    Step getHeight op s (s.step getHeight op) := by
  have hself : Step getHeight op s s := ⟨h, fun n e hmem _ => hmem, fun e he => .inl he, fun e he => .inl he⟩
  cases op with
  | setWALEntry entry =>
    unfold System.step
    cases hstore : s.store with
    | none => exact hself
    | some store =>
      refine ⟨.of_store ((h.store store hstore).setWALEntry entry), fun n e hmem _ => hmem, hself.flushed,
        fun e he => ?_⟩
      simp only at he
      split at he
      · rw [entries_append] at he
        rcases mem_append.mp he with he | he
        · exact .inl he
        · obtain rfl := mem_singleton.mp he
          exact .inr rfl
      · exact .inl he
  | deleteWALEntries height =>
    unfold System.step
    cases hstore : s.store with
    | none => exact hself
    | some store =>
      refine ⟨.of_store ((h.store store hstore).deleteWALEntries height), fun n e hmem _ => hmem,
        hself.flushed,
        fun e he => ?_⟩
      simp only at he
      split at he
      · rw [entries_append] at he
        exact .inl ((mem_append.mp he).resolve_right not_mem_nil)
      · exact .inl he
  | flush f =>
    unfold System.step
    cases hstore : s.store with
    | none => exact hself
    | some store =>
      exact .flushedAs ((h.store store hstore).flushLocked (by simpa [Op.clean] using hop) rfl).1
  | close f =>
    unfold System.step
    cases hstore : s.store with
    | none => exact hself
    | some store =>
      simp only
      split_ifs with hclosed
      · exact hself
      · exact .flushedAs
          ((h.store store hstore).close (by simpa using hclosed) (by simpa [Op.clean] using hop) rfl)
  | crash torn =>
    obtain ⟨hlogs, htag, hmark⟩ := h.tear
    cases torn with
    | false =>
      exact ⟨⟨h.logs, h.holds, fun store hstore => nomatch hstore⟩, fun n e hmem _ => hmem, hself.flushed,
        fun e he => nomatch he⟩
    | true =>
      refine ⟨⟨hlogs, ?_, fun store hstore => nomatch hstore⟩, fun n e hmem _ => ?_, hself.flushed,
        fun e he => nomatch he⟩
      · change Holds getHeight s.tear.watermark ((tagged s.tear.logs).map Prod.snd) s.flushed
        rw [htag, hmark]
        exact h.holds
      · change _ ∈ tagged s.tear.logs
        rw [htag]
        exact hmem
  | reopen =>
    unfold System.step
    cases hstore : s.store with
    | none => exact h.reopen
    | some store =>
      simp only
      split_ifs
      · exact h.reopen
      · exact hself

theorem Inv.run (h : Inv getHeight s) (hclean : ∀ op ∈ ops, op.clean = true) :
    Inv getHeight (s.run getHeight ops) := by
  induction ops generalizing s with
  | nil => exact h
  | cons op ops ih =>
    exact ih (h.step op (hclean op mem_cons_self)).inv fun op hop => hclean op (mem_cons_of_mem _ hop)

theorem Inv.run_entries (h : Inv getHeight s) {P : E → Prop}
    (hs : ∀ e, e ∈ entries s.flushed ∨ e ∈ entries s.pending → P e)
    (hclean : ∀ op ∈ ops, op.clean = true) (hops : ∀ e, Op.setWALEntry e ∈ ops → P e) :
    ∀ e, e ∈ entries (s.run getHeight ops).flushed ∨ e ∈ entries (s.run getHeight ops).pending → P e := by
  induction ops generalizing s with
  | nil => exact hs
  | cons op ops ih =>
    have hstep := h.step op (hclean op mem_cons_self)
    refine ih hstep.inv (fun e he => ?_) (fun op hop => hclean op (mem_cons_of_mem _ hop))
      fun e he => hops e (mem_cons_of_mem _ he)
    rcases he with he | he
    · exact hs e (hstep.flushed e he)
    · rcases hstep.pending e he with he | rfl
      · exact hs e (.inr he)
      · exact hops e mem_cons_self

end System

/-! ### What the store is for -/

variable (getHeight) in
def prunedBy (rs : List (Record E)) (e : E) : Bool :=
  rs.any fun r => match r with
    | .entry _ => false
    | .prune height => getHeight e ≤ height

variable (getHeight) in
def live (rs : List (Record E)) : List E := (entries rs).filter fun e => !prunedBy getHeight rs e

/-- For an entry of height at least 1, no prune is as good as a prune of height 0. -/
theorem prunedBy_eq_false {e : E} (he : 0 < getHeight e) :
    prunedBy getHeight rs e = false ↔ maxPrune rs < getHeight e := by
  induction rs with
  | nil => simpa [prunedBy] using he
  | cons r rs ih =>
    have hmax : maxPrune (r :: rs) = max r.pruneHeight (maxPrune rs) := rfl
    rw [hmax, max_lt_iff, ← ih, prunedBy, any_cons, Bool.or_eq_false_iff]
    refine and_congr ?_ Iff.rfl
    cases r with
    | entry e' => simpa [Record.pruneHeight] using he
    | prune height => simp [Record.pruneHeight]

theorem live_eq (h : ∀ e ∈ entries rs, 1 ≤ getHeight e) :
    live getHeight rs = above getHeight (maxPrune rs) (entries rs) := by
  refine filter_congr fun e he => ?_
  rw [Bool.eq_iff_iff, Bool.not_eq_true', prunedBy_eq_false (h e he), decide_eq_true_iff]

theorem flushLocked_pending (h : (s.flushLocked getHeight d f).1.committed = false) :
    (s.flushLocked getHeight d f).2.1.pendingRecords = s.pendingRecords := by
  unfold flushLocked at h ⊢
  split_ifs at h ⊢
  · rfl
  · rfl
  rcases happend : s.wal.appendSync d s.pendingRecords f with ⟨_ | n, wal, d₁⟩
  · rfl
  · rw [happend] at h
    cases h

/-- A flush that nothing keeps from writing writes. -/
theorem flushLocked_committed (d : Disk E) (hopen : s.closed = false) (hrepair : s.wal.repairRequired = false)
    (hencode : f.encode = false) (hcreate : f.create = false) (hsync : f.sync = false) :
    (s.flushLocked getHeight d f).1.committed = true := by
  unfold flushLocked
  rw [if_neg (by simp [hopen])]
  by_cases hempty : s.pendingRecords = []
  · rw [if_pos hempty]
  · rw [if_neg hempty, if_neg (by simp [hencode])]
    have happend : ∃ n w d', s.wal.appendSync d s.pendingRecords f = (some n, w, d') := by
      unfold WalWriter.appendSync WalWriter.ensureWriter
      rw [if_neg (by simp [hrepair])]
      cases s.wal.currentWALNum with
      | some n => simp [hsync]
      | none => simp [hsync, hcreate]
    obtain ⟨n, w, d', happend⟩ := happend
    rw [happend]

/-- **What the store keeps**: if every entry has a height of at least 1, and no flush or close leaves a batch
in the log that it did not sync, then after any calls, faults and crashes `LoadAllEntries` gives the flushed
entries above the highest flushed prune, by height and in order; no step takes a live entry from its file; a
flush that does not write the pending records keeps them, and one that nothing keeps from writing writes them;
and the store can be opened. -/
theorem runs_keep_entries (getHeight : E → ℕ) (ops : List (Op E))
    (hops : ∀ e, Op.setWALEntry e ∈ ops → 1 ≤ getHeight e) (hclean : ∀ op ∈ ops, op.clean = true) :
    (∀ store, (System.init.run getHeight ops).store = some store →
      Groups getHeight (live getHeight (System.init.run getHeight ops).flushed) store.index.loadAllEntries ∧
        ∀ f, ((store.flushLocked getHeight (System.init.run getHeight ops).disk f).1.committed = false →
            (store.flushLocked getHeight (System.init.run getHeight ops).disk f).2.1.pendingRecords =
              store.pendingRecords) ∧
          (store.closed = false → store.wal.repairRequired = false →
            f.encode = false → f.create = false → f.sync = false →
            (store.flushLocked getHeight (System.init.run getHeight ops).disk f).1.committed = true)) ∧
      (∀ op n e, op.clean = true → (n, Record.entry e) ∈ tagged (System.init.run getHeight ops).disk.logs →
        e ∈ live getHeight ((System.init.run getHeight ops).step getHeight op).flushed →
        (n, Record.entry e) ∈ tagged ((System.init.run getHeight ops).step getHeight op).disk.logs) ∧
      (newTendermintWALStore getHeight (System.init.run getHeight ops).disk).isSome := by
  have hinv := (System.inv_init getHeight).run hclean
  have hgiven :=
    (System.inv_init getHeight).run_entries (fun e he => by simp [System.init, entries] at he) hclean hops
  generalize System.init.run getHeight ops = s at hinv hgiven ⊢
  have hlive := live_eq fun e he => hgiven e (.inl he)
  refine ⟨fun store hstore => ⟨?_, fun f => ⟨flushLocked_pending, fun hopen hrepair => ?_⟩⟩,
    fun op n e hop hmem he => ?_, ?_⟩
  · have hok := hinv.store store hstore
    rw [hlive, ← hok.holds.live, ← hok.pruned]
    exact hok.index.loadAllEntries
  · exact flushLocked_committed _ hopen hrepair
  · have hstep := hinv.step op hop
    rw [live_eq fun e he => hgiven e (hstep.flushed e he)] at he
    exact hstep.stay n e hmem (of_decide_eq_true (mem_filter.mp he).2)
  · obtain ⟨store, disk, hnew, -⟩ := newTendermintWALStore_ok hinv.logs hinv.holds
    rw [hnew]
    rfl

def noFaults : Faults := ⟨false, false, false, false, false, .none, false, false, fun _ => true⟩

/-- A batch is written whole and not synced, and the file is repaired or not. -/
def syncFault (repair : Bool) : Faults := { noFaults with sync := true, written := true, repair := repair }

/-- The first flush fails and is made again, and a crash during the last one tears the log. -/
def crashRun : List (Op (ℕ × ℕ)) :=
  [.reopen, .setWALEntry (1, 7), .flush (syncFault false), .flush noFaults, .setWALEntry (2, 8),
    .deleteWALEntries 1,
    .flush noFaults, .setWALEntry (2, 9), .crash true, .reopen]

/-- The second entry is read back. -/
theorem runs_keep_entries_crash :
    ∃ store, (System.init.run Prod.fst crashRun).store = some store ∧
      Groups Prod.fst [(2, 8)] store.index.loadAllEntries :=
  ⟨_, rfl, ((runs_keep_entries Prod.fst crashRun (by simp [crashRun]) (by decide)).1 _ rfl).1⟩

/-- **An entry of height 0 is lost**: it is flushed and nothing was pruned, and `LoadAllEntries` does not have
it. **An entry that no flush has committed is there** after a flush whose batch was written, not synced and
not repaired. -/
theorem height_zero_lost_and_failed_flush_kept :
    (∃ store, (System.init.run Prod.fst [Op.reopen, .setWALEntry (0, 7), .flush noFaults]).store =
      some store ∧
      live Prod.fst (System.init.run Prod.fst [Op.reopen, .setWALEntry (0, 7), .flush noFaults]).flushed =
        [(0, 7)] ∧
      ¬ Groups Prod.fst [(0, 7)] store.index.loadAllEntries) ∧
    ∃ store, (System.init.run Prod.fst
        [Op.reopen, .setWALEntry (1, 7), .flush (syncFault true), .crash false, .reopen]).store = some store ∧
      (System.init.run Prod.fst
        [Op.reopen, .setWALEntry (1, 7), .flush (syncFault true), .crash false, .reopen]).flushed = [] ∧
      store.index.loadAllEntries = [(1, 7)] := by
  refine ⟨⟨_, rfl, rfl, fun h => ?_⟩, ⟨_, rfl, rfl, by decide +kernel⟩⟩
  have hnone : (Index.empty 0 : Index (ℕ × ℕ)).loadAllEntries = [] := by decide +kernel
  have hsame : atHeight Prod.fst (Index.empty 0 : Index (ℕ × ℕ)).loadAllEntries 0 = [(0, 7)] := h.same 0
  rw [hnone] at hsame
  exact absurd hsame (by decide)

end Juno.Walstore
