import Juno.Walstore.Store

/-!
# The index of the live entries

What the index says of a list of records: the entries above the highest prune, by height and in
order, the files each height has entries in, and how many heights a file has. It does not matter
in which batches the records came, nor whether they were just written or are read back, and the
order of entries and prunes matters only for the order of the entries.
-/

namespace Juno.Walstore

open Juno.Lib List AList Record

variable {E : Type} (getHeight : E → ℕ)

/-! ### Records -/

def Record.toEntry : Record E → Option E
  | .entry e => some e
  | .prune _ => none

def Record.pruneHeight : Record E → ℕ
  | .entry _ => 0
  | .prune height => height

def entries (rs : List (Record E)) : List E := rs.filterMap toEntry

/-- The highest prune of a list of records, 0 if there is none. -/
def maxPrune (rs : List (Record E)) : ℕ := (rs.map pruneHeight).foldr max 0

@[simp] theorem entries_append (rs rs' : List (Record E)) : entries (rs ++ rs') = entries rs ++ entries rs' :=
  filterMap_append

@[simp] theorem entries_entry (e : E) (rs : List (Record E)) : entries (.entry e :: rs) = e :: entries rs :=
  rfl

@[simp] theorem entries_prune (height : ℕ) (rs : List (Record E)) :
    entries (.prune height :: rs) = entries rs :=
  rfl

@[simp] theorem maxPrune_nil : maxPrune ([] : List (Record E)) = 0 := rfl

@[simp] theorem maxPrune_append (rs rs' : List (Record E)) :
    maxPrune (rs ++ rs') = max (maxPrune rs) (maxPrune rs') := by
  induction rs with
  | nil => simp
  | cons r rs ih =>
    simp only [maxPrune, cons_append, map_cons, foldr_cons] at ih ⊢
    rw [ih, max_assoc]

@[simp] theorem maxPrune_singleton (r : Record E) : maxPrune [r] = r.pruneHeight := by
  simp [maxPrune]

def atHeight (es : List E) (height : ℕ) : List E := es.filter fun e => getHeight e = height

theorem maxPrune_mono {rs rs' : List (Record E)} (h : rs.Sublist rs') : maxPrune rs ≤ maxPrune rs' := by
  induction h with
  | slnil => exact le_rfl
  | cons r _ ih => exact ih.trans (le_max_right r.pruneHeight _)
  | cons_cons r _ ih => exact max_le_max le_rfl ih

/-- The entries that pass a test, if only records without such an entry are dropped. -/
theorem filter_entries_filter {p : E → Bool} {recs : List (ℕ × Record E)} (keep : ℕ × Record E → Bool)
    (hkeep : ∀ n e, (n, entry e) ∈ recs → p e = true → keep (n, .entry e) = true) :
    (entries ((recs.filter keep).map Prod.snd)).filter p = (entries (recs.map Prod.snd)).filter p := by
  induction recs with
  | nil => rfl
  | cons r recs ih =>
    have ih := ih fun n e hmem => hkeep n e (mem_cons_of_mem _ hmem)
    obtain ⟨n, r⟩ := r
    cases r with
    | prune k =>
      rw [map_cons, entries_prune, ← ih]
      by_cases hk : keep (n, .prune k) = true
      · rw [filter_cons_of_pos hk, map_cons, entries_prune]
      · rw [filter_cons_of_neg hk]
    | entry e =>
      by_cases hk : keep (n, .entry e) = true
      · rw [filter_cons_of_pos hk, map_cons, map_cons, entries_entry, entries_entry,
          filter_cons, filter_cons, ih]
      · have hp : ¬ p e = true := fun hp => hk (hkeep n e mem_cons_self hp)
        rw [filter_cons_of_neg hk, ih, map_cons, entries_entry, filter_cons_of_neg hp]

/-- Of lists that each have the elements of one key, for different keys, those of a key are one of the
lists. -/
theorem filter_flatMap_of_nodup (group : ℕ → List E) (hgroup : ∀ k, ∀ e ∈ group k, getHeight e = k)
    {keys : List ℕ} (hkeys : keys.Nodup) (k : ℕ) :
    (keys.flatMap group).filter (fun e => getHeight e = k) = if k ∈ keys then group k else [] := by
  induction keys with
  | nil => rfl
  | cons j keys ih =>
    obtain ⟨hj, hkeys⟩ := nodup_cons.mp hkeys
    rw [flatMap_cons, filter_append, ih hkeys]
    by_cases hjk : k = j
    · subst hjk
      have hall : (group k).filter (fun e => getHeight e = k) = group k :=
        filter_eq_self.mpr fun e he => by simpa using hgroup k e he
      simp [hj, hall]
    · have hnone : (group j).filter (fun e => getHeight e = k) = [] :=
        filter_eq_nil_iff.mpr fun e he => by simpa [hgroup j e he] using Ne.symm hjk
      simp [hjk, hnone]

/-! ### Sets of log numbers -/

/-- A set of log numbers that is empty has nothing in `rest`. -/
def WalNumSet.Ok (s : WalNumSet) : Prop := (s.first = 0 → s.rest = []) ∧ s.toList.Nodup

theorem WalNumSet.ok_empty : WalNumSet.empty.Ok := ⟨fun _ => rfl, List.nodup_nil⟩

theorem WalNumSet.addIfMissing_spec {s : WalNumSet} (hs : s.Ok) {n : ℕ} (hn : n ≠ 0) :
    (s.addIfMissing n).1 = decide (n ∉ s.toList) ∧ (s.addIfMissing n).2.Ok ∧
      ∀ m, m ∈ (s.addIfMissing n).2.toList ↔ m ∈ s.toList ∨ m = n := by
  obtain ⟨first, rest⟩ := s
  obtain ⟨hrest, hnodup⟩ := hs
  by_cases hfirst : first = 0
  · subst hfirst
    obtain rfl : rest = [] := hrest rfl
    simp [addIfMissing, toList, Ok, hn]
  · rw [toList, if_neg hfirst] at hnodup
    by_cases hmem : first = n ∨ n ∈ rest
    · have hin : n ∈ first :: rest := mem_cons.mpr (hmem.imp_left Eq.symm)
      simp only [addIfMissing, toList, Ok, if_neg hfirst, if_pos hmem]
      refine ⟨by simp [hin], ⟨fun h => absurd h hfirst, hnodup⟩, fun m => ⟨.inl, ?_⟩⟩
      rintro (h | rfl)
      · exact h
      · exact hin
    · have hnotin : n ∉ first :: rest := fun h => hmem ((mem_cons.mp h).imp_left Eq.symm)
      simp only [addIfMissing, toList, Ok, if_neg hfirst, if_neg hmem]
      refine ⟨by simp [hnotin], ⟨fun h => absurd h hfirst, ?_⟩, fun m => ?_⟩
      · rw [← cons_append]
        exact nodup_append.mpr ⟨hnodup, nodup_singleton n, fun a ha b hb => by
          rw [mem_singleton] at hb
          rintro rfl
          exact hnotin (hb ▸ ha)⟩
      · rw [← cons_append, mem_append, mem_singleton]

/-! ### References -/

open WalNumSet

variable {s : Index E}

namespace Index

def files (s : Index E) (height : ℕ) : WalNumSet := (s.walFilesByHeight.lookup height).getD .empty

/-- The heights that have entries in a file. -/
def heights (s : Index E) (walNum : ℕ) : Finset ℕ :=
  s.walFilesByHeight.keys.toFinset.filter fun height => walNum ∈ (s.files height).toList

theorem mem_heights {walNum height : ℕ} : height ∈ s.heights walNum ↔ walNum ∈ (s.files height).toList := by
  rw [heights, Finset.mem_filter, mem_toFinset, and_iff_right_iff_imp]
  intro h
  by_contra hnot
  rw [← AList.mem_keys, ← AList.lookup_eq_none] at hnot
  simp [files, hnot, WalNumSet.empty, WalNumSet.toList] at h

def count (n : ℕ) : Option ℤ := if n = 0 then none else some n

/-- Every file has the number of its heights. -/
structure RefsOk (s : Index E) : Prop where
  files : ∀ height, (s.files height).Ok
  refs : ∀ n, s.walHeightRefs.lookup n = count (s.heights n).card

theorem dropRef_lookup (s : Index E) (n m : ℕ) :
    (s.dropRef n).walHeightRefs.lookup m =
      if m = n then (if (s.walHeightRefs.lookup n).getD 0 - 1 = 0 then none
        else some ((s.walHeightRefs.lookup n).getD 0 - 1)) else s.walHeightRefs.lookup m := by
  unfold dropRef
  simp only
  by_cases hm : m = n
  · subst hm
    rw [if_pos rfl]
    split <;> simp
  · rw [if_neg hm]
    split
    · rw [lookup_erase_ne hm]
    · rw [lookup_insert_ne hm]

theorem dropRefs_lookup {l : List ℕ} (hl : l.Nodup) (s : Index E) (m : ℕ) :
    (l.foldl dropRef s).walHeightRefs.lookup m =
      if m ∈ l then (if (s.walHeightRefs.lookup m).getD 0 - 1 = 0 then none
        else some ((s.walHeightRefs.lookup m).getD 0 - 1)) else s.walHeightRefs.lookup m := by
  induction l generalizing s with
  | nil => simp
  | cons n l ih =>
    obtain ⟨hn, hl⟩ := nodup_cons.mp hl
    rw [foldl_cons, ih hl, dropRef_lookup]
    by_cases hm : m = n
    · subst hm
      simp [hn]
    · simp [hm]

theorem dropRefs_frame (l : List ℕ) (s : Index E) :
    (l.foldl dropRef s).entriesByHeight = s.entriesByHeight ∧
      (l.foldl dropRef s).walFilesByHeight = s.walFilesByHeight ∧
      (l.foldl dropRef s).prunedUpToHeight = s.prunedUpToHeight := by
  induction l generalizing s with
  | nil => exact ⟨rfl, rfl, rfl⟩
  | cons n l ih =>
    obtain ⟨h1, h2, h3⟩ := ih (s.dropRef n)
    exact ⟨h1, h2, h3⟩

/-! ### Deleting heights -/

theorem deleteLiveHeight_frame (s : Index E) (height : ℕ) :
    (s.deleteLiveHeight height).entriesByHeight = s.entriesByHeight.erase height ∧
      (s.deleteLiveHeight height).walFilesByHeight = s.walFilesByHeight.erase height ∧
      (s.deleteLiveHeight height).prunedUpToHeight = s.prunedUpToHeight :=
  dropRefs_frame _ _

theorem deleteLiveHeight_files (s : Index E) (height h : ℕ) :
    (s.deleteLiveHeight height).files h = if h = height then .empty else s.files h := by
  unfold files
  rw [(s.deleteLiveHeight_frame height).2.1]
  by_cases hh : h = height
  · subst hh
    simp
  · rw [if_neg hh, lookup_erase_ne hh]

theorem RefsOk.deleteLiveHeight (h : s.RefsOk) (height : ℕ) :
    (s.deleteLiveHeight height).RefsOk where
  files k := by
    rw [deleteLiveHeight_files]
    split
    · exact ok_empty
    · exact h.files k
  refs n := by
    have hheights : (s.deleteLiveHeight height).heights n = (s.heights n).erase height := by
      ext k
      rw [Finset.mem_erase, mem_heights, mem_heights, deleteLiveHeight_files]
      by_cases hk : k = height
      · simp [hk, WalNumSet.empty, WalNumSet.toList]
      · simp [hk]
    have hlookup : (s.deleteLiveHeight height).walHeightRefs.lookup n = _ :=
      dropRefs_lookup (h.files height).2 _ n
    rw [hlookup, hheights]
    by_cases hn : n ∈ (s.files height).toList
    · have hmem : height ∈ s.heights n := mem_heights.mpr hn
      have hpos : (s.heights n).card ≠ 0 := Finset.card_ne_zero_of_mem hmem
      rw [if_pos hn, h.refs, Finset.card_erase_of_mem hmem]
      simp only [count, if_neg hpos, Option.getD_some]
      obtain ⟨c, hc⟩ := Nat.exists_eq_succ_of_ne_zero hpos
      rw [hc]
      simp
    · have hmem : height ∉ s.heights n := fun hm => hn (mem_heights.mp hm)
      rw [if_neg hn, h.refs, Finset.erase_eq_of_notMem hmem]

structure Deleted (l : List ℕ) (s s' : Index E) : Prop where
  entries : ∀ h, s'.entriesByHeight.lookup h = if h ∈ l then none else s.entriesByHeight.lookup h
  files : ∀ h, s'.files h = if h ∈ l then .empty else s.files h
  pruned : s'.prunedUpToHeight = s.prunedUpToHeight
  refs : s'.RefsOk

theorem deleted_foldl (h : s.RefsOk) (l : List ℕ) : Deleted l s (l.foldl deleteLiveHeight s) := by
  induction l generalizing s with
  | nil => exact ⟨by simp, by simp, rfl, h⟩
  | cons k l ih =>
    have hd := ih (h.deleteLiveHeight k)
    obtain ⟨hentries, -, hpruned⟩ := s.deleteLiveHeight_frame k
    refine ⟨fun j => ?_, fun j => ?_, hd.pruned.trans hpruned, hd.refs⟩
    · rw [foldl_cons, hd.entries, hentries]
      by_cases hj : j = k
      · subst hj
        simp
      · simp [hj, lookup_erase_ne hj]
    · rw [foldl_cons, hd.files, deleteLiveHeight_files]
      by_cases hj : j = k <;> simp [hj]

end Index

/-! ### The index of a list of records -/

/-- A list of entries as it is kept in the map. -/
def kept (es : List E) : Option (List E) := if es = [] then none else some es

@[simp] theorem kept_getD (es : List E) : (kept es).getD [] = es := by
  unfold kept
  split
  · next h => exact h.symm
  · rfl

/-- The index of the records of a disk with a watermark, each with the number of its log. -/
structure IndexOf (watermark : ℕ) (recs : List (ℕ × Record E)) (s : Index E) : Prop where
  pruned : s.prunedUpToHeight = max watermark (maxPrune (recs.map Prod.snd))
  live : ∀ h, s.entriesByHeight.lookup h =
    if s.prunedUpToHeight < h then kept (atHeight getHeight (entries (recs.map Prod.snd)) h) else none
  files : ∀ h n, n ∈ (s.files h).toList ↔ s.prunedUpToHeight < h ∧ ∃ e, (n, entry e) ∈ recs ∧ getHeight e = h
  refs : s.RefsOk

theorem indexOf_empty (watermark : ℕ) : IndexOf getHeight watermark [] (.empty watermark : Index E) where
  pruned := by simp [Index.empty]
  live h := by simp [Index.empty, atHeight, entries, kept]
  files h n := by simp [Index.empty, Index.files, empty, toList]
  refs := by
    refine ⟨fun _ => ok_empty, fun n => ?_⟩
    have hnone : (Index.empty watermark : Index E).heights n = ∅ :=
      Finset.eq_empty_of_forall_notMem fun k hk => not_mem_nil (Index.mem_heights.mp hk)
    rw [hnone]
    rfl

/-- The entries of the heights from `c` on and below `n`, height by height. -/
def group (c n : ℕ) (es : List E) : List E := ((List.range n).filter (c ≤ ·)).flatMap (atHeight getHeight es)

theorem group_succ {c n : ℕ} (h : c ≤ n) (es : List E) :
    group getHeight c (n + 1) es = group getHeight c n es ++ atHeight getHeight es n := by
  unfold group
  rw [range_succ, filter_append, flatMap_append]
  simp [h]

theorem group_self (c : ℕ) (es : List E) : group getHeight c c es = [] := by
  unfold group
  rw [filter_eq_nil_iff.mpr]
  · rfl
  · intro k hk
    simpa using mem_range.mp hk

variable {es : List E}

theorem group_congr {c n : ℕ} {es' : List E}
    (h : ∀ k, c ≤ k → k < n → atHeight getHeight es k = atHeight getHeight es' k) :
    group getHeight c n es = group getHeight c n es' := by
  refine flatMap_congr fun k hk => ?_
  obtain ⟨hlt, hle⟩ := mem_filter.mp hk
  exact h k (by simpa using hle) (mem_range.mp hlt)

section

variable (h : es.Pairwise fun a b => getHeight a ≤ getHeight b)
include h

/-- Of entries in the order of their heights, those below a height come first. -/
theorem filter_append_of_sorted (n : ℕ) :
    es = es.filter (fun e => getHeight e < n) ++ es.filter (fun e => n ≤ getHeight e) := by
  induction es with
  | nil => rfl
  | cons e es ih =>
    obtain ⟨hle, hes⟩ := pairwise_cons.mp h
    simp only [filter_cons, decide_eq_true_eq]
    by_cases hlt : getHeight e < n
    · rw [if_pos hlt, if_neg (not_le.mpr hlt), cons_append, ← ih hes]
    · have hnone : es.filter (fun e => getHeight e < n) = [] := by
        refine filter_eq_nil_iff.mpr fun e' he' hc => ?_
        have := hle e' he'
        have := of_decide_eq_true hc
        omega
      have hih := ih hes
      rw [hnone, nil_append] at hih
      rw [if_neg hlt, if_pos (not_lt.mp hlt), hnone, nil_append, ← hih]

theorem filter_lt_succ_of_sorted (n : ℕ) :
    es.filter (fun e => getHeight e < n + 1) = es.filter (fun e => getHeight e < n) ++
      atHeight getHeight es n := by
  rw [filter_append_of_sorted getHeight (h.filter _) n, filter_filter, filter_filter, atHeight]
  congr 1 <;> refine filter_congr fun e _ => ?_
  all_goals
    rw [← Bool.decide_and, decide_eq_decide]
    omega

theorem filter_eq_group {c n : ℕ} (hcn : c ≤ n) :
    es.filter (fun e => c ≤ getHeight e ∧ getHeight e < n) = group getHeight c n es := by
  induction n with
  | zero =>
    obtain rfl : c = 0 := by omega
    rw [group_self]
    simp
  | succ n ih =>
    have hsorted := h.filter fun e => decide (c ≤ getHeight e)
    have hsplit := filter_lt_succ_of_sorted getHeight hsorted n
    have hand : ∀ m, (es.filter fun e => decide (c ≤ getHeight e)).filter (fun e => getHeight e < m) =
        es.filter (fun e => c ≤ getHeight e ∧ getHeight e < m) := by
      intro m
      rw [filter_filter]
      refine filter_congr fun e _ => ?_
      rw [Bool.decide_and, Bool.and_comm]
    rw [hand, hand] at hsplit
    rw [hsplit]
    by_cases hle : c ≤ n
    · rw [ih hle, group_succ getHeight hle, atHeight, atHeight, filter_filter]
      congr 1
      refine filter_congr fun e _ => ?_
      by_cases he : getHeight e = n
      · simp [he, hle]
      · simp [he]
    · obtain rfl : c = n + 1 := by omega
      rw [group_self]
      simp only [atHeight, filter_filter, append_eq_nil_iff, filter_eq_nil_iff, Bool.and_eq_true,
        decide_eq_true_eq]
      exact ⟨fun e _ => by omega, fun e _ => by omega⟩

end

/-- What `LoadAllEntries` gives: the entries by height, in their order. -/
structure Groups (es grouped : List E) : Prop where
  sorted : grouped.Pairwise fun a b => getHeight a ≤ getHeight b
  same : ∀ h, atHeight getHeight grouped h = atHeight getHeight es h

def above (height : ℕ) (es : List E) : List E := es.filter fun e => height < getHeight e

section

variable {getHeight} {watermark n : ℕ} {recs : List (ℕ × Record E)} {s : Index E}

theorem IndexOf.skip (h : IndexOf getHeight watermark recs s) {r : Record E}
    (hprune : r.pruneHeight ≤ s.prunedUpToHeight)
    (hentry : ∀ e, r = .entry e → getHeight e ≤ s.prunedUpToHeight) :
    IndexOf getHeight watermark (recs ++ [(n, r)]) s where
  pruned := by
    have hp := h.pruned
    rw [map_append, maxPrune_append, ← max_assoc, ← hp]
    exact (max_eq_left (by simpa using hprune)).symm
  live k := by
    rw [h.live]
    by_cases hk : s.prunedUpToHeight < k
    · rw [if_pos hk, if_pos hk]
      congr 1
      cases r with
      | entry e =>
        have hne : getHeight e ≠ k := by have := hentry e rfl; omega
        simp [entries, atHeight, toEntry, hne]
      | prune height => simp [entries, atHeight, toEntry]
    · rw [if_neg hk, if_neg hk]
  files k m := by
    rw [h.files]
    refine and_congr_right fun hk => exists_congr fun e => ?_
    rw [mem_append, mem_singleton, Prod.mk.injEq]
    constructor
    · rintro ⟨hmem, he⟩
      exact ⟨.inl hmem, he⟩
    · rintro ⟨hmem | ⟨-, hr⟩, he⟩
      · exact ⟨hmem, he⟩
      · have := hentry e hr.symm
        omega
  refs := h.refs

structure Index.Added (n height : ℕ) (e : E) (s s' : Index E) : Prop where
  entries :
    s'.entriesByHeight = s.entriesByHeight.insert height ((s.entriesByHeight.lookup height).getD [] ++ [e])
  pruned : s'.prunedUpToHeight = s.prunedUpToHeight
  ok : ∀ k, (s'.files k).Ok
  files : ∀ k m, m ∈ (s'.files k).toList ↔ m ∈ (s.files k).toList ∨ (m = n ∧ k = height)
  /-- The file has one more height if it was not one of the height. -/
  refs : ∀ m, s'.walHeightRefs.lookup m =
    if m = n ∧ n ∉ (s.files height).toList then some ((s.walHeightRefs.lookup m).getD 0 + 1)
    else s.walHeightRefs.lookup m

theorem Index.addLiveEntry_added (h : s.RefsOk) (hn : n ≠ 0) (e : E) :
    Index.Added n (getHeight e) e s (s.addLiveEntry getHeight n e) := by
  obtain ⟨hadded, hok, hmem⟩ := addIfMissing_spec (h.files (getHeight e)) hn
  unfold Index.addLiveEntry
  by_cases hnew : n ∈ (s.files (getHeight e)).toList
  · have hfalse : (((s.walFilesByHeight.lookup (getHeight e)).getD .empty).addIfMissing n).1 = false :=
      hadded.trans (by simp [hnew])
    simp only [hfalse, Bool.false_eq_true, if_false]
    refine ⟨rfl, rfl, h.files, fun k m => ?_, fun m => by simp [hnew]⟩
    change m ∈ (s.files k).toList ↔ _
    constructor
    · exact .inl
    · rintro (hm | ⟨rfl, rfl⟩)
      · exact hm
      · exact hnew
  · have htrue : (((s.walFilesByHeight.lookup (getHeight e)).getD .empty).addIfMissing n).1 = true :=
      hadded.trans (by simp [hnew])
    have hfiles : ∀ k,
        ((s.walFilesByHeight.insert (getHeight e) ((s.files (getHeight e)).addIfMissing n).2).lookup k).getD
          .empty =
          if k = getHeight e then ((s.files (getHeight e)).addIfMissing n).2 else s.files k := by
      intro k
      by_cases hk : k = getHeight e
      · subst hk
        simp
      · rw [lookup_insert_ne hk, if_neg hk]
        rfl
    simp only [htrue, if_true, Index.addRef]
    refine ⟨rfl, rfl, fun k => ?_, fun k m => ?_, fun m => ?_⟩
    · have hk := hfiles k
      refine (congrArg Ok hk).mpr ?_
      split
      · exact hok
      · exact h.files k
    · refine (congrArg (m ∈ toList ·) (hfiles k)).to_iff.trans ?_
      by_cases hk : k = getHeight e
      · subst hk
        simp [hmem]
      · simp [hk]
    · by_cases hm : m = n
      · subst hm
        simp [hnew]
      · simp [hm, lookup_insert_ne hm]

section

variable (h : IndexOf getHeight watermark recs s)
include h

theorem IndexOf.addLiveEntry (hn : n ≠ 0) {e : E} (he : s.prunedUpToHeight < getHeight e) :
    IndexOf getHeight watermark (recs ++ [(n, .entry e)]) (s.addLiveEntry getHeight n e) := by
  obtain ⟨hentries, hpruned, hfiles, hheights, hrefs⟩ := Index.addLiveEntry_added h.refs hn e
  generalize s.addLiveEntry getHeight n e = s' at hentries hpruned hfiles hheights hrefs ⊢
  refine ⟨?_, fun k => ?_, fun k m => ?_, hfiles, fun m => ?_⟩
  · rw [hpruned, h.pruned]
    simp [pruneHeight]
  · rw [hentries, hpruned]
    by_cases hk : k = getHeight e
    · subst hk
      rw [lookup_insert, h.live, if_pos he, if_pos he, kept_getD]
      simp [entries, atHeight, toEntry, kept]
    · rw [lookup_insert_ne hk, h.live]
      simp [entries, atHeight, toEntry, Ne.symm hk]
  · rw [hheights, h.files, hpruned]
    constructor
    · rintro (⟨hk, e', hmem', he'⟩ | ⟨rfl, rfl⟩)
      · exact ⟨hk, e', mem_append_left _ hmem', he'⟩
      · exact ⟨he, e, mem_append_right _ (mem_singleton.mpr rfl), rfl⟩
    · rintro ⟨hk, e', hmem', he'⟩
      rcases mem_append.mp hmem' with hmem' | hmem'
      · exact .inl ⟨hk, e', hmem', he'⟩
      · obtain ⟨rfl, hee⟩ := Prod.mk.inj (mem_singleton.mp hmem')
        obtain rfl := entry.inj hee
        exact .inr ⟨rfl, he'.symm⟩
  · rw [hrefs, h.refs.refs]
    have hheights' : s'.heights m = if m = n then insert (getHeight e) (s.heights m) else s.heights m := by
      ext k
      rw [Index.mem_heights, hheights]
      split_ifs with hm <;> simp [Index.mem_heights, hm, or_comm]
    rw [hheights']
    by_cases hm : m = n
    · subst hm
      rw [if_pos rfl]
      by_cases hnew : getHeight e ∈ s.heights m
      · rw [if_neg fun hc => hc.2 (Index.mem_heights.mp hnew), Finset.insert_eq_of_mem hnew]
      · rw [if_pos ⟨rfl, fun hc => hnew (Index.mem_heights.mpr hc)⟩, Finset.card_insert_of_notMem hnew]
        unfold Index.count
        by_cases hzero : (s.heights m).card = 0 <;> simp [hzero]
    · rw [if_neg hm, if_neg fun hc => hm hc.1]

theorem IndexOf.pruneLiveEntriesUpTo (n height : ℕ) :
    IndexOf getHeight watermark (recs ++ [(n, .prune height)]) (s.pruneLiveEntriesUpTo height) := by
  unfold Index.pruneLiveEntriesUpTo
  by_cases hle : height ≤ s.prunedUpToHeight
  · rw [if_pos hle]
    exact h.skip hle (fun e he => nomatch he)
  rw [if_neg hle]
  push Not at hle
  have hrefs : ({ s with prunedUpToHeight := height } : Index E).RefsOk := ⟨h.refs.files, h.refs.refs⟩
  have hd := Index.deleted_foldl hrefs (s.entriesByHeight.keys.filter (· ≤ height))
  simp only [foldl_filter, decide_eq_true_eq] at hd
  have hnone : ∀ k, k ∉ s.entriesByHeight.keys → s.entriesByHeight.lookup k = none := fun k hk =>
    lookup_eq_none.mpr fun hmem => hk (mem_keys.mpr hmem)
  have hempty : ∀ k m, k ∉ s.entriesByHeight.keys → m ∉ (s.files k).toList := by
    intro k m hk hm
    obtain ⟨hlt, e, hmem, he⟩ := (h.files k m).mp hm
    have hlookup := h.live k
    rw [hnone k hk, if_pos hlt, kept] at hlookup
    split at hlookup
    · next hnil =>
      have hin : e ∈ atHeight getHeight (entries (recs.map Prod.snd)) k :=
        mem_filter.mpr ⟨mem_filterMap.mpr ⟨.entry e, mem_map.mpr ⟨_, hmem, rfl⟩, rfl⟩, by simpa using he⟩
      rw [hnil] at hin
      exact not_mem_nil hin
    · exact nomatch hlookup
  have hgone : ∀ {k}, k ∈ s.entriesByHeight.keys.filter (· ≤ height) → k ≤ height := fun hc => by
    simpa using (mem_filter.mp hc).2
  have hkept : ∀ {k}, ¬ height < k → k ∉ s.entriesByHeight.keys.filter (· ≤ height) →
      k ∉ s.entriesByHeight.keys :=
    fun hk hc hmem => hc (mem_filter.mpr ⟨hmem, by simpa using hk⟩)
  have hmap : (recs ++ [(n, prune height)]).map Prod.snd = recs.map Prod.snd ++ [.prune height] := by simp
  have hentries : entries (recs.map Prod.snd ++ [prune height]) = entries (recs.map Prod.snd) := by
    simp [entries, toEntry]
  refine ⟨?_, fun k => ?_, fun k m => ?_, hd.refs⟩
  · rw [hd.pruned, hmap, maxPrune_append, maxPrune_singleton, ← max_assoc, ← h.pruned]
    exact (max_eq_right hle.le).symm
  · rw [hd.entries, hd.pruned, hmap, hentries]
    change (if _ then none else s.entriesByHeight.lookup k) = if height < k then _ else _
    by_cases hk : height < k
    · rw [if_neg fun hc => (hgone hc).not_gt hk, if_pos hk, h.live, if_pos (by omega)]
    · rw [if_neg hk]
      split
      · rfl
      · next hc => exact hnone k (hkept hk hc)
  · rw [hd.files, hd.pruned]
    change (m ∈ (if _ then empty else s.files k).toList) ↔ height < k ∧ _
    by_cases hk : height < k
    · rw [if_neg fun hc => (hgone hc).not_gt hk, h.files]
      simp only [mem_append, mem_singleton, Prod.mk.injEq, reduceCtorEq, and_false, or_false]
      exact ⟨fun hm => ⟨hk, hm.2⟩, fun hm => ⟨by omega, hm.2⟩⟩
    · refine iff_of_false ?_ fun hc => hk hc.1
      split
      · exact not_mem_nil
      · next hc => exact hempty k m (hkept hk hc)

theorem IndexOf.applyRecord (hn : n ≠ 0) (r : Record E) :
    IndexOf getHeight watermark (recs ++ [(n, r)]) (s.applyRecord getHeight n r) := by
  cases r with
  | entry e =>
    unfold Index.applyRecord
    by_cases he : getHeight e ≤ s.prunedUpToHeight
    · simp only [if_pos he]
      refine h.skip (Nat.zero_le _) fun e' he' => ?_
      obtain rfl := entry.inj he'
      exact he
    · simp only [if_neg he]
      exact h.addLiveEntry hn (not_le.mp he)
  | prune height => exact h.pruneLiveEntriesUpTo n height

theorem IndexOf.foldl (more : List (ℕ × Record E)) (hmore : ∀ r ∈ more, r.1 ≠ 0) :
    IndexOf getHeight watermark (recs ++ more)
      (more.foldl (fun s r => s.applyRecord getHeight r.1 r.2) s) := by
  induction more generalizing recs s with
  | nil => simpa using h
  | cons r more ih =>
    have hstep :=
      ih (h.applyRecord (hmore r mem_cons_self) r.2) fun r' hr' => hmore r' (mem_cons_of_mem _ hr')
    simpa using hstep

theorem IndexOf.mem_refs {e : E} (hmem : (n, .entry e) ∈ recs)
    (he : s.prunedUpToHeight < getHeight e) : n ∈ s.walHeightRefs.keys := by
  have hheight : getHeight e ∈ s.heights n := Index.mem_heights.mpr ((h.files _ _).mpr ⟨he, e, hmem, rfl⟩)
  by_contra hnot
  have hnone := lookup_eq_none.mpr fun hin => hnot (mem_keys.mpr hin)
  rw [h.refs.refs, Index.count, if_neg (Finset.card_ne_zero_of_mem hheight)] at hnone
  exact nomatch hnone

/-- Records that are not live can be dropped once the watermark is at the highest prune. -/
theorem IndexOf.filter (keep : ℕ × Record E → Bool)
    (hkeep : ∀ n e, (n, entry e) ∈ recs → s.prunedUpToHeight < getHeight e → keep (n, .entry e) = true) :
    IndexOf getHeight s.prunedUpToHeight (recs.filter keep) s where
  pruned := by
    have hle : maxPrune ((recs.filter keep).map Prod.snd) ≤ maxPrune (recs.map Prod.snd) :=
      maxPrune_mono (filter_sublist.map _)
    have := h.pruned
    omega
  live k := by
    rw [h.live]
    by_cases hk : s.prunedUpToHeight < k
    · rw [if_pos hk, if_pos hk, atHeight, atHeight, filter_entries_filter keep]
      intro n e hmem he
      exact hkeep n e hmem (hk.trans_eq (of_decide_eq_true he).symm)
    · rw [if_neg hk, if_neg hk]
  files k m := by
    rw [h.files]
    refine and_congr_right fun hk => exists_congr fun e => and_congr_left fun he => ?_
    rw [mem_filter]
    exact ⟨fun hmem => ⟨hmem, hkeep m e hmem (he ▸ hk)⟩, fun hmem => hmem.1⟩
  refs := h.refs

theorem IndexOf.loadAllEntries :
    Groups getHeight (above getHeight s.prunedUpToHeight (entries (recs.map Prod.snd))) s.loadAllEntries := by
  have hheight : ∀ k, ∀ e ∈ (s.entriesByHeight.lookup k).getD [], getHeight e = k := by
    intro k e he
    rw [h.live] at he
    split at he
    · rw [kept_getD] at he
      simpa using (mem_filter.mp he).2
    · exact nomatch he
  have hsorted := pairwise_insertionSort (· ≤ ·) s.entriesByHeight.keys
  refine ⟨?_, fun k => ?_⟩
  · refine pairwise_flatMap.mpr ⟨fun k hk => ?_, ?_⟩
    · refine pairwise_of_forall_mem_list ?_
      intro a ha b hb
      exact (hheight k a ha).trans_le (hheight k b hb).ge
    · refine hsorted.imp ?_
      intro a b hab x hx y hy
      rw [hheight a x hx, hheight b y hy]
      simpa using hab
  · have hperm := perm_insertionSort (· ≤ ·) s.entriesByHeight.keys
    have hnodup := hperm.nodup_iff.mpr s.entriesByHeight.keys_nodup
    have hone :=
      filter_flatMap_of_nodup getHeight (fun k => (s.entriesByHeight.lookup k).getD []) hheight hnodup k
    simp only [hperm.mem_iff] at hone
    rw [atHeight, Index.loadAllEntries, hone]
    have hright : atHeight getHeight (above getHeight s.prunedUpToHeight (entries (recs.map Prod.snd))) k =
        if s.prunedUpToHeight < k then atHeight getHeight (entries (recs.map Prod.snd)) k else [] := by
      rw [atHeight, above, filter_filter]
      split_ifs with hk
      · refine filter_congr fun e _ => ?_
        by_cases he : getHeight e = k <;> simp [he, hk]
      · refine filter_eq_nil_iff.mpr fun e _ => ?_
        by_cases he : getHeight e = k <;> simp [he, hk]
    rw [hright]
    by_cases hmem : k ∈ s.entriesByHeight.keys
    · rw [if_pos hmem, h.live]
      split <;> simp
    · have hnone := lookup_eq_none.mpr fun hin => hmem (mem_keys.mpr hin)
      rw [if_neg hmem]
      rw [h.live] at hnone
      split at hnone
      · next hlt =>
        have := congrArg (Option.getD · []) hnone
        simpa [hlt] using this.symm
      · next hlt => rw [if_neg hlt]

end

end

end Juno.Walstore
