import Juno.EventFilter.Iterator
import Mathlib

/-!
# Filters and the blocks they carry

A filter carries a block if the block is in its window and the bits of its bloom filter are set.
The running filter carries the blocks of the chain in the current window, and the windows before
are stored with theirs.
-/

namespace Juno.EventFilter

open Lib Function AggregatedBloomFilter UInt64

variable {filter f' : AggregatedBloomFilter} {height : ℕ} {α : Type} {l : List α} {w' w : World}

/-! ### Block numbers -/

variable {f : AggregatedBloomFilter}

/-- A block number at which a window begins. -/
def WindowStart (n : UInt64) : Prop := n.toNat % numBlocksPerFilter = 0

theorem toNat_toBlock (h : WindowStart f.fromBlock) : f.toBlock.toNat = f.fromBlock.toNat + 8191 := by
  have hlt := f.fromBlock.toNat_lt
  have hoffset : maxBlockOffsetPerFilter.toNat = 8191 := rfl
  rw [WindowStart, numBlocksPerFilter] at h
  rw [f.range, UInt64.toNat_add, hoffset]
  omega

theorem toNat_align (n : UInt64) :
    (n - n % UInt64.ofNat numBlocksPerFilter).toNat = n.toNat - n.toNat % numBlocksPerFilter := by
  have hmod : (n % UInt64.ofNat numBlocksPerFilter).toNat = n.toNat % numBlocksPerFilter :=
    UInt64.toNat_mod _ _
  have hle : n % ofNat numBlocksPerFilter ≤ n := by
    rw [le_iff_toNat_le, hmod]
    exact Nat.mod_le _ _
  rw [UInt64.toNat_sub_of_le _ _ hle, hmod]

theorem windowStart_align (n : UInt64) : WindowStart (n - n % ofNat numBlocksPerFilter) := by
  rw [WindowStart, toNat_align, numBlocksPerFilter]
  omega

theorem key_eq_rangeKey {it : Iterator} : it.key = f.rangeKey ↔ f.fromBlock = it.currentWindowStart := by
  rw [Iterator.key, FilterView.rangeKey, f.range, Prod.mk.injEq]
  refine ⟨fun h => h.1.symm, fun h => ⟨h.symm, ?_⟩⟩
  rw [h, sub_eq_add_neg, add_assoc]
  rfl

theorem rangeKey_inj {g : AggregatedBloomFilter} : f.rangeKey = g.rangeKey ↔ f.fromBlock = g.fromBlock := by
  rw [FilterView.rangeKey, FilterView.rangeKey, f.range, g.range, Prod.mk.injEq]
  exact ⟨And.left, fun h => ⟨h, by rw [h]⟩⟩

section

variable (locations : Bytes → ℕ → List ℕ)

/-! ### Filters that carry blocks -/

structure Carries (f : AggregatedBloomFilter) (n : ℕ) (receipts : List (List Event)) : Prop where
  lower : f.fromBlock.toNat ≤ n
  upper : n < f.fromBlock.toNat + numBlocksPerFilter
  /-- The bits of its bloom filter are set in its column. -/
  bits : ∀ j, (eventsBloom locations receipts).b.test j = true → f.bitmap.bit j (n - f.fromBlock.toNat) = true

variable {locations} {receipts : List (List Event)} {n : ℕ} {m : UInt64}

theorem Carries.insert (h : Carries locations f n receipts) {filter : Option BloomFilter}
    (hok : f.insert filter m = .ok f') : Carries locations f' n receipts := by
  obtain ⟨-, hfrom, hbits⟩ := insert_spec hok
  refine ⟨hfrom ▸ h.lower, hfrom ▸ h.upper, fun j hj => ?_⟩
  rw [hfrom, hbits, h.bits j hj, Bool.or_true]

theorem Carries.of_insert (hok : f.insert (some (eventsBloom locations receipts)) m = .ok f') :
    Carries locations f' m.toNat receipts := by
  obtain ⟨hcovers, hfrom, hbits⟩ := insert_spec hok
  obtain ⟨hsum, hlt⟩ := hcovers.column_add
  have hcolumn : m.toNat - f.fromBlock.toNat = f.column m := by omega
  refine ⟨by rw [hfrom]; omega, by rw [hfrom]; omega, fun j hj => ?_⟩
  rw [hfrom, hbits, Option.any_some, hj, hcolumn, decide_eq_true rfl, Bool.and_self, Bool.true_or]

theorem Carries.clear (h : Carries locations f n receipts) (hok : f.clear m = .ok f')
    (hne : n ≠ m.toNat) : Carries locations f' n receipts := by
  obtain ⟨hcovers, hfrom, hbits⟩ := clear_spec hok
  obtain ⟨hsum, -⟩ := hcovers.column_add
  have hlower := h.lower
  have hcolumn : ¬ n - f.fromBlock.toNat = f.column m := by omega
  refine ⟨hfrom ▸ h.lower, hfrom ▸ h.upper, fun j hj => ?_⟩
  rw [hfrom, hbits, h.bits j hj, decide_eq_false hcolumn]
  rfl

theorem Carries.hasKey (h : Carries locations f n receipts) {events : List Event}
    (hevents : events ∈ receipts) {event : Event} (hevent : event ∈ events) {key : Bytes}
    (hkey : key ∈ eventKeys event) : EventMatcher.HasKey locations f (n - f.fromBlock.toNat) key :=
  fun _ hindex => h.bits _ (testBits_eventsBloom locations hevents hevent hkey hindex)

variable (locations) in
def CarriesAll (f : AggregatedBloomFilter) (chain : List (List (List Event))) : Prop :=
  ∀ n receipts, chain[n]? = some receipts → f.fromBlock.toNat ≤ n →
    n < f.fromBlock.toNat + numBlocksPerFilter →
    Carries locations f n receipts

theorem getElem?_dropLast_of_some {a : α} (h : l.dropLast[n]? = some a) :
    l[n]? = some a ∧ n < l.length - 1 := by
  rw [List.getElem?_dropLast] at h
  split_ifs at h with hn
  exact ⟨h, hn⟩

theorem getElem?_append_singleton {a b : α} (h : (l ++ [b])[n]? = some a) :
    l[n]? = some a ∨ n = l.length ∧ a = b := by
  rw [List.getElem?_append] at h
  split_ifs at h with hn
  · exact .inl h
  · rw [List.getElem?_singleton] at h
    split_ifs at h with hn'
    exact .inr ⟨by omega, (Option.some.inj h).symm⟩

variable {chain : List (List (List Event))}

theorem CarriesAll.dropLast (h : CarriesAll locations f chain) : CarriesAll locations f chain.dropLast :=
  fun n receipts hn => h n receipts (getElem?_dropLast_of_some hn).1

/-- A full window is not touched by a further block. -/
theorem CarriesAll.append (h : CarriesAll locations f chain)
    (hfull : f.fromBlock.toNat + numBlocksPerFilter ≤ chain.length) (receipts : List (List Event)) :
    CarriesAll locations f (chain ++ [receipts]) := by
  intro n receipts' hn hlower hupper
  rcases getElem?_append_singleton hn with hn | ⟨rfl, -⟩
  · exact h n receipts' hn hlower hupper
  · omega

theorem CarriesAll.insert (h : CarriesAll locations f chain) (hsize : chain.length < size)
    (hok : f.insert (some (eventsBloom locations receipts)) (ofNat chain.length) = .ok f') :
    CarriesAll locations f' (chain ++ [receipts]) := by
  intro n receipts' hn hlower hupper
  have hfrom := (insert_spec hok).2.1
  rw [hfrom] at hlower hupper
  rcases getElem?_append_singleton hn with hn | ⟨rfl, rfl⟩
  · exact (h n receipts' hn hlower hupper).insert hok
  · have hcarries := Carries.of_insert hok
    rwa [toNat_ofNat_of_lt' hsize] at hcarries

theorem CarriesAll.clear (h : CarriesAll locations f chain) (hm : m.toNat = chain.length - 1)
    (hok : f.clear m = .ok f') : CarriesAll locations f' chain.dropLast := by
  intro n receipts hn hlower hupper
  have hfrom := (clear_spec hok).2.1
  rw [hfrom] at hlower hupper
  obtain ⟨hn, hlt⟩ := getElem?_dropLast_of_some hn
  exact (h n receipts hn hlower hupper).clear hok (by omega)

/-! ### The chain -/

variable (locations) in
/-- What the running filter, the stored and the cached windows have of the chain. The block that is next to be
inserted or cleared is in the window of the running filter. -/
structure ChainInv (w : World) (block : ℕ) : Prop where
  size : w.chain.length < size
  next : w.next.toNat = w.chain.length
  allocated : w.inner < w.fresh
  aligned : WindowStart (w.objects w.inner).fromBlock
  lower : (w.objects w.inner).fromBlock.toNat ≤ block
  upper : block < (w.objects w.inner).fromBlock.toNat + numBlocksPerFilter
  inner : CarriesAll locations (w.objects w.inner) w.chain
  /-- The stored windows go up to the current one, and those before have their blocks. -/
  rows : ∀ key f, w.windows key = some f → key = f.rangeKey ∧ WindowStart f.fromBlock ∧
    f.fromBlock.toNat ≤ (w.objects w.inner).fromBlock.toNat ∧
    (f.fromBlock.toNat < (w.objects w.inner).fromBlock.toNat → CarriesAll locations f w.chain)
  cached : ∀ key f, w.cache key = some f → key = f.rangeKey ∧ WindowStart f.fromBlock ∧
    f.fromBlock.toNat < (w.objects w.inner).fromBlock.toNat ∧ CarriesAll locations f w.chain

/-- What a step of the chain leaves of the blocks below a height and of the filters in memory. -/
structure Kept (locations : Bytes → ℕ → List ℕ) (w w' : World) (height : ℕ) : Prop where
  chain : ∀ n < height, w'.chain[n]? = w.chain[n]?
  fresh : w.fresh ≤ w'.fresh
  window : ∀ id < w.fresh, (w'.objects id).fromBlock = (w.objects id).fromBlock
  carries : ∀ id < w.fresh, ∀ n < height, ∀ receipts,
    Carries locations (w.objects id) n receipts → Carries locations (w'.objects id) n receipts

theorem Kept.allocate (hchain : w'.chain = w.chain) (hobjects : w'.objects = update w.objects w.fresh f)
    (hfresh : w'.fresh = w.fresh + 1) (height : ℕ) : Kept locations w w' height := by
  have hother : ∀ id < w.fresh, w'.objects id = w.objects id := fun id hid => by
    rw [hobjects, update_of_ne hid.ne]
  refine ⟨fun n _ =>
    by rw [hchain], by omega, fun id hid => by rw [hother id hid], fun id hid n _ receipts h => ?_⟩
  rwa [hother id hid]

/-- A step that changes the running filter in place. -/
theorem Kept.modify (hchain : ∀ n < height, w'.chain[n]? = w.chain[n]?)
    (hobjects : w'.objects = update w.objects w.inner f) (hfresh : w'.fresh = w.fresh)
    (hfrom : f.fromBlock = (w.objects w.inner).fromBlock)
    (hcarries : ∀ n < height, ∀ receipts, Carries locations (w.objects w.inner) n receipts →
      Carries locations f n receipts) :
    Kept locations w w' height := by
  refine ⟨hchain, hfresh.ge, fun id _ => ?_, fun id _ n hn receipts h => ?_⟩
  · rw [hobjects]
    by_cases hid : id = w.inner
    · rw [hid, update_self, hfrom]
    · rw [update_of_ne hid]
  · rw [hobjects]
    by_cases hid : id = w.inner
    · rw [hid, update_self]
      rw [hid] at h
      exact hcarries n hn receipts h
    · rwa [update_of_ne hid]

theorem Kept.refl (w : World) (height : ℕ) : Kept locations w w height :=
  ⟨fun _ _ => rfl, le_rfl, fun _ _ => rfl, fun _ _ _ _ _ h => h⟩

theorem Kept.trans {w'' : World} (h : Kept locations w w' height)
    (h' : Kept locations w' w'' height) : Kept locations w w'' height where
  chain n hn := (h'.chain n hn).trans (h.chain n hn)
  fresh := h.fresh.trans h'.fresh
  window id hid := (h'.window id (hid.trans_le h.fresh)).trans (h.window id hid)
  carries id hid n hn receipts hc :=
    h'.carries id (hid.trans_le h.fresh) n hn receipts (h.carries id hid n hn receipts hc)

theorem windowStart_add_le {a b : UInt64} (ha : WindowStart a) (hb : WindowStart b) (h : a.toNat < b.toNat) :
    a.toNat + numBlocksPerFilter ≤ b.toNat := by
  rw [WindowStart, numBlocksPerFilter] at ha hb
  rw [numBlocksPerFilter]
  omega

variable {w : World} {block : ℕ}

theorem ChainInv.covers (h : ChainInv locations w block) {n : UInt64} (hn : n.toNat = block) :
    (w.objects w.inner).Covers n := by
  have hto := toNat_toBlock h.aligned
  have hlower := h.lower
  have hupper := h.upper
  rw [numBlocksPerFilter] at hupper
  rw [FilterView.Covers, le_iff_toNat_le, le_iff_toNat_le]
  omega

/-- The running filter and the chain change, and the filter keeps its window. -/
theorem ChainInv.replace (h : ChainInv locations w block) (hsize : w'.chain.length < UInt64.size)
    (hnext : w'.next.toNat = w'.chain.length) (hallocated : w'.inner < w'.fresh)
    (hinner : w'.objects w'.inner = filter) (hfrom : filter.fromBlock = (w.objects w.inner).fromBlock)
    (hcarries : CarriesAll locations filter w'.chain) (hwindows : w'.windows = w.windows)
    (hcache : w'.cache = w.cache)
    (hbefore : ∀ f : AggregatedBloomFilter, WindowStart f.fromBlock →
      f.fromBlock.toNat < (w.objects w.inner).fromBlock.toNat → CarriesAll locations f w.chain →
      CarriesAll locations f w'.chain) :
    ChainInv locations w' block := by
  subst hinner
  refine ⟨hsize, hnext, hallocated, ?_, ?_, ?_, hcarries, fun key f hf => ?_, fun key f hf => ?_⟩
  · rw [hfrom]
    exact h.aligned
  · rw [hfrom]
    exact h.lower
  · rw [hfrom]
    exact h.upper
  · obtain ⟨hkey, hstart, hle, hrow⟩ := h.rows key f (hwindows ▸ hf)
    rw [hfrom]
    exact ⟨hkey, hstart, hle, fun hlt => hbefore f hstart hlt (hrow hlt)⟩
  · obtain ⟨hkey, hstart, hlt, hrow⟩ := h.cached key f (hcache ▸ hf)
    rw [hfrom]
    exact ⟨hkey, hstart, hlt, hbefore f hstart hlt hrow⟩

theorem length_place (w : World) (filter : AggregatedBloomFilter) (receipts : List (List Event)) :
    (w.place filter receipts).chain.length = w.chain.length + 1 := List.length_append

section

variable (h : ChainInv locations w w.chain.length)

include h

theorem ChainInv.toNat_height : (ofNat w.chain.length).toNat = w.chain.length := toNat_ofNat_of_lt' h.size

theorem ChainInv.place (hsize : w.chain.length + 1 < UInt64.size)
    (hok : (w.objects w.inner).insert (some (eventsBloom locations receipts)) (ofNat w.chain.length) =
      .ok filter) :
    ChainInv locations (w.place filter receipts) w.chain.length ∧
      Kept locations w (w.place filter receipts) w.chain.length := by
  have hfrom := (insert_spec hok).2.1
  have hnext : (ofNat w.chain.length + 1).toNat = w.chain.length + 1 := by
    rw [UInt64.toNat_add, h.toNat_height]
    exact Nat.mod_eq_of_lt hsize
  refine ⟨h.replace ((length_place ..).trans_lt hsize) (hnext.trans (length_place ..).symm) h.allocated
    (update_self ..) hfrom
    (h.inner.insert h.size hok) rfl rfl fun f hf hlt hcarries => ?_,
    Kept.modify (fun n hn => List.getElem?_append_left hn) rfl rfl hfrom
      fun n _ receipts' hc => hc.insert hok⟩
  -- windows before the current one are full
  exact hcarries.append ((windowStart_add_le hf h.aligned hlt).trans h.lower) receipts

end

theorem ChainInv.rollover (h : ChainInv locations w block)
    (hlast : w.chain.length = (w.objects w.inner).fromBlock.toNat + numBlocksPerFilter) :
    ChainInv locations w.rollover w.chain.length := by
  have hinner : w.rollover.objects w.rollover.inner = newAggregatedFilter w.next := update_self ..
  have hfrom : (newAggregatedFilter w.next).fromBlock.toNat = w.chain.length := h.next
  have hlt : (w.objects w.inner).fromBlock.toNat < w.chain.length := by rw [hlast, numBlocksPerFilter]; omega
  refine ⟨h.size, h.next, Nat.lt_succ_self _, ?_, ?_, ?_, ?_, ?_, ?_⟩
  · have haligned := h.aligned
    rw [WindowStart] at haligned
    rw [hinner, WindowStart, hfrom, hlast, Nat.add_mod_right, haligned]
  · rw [hinner, hfrom]
  · rw [hinner, hfrom, numBlocksPerFilter]
    omega
  · intro n receipts hn hlower
    rw [hinner, hfrom] at hlower
    exact absurd (List.getElem?_eq_some_iff.mp hn).1 (Nat.not_lt.mpr hlower)
  · intro key f hf
    rw [hinner, hfrom]
    simp only [World.rollover, update_apply] at hf
    split_ifs at hf with hkey
    · obtain rfl := Option.some.inj hf
      exact ⟨hkey, h.aligned, hlt.le, fun _ => h.inner⟩
    · obtain ⟨hkey', hstart, hle, hcarries⟩ := h.rows key f hf
      have hne : f.fromBlock.toNat ≠ (w.objects w.inner).fromBlock.toNat := fun heq =>
        hkey (hkey'.trans (rangeKey_inj.mpr (UInt64.toNat_inj.mp heq)))
      exact ⟨hkey', hstart, hle.trans hlt.le, fun _ => hcarries (lt_of_le_of_ne hle hne)⟩
  · intro key f hf
    obtain ⟨hkey, hstart, hlt', hcarries⟩ := h.cached key f hf
    rw [hinner, hfrom]
    exact ⟨hkey, hstart, hlt'.trans hlt, hcarries⟩

/-- The stored window before the current one takes its place. -/
theorem ChainInv.stepBack (h : ChainInv locations w w.chain.length) (hpos : 0 < w.chain.length)
    (hfirst : w.chain.length = (w.objects w.inner).fromBlock.toNat) {stored : AggregatedBloomFilter}
    (hstored : w.windows (RunningEventFilter.alignedKey (w.next - 1)) = some stored)
    (hcache : w.cache (RunningEventFilter.alignedKey (w.next - 1)) = none) :
    ChainInv locations (w.stepBack stored) (w.chain.length - 1) := by
  have hinner : (w.stepBack stored).objects (w.stepBack stored).inner = stored := update_self ..
  obtain ⟨hkey, hstart, -, hcarries⟩ := h.rows _ _ hstored
  have haligned := h.aligned
  have hbefore : stored.fromBlock.toNat + numBlocksPerFilter = (w.objects w.inner).fromBlock.toNat := by
    have hfrom : stored.fromBlock = w.next - 1 - (w.next - 1) % ofNat numBlocksPerFilter :=
      (congrArg Prod.fst hkey).symm
    have hone : (1 : UInt64) ≤ w.next := by
      rw [le_iff_toNat_le, h.next]
      exact hpos
    rw [hfrom, toNat_align, UInt64.toNat_sub_of_le _ _ hone, h.next, hfirst]
    have hone' : (1 : UInt64).toNat = 1 := rfl
    rw [WindowStart, numBlocksPerFilter] at haligned
    rw [hone', numBlocksPerFilter]
    omega
  have hlt : stored.fromBlock.toNat < (w.objects w.inner).fromBlock.toNat := by
    rw [← hbefore, numBlocksPerFilter]
    omega
  have hle : ∀ f : AggregatedBloomFilter, WindowStart f.fromBlock →
    f.fromBlock.toNat < (w.objects w.inner).fromBlock.toNat →
      f.fromBlock.toNat ≤ stored.fromBlock.toNat := by
    intro f hf hflt
    have := windowStart_add_le hf haligned hflt
    omega
  refine ⟨h.size, h.next, Nat.lt_succ_self _, ?_, ?_, ?_, ?_, ?_, ?_⟩
  · rwa [hinner]
  · rw [hinner]
    omega
  · rw [hinner]
    omega
  · rw [hinner]
    exact hcarries hlt
  · intro key f hf
    simp only [World.stepBack, update_apply] at hf
    split_ifs at hf with hkey'
    obtain ⟨hrange, hfstart, hfle, hfcarries⟩ := h.rows key f hf
    have hflt : f.fromBlock.toNat < (w.objects w.inner).fromBlock.toNat := lt_of_le_of_ne hfle fun heq =>
      hkey' (hrange.trans (rangeKey_inj.mpr (UInt64.toNat_inj.mp heq)))
    rw [hinner]
    exact ⟨hrange, hfstart, hle f hfstart hflt, fun _ => hfcarries hflt⟩
  · intro key f hf
    obtain ⟨hrange, hfstart, hflt, hfcarries⟩ := h.cached key f hf
    rw [hinner]
    refine ⟨hrange, hfstart, lt_of_le_of_ne (hle f hfstart hflt) fun heq => ?_, hfcarries⟩
    have hsame : key = RunningEventFilter.alignedKey (w.next - 1) := by
      rw [hrange, hkey, rangeKey_inj]
      exact UInt64.toNat_inj.mp heq
    have hf' : w.cache key = some f := hf
    rw [hsame, hcache] at hf'
    cases hf'

theorem ChainInv.clearBlock {curBlock : UInt64} (h : ChainInv locations w curBlock.toNat)
    (hblock : w.chain.length = curBlock.toNat + 1) :
    (w.clearBlock curBlock).iterators = w.iterators.map (·.lower curBlock.toNat) ∧
      (w.clearBlock curBlock).chain = w.chain.dropLast ∧ (w.clearBlock curBlock).windows = w.windows ∧
      ((w.clearBlock curBlock).objects (w.clearBlock curBlock).inner).fromBlock =
        (w.objects w.inner).fromBlock ∧
      ChainInv locations (w.clearBlock curBlock) curBlock.toNat ∧
        Kept locations w (w.clearBlock curBlock) curBlock.toNat := by
  obtain ⟨filter, hok⟩ := clear_ok (h.covers rfl)
  have hfrom := (clear_spec hok).2.1
  have hmodify : w.clearBlock curBlock = { w with
      objects := update w.objects w.inner filter
      next := curBlock
      chain := w.chain.dropLast
      iterators := w.iterators.map (·.lower (w.chain.length - 1)) } := by
    rw [World.clearBlock, hok]
  have hlen : w.chain.dropLast.length = curBlock.toNat := by
    rw [List.length_dropLast, hblock, Nat.add_sub_cancel]
  rw [hmodify]
  simp only [update_self, hfrom]
  refine ⟨by rw [hblock, Nat.add_sub_cancel], trivial, trivial, trivial, ?_, ?_⟩
  · exact h.replace (hlen.trans_lt curBlock.toNat_lt) hlen.symm h.allocated (update_self ..) hfrom
      (h.inner.clear (by rw [hblock, Nat.add_sub_cancel]) hok) rfl rfl fun f _ _ hcarries => hcarries.dropLast
  · refine Kept.modify (fun n hn => ?_) rfl rfl hfrom fun n hn receipts hc => hc.clear hok hn.ne
    rw [List.getElem?_dropLast, if_pos (by omega)]

end

end Juno.EventFilter
