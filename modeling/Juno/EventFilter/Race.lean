import Juno.EventFilter.Carry
import Mathlib

/-!
# What an event query sees of a moving chain

A load asks the running filter for its first block and takes the filter in a second step, and the
cache keeps stored windows for good. A window that is left in between, or entered again, makes
the two disagree.

The main result is `loads_complete`.
-/

namespace Juno.EventFilter

open Lib Step BitSet Function AggregatedBloomFilter RunningEventFilter List World UInt64 Iterator

variable {w w' : World} {it : Iterator} {height n : ℕ} {receipts : List (List Event)}
  {chain : List (List (List Event))} {filter : AggregatedBloomFilter} {steps : List Step}
  {bits out : BitSet} {source : Source}

section

variable {locations : Bytes → ℕ → List ℕ}

/-! ### The invariant -/

/-- A block in the window of an iterator that was canonical since the load began. -/
def Iterator.Owes (it : Iterator) (chain : List (List (List Event))) (n : ℕ) (receipts : List (List Event)) :
    Prop :=
  it.currentWindowStart.toNat ≤ n ∧ n < it.currentWindowStart.toNat + numBlocksPerFilter ∧ n < it.floor ∧
    chain[n]? = some receipts

theorem Iterator.Owes.column_lt (h : it.Owes chain n receipts) :
    n - it.currentWindowStart.toNat < numBlocksPerFilter := by
  obtain ⟨hlower, hupper, -, -⟩ := h
  omega

def Iterator.Matches (it : Iterator) (receipts : List (List Event)) : Prop :=
  ∃ events ∈ receipts, ∃ event ∈ events, it.matcher.accepts event = true

variable (locations) in
structure Pending (w : World) (it : Iterator) : Prop where
  innerFilter : it.progress = .innerFilter → it.currentWindowStart.toNat < it.floor →
    (w.objects w.inner).fromBlock = it.currentWindowStart
  /-- It does not ask the cache or the database for the window of the running filter, if that is stored. -/
  fetch : it.progress = .cacheGet ∨ it.progress = .fallback →
    (w.objects w.inner).fromBlock = it.currentWindowStart →
    w.windows it.key = none
  cacheAdd : ∀ f, it.progress = .cacheAdd f → f.fromBlock = it.currentWindowStart ∧
    f.fromBlock.toNat < (w.objects w.inner).fromBlock.toNat ∧ CarriesAll locations f w.chain

/-- An object that an iterator reads was allocated. -/
def Source.Allocated (w : World) : Source → Prop
  | .object id => id < w.fresh
  | .view _ => True

variable (locations) in
def Reading (w : World) (it : Iterator) : Prop :=
  match it.progress with
  | .consult source rest out innerMatch =>
    out.length = numBlocksPerFilter ∧ innerMatch.length = numBlocksPerFilter ∧
    (∀ keys ∈ rest, keys ∈ it.matcher.queries) ∧ source.Allocated w ∧
    ∀ n receipts, it.Owes w.chain n receipts → (w.filterOf source).fromBlock = it.currentWindowStart ∧
      Carries locations (w.filterOf source) n receipts ∧
      (it.Matches receipts → out.test (n - it.currentWindowStart.toNat) = true)
  | .loaded bits => ∀ n receipts, it.Owes w.chain n receipts → it.Matches receipts →
    bits.test (n - it.currentWindowStart.toNat) = true
  | _ => True

variable (locations) in
structure IteratorInv (w : World) (it : Iterator) : Prop where
  floor : it.floor ≤ w.chain.length
  aligned : WindowStart it.currentWindowStart
  matcher : it.matcher.contractAddressBytes = it.matcher.contractAddresses.map feltBytes
  nextIndex : it.nextIndex.toNat = 0 ∨ it.currentWindowStart.toNat + it.nextIndex.toNat = it.rangeStart.toNat
  /-- A new iterator is at the window of the start of its range. -/
  created : it.progress = .created →
    it.currentWindowStart = it.rangeStart - it.rangeStart % ofNat numBlocksPerFilter
  pending : Pending locations w it
  reading : Reading locations w it

/-! ### Steps of the chain -/

theorem Iterator.Owes.of_lower {chain' : List (List (List Event))}
    (hchain : ∀ n < height, chain'[n]? = chain[n]?) (h : (it.lower height).Owes chain' n receipts) :
    it.Owes chain n receipts ∧ n < height := by
  obtain ⟨hlower, hupper, hfloor, hn⟩ := h
  obtain ⟨hfloor, hheight⟩ := Nat.lt_min.mp hfloor
  exact ⟨⟨hlower, hupper, hfloor, (hchain n hheight).symm.trans hn⟩, hheight⟩

/-- What an iterator reads survives a step of the chain. -/
theorem Kept.reading (hkept : Kept locations w w' height) (h : Reading locations w it) :
    Reading locations w' (it.lower height) := by
  rw [Reading] at h ⊢
  have hprogress : (it.lower height).progress = it.progress := rfl
  rw [hprogress]
  cases hp : it.progress with
  | consult source rest out innerMatch =>
    rw [hp] at h
    obtain ⟨hout, hinner, hrest, hsource, howed⟩ := h
    refine ⟨hout, hinner, hrest, ?_, fun n receipts howes => ?_⟩
    · cases source with
      | object id => exact Nat.lt_of_lt_of_le hsource hkept.fresh
      | view f => trivial
    · obtain ⟨howes, hn⟩ := Owes.of_lower hkept.chain howes
      obtain ⟨hwindow, hcarries, hmatch⟩ := howed n receipts howes
      cases source with
      | object id =>
        exact ⟨(hkept.window id hsource).trans hwindow, hkept.carries id hsource n hn receipts hcarries,
          hmatch⟩
      | view f => exact ⟨hwindow, hcarries, hmatch⟩
  | loaded bits =>
    rw [hp] at h
    exact fun n receipts howes => h n receipts (Owes.of_lower hkept.chain howes).1
  | _ => trivial

/-- An iterator survives a step of the chain if what it relies on before it has a filter does. -/
theorem IteratorInv.keep (h : IteratorInv locations w it) (hkept : Kept locations w w' height)
    (hheight : height ≤ w'.chain.length) (hpending : Pending locations w' (it.lower height)) :
    IteratorInv locations w' (it.lower height) :=
  { h with
    floor := (Nat.min_le_right _ _).trans hheight
    pending := hpending
    reading := hkept.reading h.reading }

/-! ### Iterators while the chain moves -/

variable {f : AggregatedBloomFilter}

theorem Iterator.lower_of_le (h : it.floor ≤ height) : it.lower height = it := by
  rw [lower, Nat.min_eq_left h]

/-- An iterator between the question for the first block of the running filter and the addition to the
cache. -/
def Iterator.Fetching (it : Iterator) : Prop :=
  it.progress = .cacheGet ∨ it.progress = .fallback ∨ ∃ f, it.progress = .cacheAdd f

variable (locations) in
structure WorldInv (w : World) : Prop where
  chain : ChainInv locations w w.chain.length
  iterators : ∀ it ∈ w.iterators, IteratorInv locations w it

/-- A step that keeps to the condition. A window is not left while a load is about to take its filter, and is
not entered again if it is cached or being fetched. -/
def Step.Admits (w : World) : Step → Prop
  | .insert _ => ofNat w.chain.length = (w.objects w.inner).toBlock →
    ∀ it ∈ w.iterators, it.progress = .innerFilter → it.currentWindowStart ≠ (w.objects w.inner).fromBlock
  | .onReorg => w.next = (w.objects w.inner).fromBlock →
    w.cache (alignedKey (w.next - 1)) = none ∧
      ∀ it ∈ w.iterators, it.Fetching → it.key ≠ alignedKey (w.next - 1)
  | _ => True

theorem IteratorInv.place (hchain : ChainInv locations w w.chain.length) (hsize : w.chain.length + 1 < size)
    (hok : (w.objects w.inner).insert (some (eventsBloom locations receipts)) (ofNat w.chain.length) =
      .ok filter)
    (h : IteratorInv locations w it) : IteratorInv locations (w.place filter receipts) it := by
  obtain ⟨-, hkept⟩ := hchain.place hsize hok
  have hfrom : ((w.place filter receipts).objects (w.place filter receipts).inner).fromBlock =
      (w.objects w.inner).fromBlock :=
    hkept.window _ hchain.allocated
  have hlower := lower_of_le h.floor
  have hpending : Pending locations (w.place filter receipts) it := by
    refine ⟨fun hp hfloor => hfrom.trans (h.pending.innerFilter hp hfloor),
      fun hp hsame => h.pending.fetch hp (hfrom.symm.trans hsame), fun f hp => ?_⟩
    obtain ⟨hstart, hlt, hcarries⟩ := h.pending.cacheAdd _ hp
    have hfull := windowStart_add_le (hstart ▸ h.aligned) hchain.aligned hlt
    rw [hfrom]
    exact ⟨hstart, hlt, hcarries.append (hfull.trans hchain.lower) receipts⟩
  have hkeep := h.keep hkept (Nat.le_of_lt (by rw [length_place]; exact Nat.lt_succ_self _)) (by rwa [hlower])
  rwa [hlower] at hkeep

theorem IteratorInv.rollover {block : ℕ} (hchain : ChainInv locations w block)
    (hlast : w.chain.length = (w.objects w.inner).fromBlock.toNat + numBlocksPerFilter)
    (h : IteratorInv locations w it)
    (hadmits : it.progress = .innerFilter → it.currentWindowStart ≠ (w.objects w.inner).fromBlock) :
    IteratorInv locations w.rollover it := by
  have hchain' : w.rollover.chain = w.chain := rfl
  have hkept : Kept locations w w.rollover w.chain.length := .allocate hchain' rfl rfl _
  have hlower := lower_of_le h.floor
  have hnew : w.rollover.objects w.rollover.inner = newAggregatedFilter w.next := update_self ..
  have hinner : (w.rollover.objects w.rollover.inner).fromBlock = w.next := by rw [hnew]; rfl
  have hlt : (w.objects w.inner).fromBlock.toNat < w.next.toNat := by
    rw [hchain.next, hlast, numBlocksPerFilter]
    omega
  have hpending : Pending locations w.rollover it := by
    refine ⟨fun hp hfloor => absurd (h.pending.innerFilter hp hfloor).symm (hadmits hp), fun hp hsame => ?_,
      fun f hp => ?_⟩
    · -- no window after the current one is stored
      rw [hinner] at hsame
      have hother : it.key ≠ (w.objects w.inner).rangeKey := fun hkey => by
        rw [key_eq_rangeKey.mp hkey, hsame] at hlt
        exact lt_irrefl _ hlt
      cases hrow : w.windows it.key with
      | none => simp only [World.rollover, update_of_ne hother, hrow]
      | some f =>
        obtain ⟨hkey, -, hle, -⟩ := hchain.rows _ _ hrow
        rw [key_eq_rangeKey.mp hkey, ← hsame] at hle
        omega
    · obtain ⟨hstart, hflt, hcarries⟩ := h.pending.cacheAdd _ hp
      rw [hinner]
      exact ⟨hstart, hflt.trans hlt, hcarries⟩
  have hkeep := h.keep hkept le_rfl (by rwa [hlower])
  rwa [hlower] at hkeep

theorem WorldInv.insert (h : WorldInv locations w) (hsize : w.chain.length + 1 < size)
    (hadmits : (insert receipts).Admits w) : WorldInv locations (w.insert locations receipts) := by
  obtain ⟨filter, hok⟩ :=
    insert_ok (h.chain.covers h.chain.toNat_height) (eventsBloom_forEvents locations receipts).b
  obtain ⟨hplace, hkept⟩ := h.chain.place hsize hok
  have hfrom := (insert_spec hok).2.1
  have hinner : (w.place filter receipts).objects (w.place filter receipts).inner = filter := update_self ..
  have haligned : WindowStart filter.fromBlock := hfrom ▸ h.chain.aligned
  have hto := toNat_toBlock haligned
  have hupper := h.chain.upper
  have hlower := h.chain.lower
  rw [← hfrom, numBlocksPerFilter] at hupper
  rw [← hfrom] at hlower
  have hiterators : ∀ it ∈ w.iterators, IteratorInv locations (w.place filter receipts) it := fun it hit =>
    (h.iterators it hit).place h.chain hsize hok
  rw [World.insert, hok]
  simp only
  split_ifs with hlast
  · have hlast' : (w.place filter receipts).chain.length =
        ((w.place filter receipts).objects (w.place filter receipts).inner).fromBlock.toNat +
          numBlocksPerFilter := by
      rw [hinner, length_place, ← h.chain.toNat_height, hlast, hto]
      rfl
    refine ⟨hplace.rollover hlast', fun it hit => (hiterators it hit).rollover hplace hlast' fun hp => ?_⟩
    rw [hinner, hfrom]
    refine hadmits ?_ it hit hp
    rw [hlast, filter.range, (w.objects w.inner).range, hfrom]
  · have hnot : w.chain.length ≠ filter.toBlock.toNat :=
      fun heq => hlast (UInt64.toNat_inj.mp (h.chain.toNat_height.trans heq))
    refine ⟨{ hplace with lower := ?_, upper := ?_ }, hiterators⟩
    · rw [hinner, length_place]
      omega
    · rw [hinner, length_place, numBlocksPerFilter]
      omega

/-- The clearing of the head, in the window of the running filter or in the one before. -/
theorem IteratorInv.clearBlock {curBlock : UInt64} (hchain : ChainInv locations w' curBlock.toNat)
    (hblock : w'.chain.length = curBlock.toNat + 1) (hkept : Kept locations w w' curBlock.toNat)
    (h : IteratorInv locations w it) (hpending : Pending locations w' (it.lower curBlock.toNat)) :
    IteratorInv locations (w'.clearBlock curBlock) (it.lower curBlock.toNat) := by
  obtain ⟨-, hdrop, hwindows, hfrom, -, hkept'⟩ := hchain.clearBlock hblock
  refine h.keep (hkept.trans hkept') ?_ ⟨fun hp hfloor => ?_, fun hp hsame => ?_, fun f hp => ?_⟩
  · rw [hdrop, length_dropLast, hblock, Nat.add_sub_cancel]
  · rw [hfrom]
    exact hpending.innerFilter hp hfloor
  · rw [hwindows]
    exact hpending.fetch hp (hfrom.symm.trans hsame)
  · obtain ⟨hstart, hlt, hcarries⟩ := hpending.cacheAdd _ hp
    rw [hfrom, hdrop]
    exact ⟨hstart, hlt, hcarries.dropLast⟩

/-- What an iterator relies on when a window is entered again that it does not fetch. -/
theorem IteratorInv.stepBack (hchain : ChainInv locations w w.chain.length) (hpos : 0 < w.chain.length)
    (hfirst : w.chain.length = (w.objects w.inner).fromBlock.toNat) {stored : AggregatedBloomFilter}
    (hstored : w.windows (alignedKey (w.next - 1)) = some stored)
    (hcache : w.cache (alignedKey (w.next - 1)) = none) (h : IteratorInv locations w it)
    (hfetching : it.Fetching → it.key ≠ alignedKey (w.next - 1)) :
    Pending locations (w.stepBack stored) (it.lower (w.chain.length - 1)) := by
  have hback := hchain.stepBack hpos hfirst hstored hcache
  have hinner : (w.stepBack stored).objects (w.stepBack stored).inner = stored := update_self ..
  have hkey := (hchain.rows _ _ hstored).1
  -- an iterator that fetches is not at the window
  have hnot : it.Fetching → stored.fromBlock ≠ it.currentWindowStart := fun hf heq =>
    hfetching hf ((key_eq_rangeKey.mpr heq).trans hkey.symm)
  have hupper := hback.upper
  rw [hinner] at hupper
  refine ⟨fun hp hfloor => ?_, fun hp hsame => ?_, fun f hp => ?_⟩
  · obtain ⟨hfloor, hheight⟩ := Nat.lt_min.mp hfloor
    have hstart := h.pending.innerFilter hp hfloor
    have hstart' :
        (w.objects w.inner).fromBlock.toNat = (it.lower (w.chain.length - 1)).currentWindowStart.toNat :=
      congrArg toNat hstart
    omega
  · rw [hinner] at hsame
    exact absurd hsame (hnot (hp.imp_right .inl))
  · obtain ⟨hstart, hlt, hcarries⟩ := h.pending.cacheAdd _ hp
    have hfull := windowStart_add_le (hstart ▸ h.aligned) hchain.aligned hlt
    have hne : f.fromBlock.toNat ≠ stored.fromBlock.toNat := fun heq =>
      hnot (.inr (.inr ⟨f, hp⟩)) ((UInt64.toNat_inj.mp heq).symm.trans hstart)
    rw [hinner]
    refine ⟨hstart, ?_, hcarries⟩
    omega

/-- **A revert of the head keeps the invariant.** -/
theorem WorldInv.onReorg (h : WorldInv locations w) (hpos : 0 < w.chain.length) (hadmits : onReorg.Admits w) :
    WorldInv locations w.onReorg := by
  have hcur : (w.next - 1).toNat = w.chain.length - 1 := by
    have hone : (1 : UInt64) ≤ w.next := by
      rw [le_iff_toNat_le, h.chain.next]
      exact hpos
    rw [UInt64.toNat_sub_of_le _ _ hone, h.chain.next]
    rfl
  have hblock : w.chain.length = (w.next - 1).toNat + 1 := by omega
  -- the iterators after the clearing
  have hclear : ∀ w' : World, w'.chain = w.chain → w'.iterators = w.iterators →
    ChainInv locations w' (w.next - 1).toNat →
      Kept locations w w' (w.next - 1).toNat →
      (∀ it ∈ w.iterators, Pending locations w' (it.lower (w.next - 1).toNat)) →
        WorldInv locations (w'.clearBlock (w.next - 1)) := by
    intro w' hchain hiterators hinv hkept hpending
    have hblock' : w'.chain.length = (w.next - 1).toNat + 1 := by rw [hchain, hblock]
    obtain ⟨hmap, hdrop, -, -, hinv', -⟩ := hinv.clearBlock hblock'
    refine ⟨?_, fun it hit => ?_⟩
    · rwa [hdrop, length_dropLast, hblock', Nat.add_sub_cancel]
    · rw [hmap, hiterators] at hit
      obtain ⟨it, hmem, rfl⟩ := mem_map.mp hit
      exact (h.iterators it hmem).clearBlock hinv hblock' hkept (hpending it hmem)
  rw [World.onReorg]
  split_ifs with hcross
  · have hnext : w.next = (w.objects w.inner).fromBlock := (UInt64.sub_left_inj 1).mp hcross
    obtain ⟨hcache, hfetching⟩ := hadmits hnext
    have hfirst : w.chain.length = (w.objects w.inner).fromBlock.toNat := by rw [← hnext, h.chain.next]
    cases hstored : w.windows (alignedKey (w.next - 1)) with
    | none =>
      -- the window before is not there: only the stored row of the current one is gone
      have hrow : ∀ key, update w.windows (w.objects w.inner).rangeKey none key = w.windows key ∨
          update w.windows (w.objects w.inner).rangeKey none key = none := by
        intro key
        rw [update_apply]
        split_ifs
        · exact .inr rfl
        · exact .inl rfl
      refine ⟨{ h.chain with rows := fun key f hf => ?_ }, fun it hit => ?_⟩
      · exact h.chain.rows key f ((hrow key).elim (fun heq => heq.symm.trans hf) fun heq =>
          absurd (heq.symm.trans hf).symm (Option.some_ne_none _))
      · have hit' := h.iterators it hit
        refine { hit' with pending := { hit'.pending with fetch := fun hp hsame => ?_ } }
        exact (hrow it.key).elim (fun heq => heq.trans (hit'.pending.fetch hp hsame)) id
    | some stored =>
      have hback := h.chain.stepBack hpos hfirst hstored hcache
      rw [← hcur] at hback
      have hchain' : (w.stepBack stored).chain = w.chain := rfl
      refine hclear (w.stepBack stored) rfl rfl hback (.allocate hchain' rfl rfl _) fun it hit => ?_
      rw [hcur]
      exact (h.iterators it hit).stepBack h.chain hpos hfirst hstored hcache (hfetching it hit)
  · have hne : w.chain.length ≠ (w.objects w.inner).fromBlock.toNat := fun heq =>
      hcross (congrArg (· - 1) (UInt64.toNat_inj.mp (h.chain.next.trans heq)))
    have hlower := h.chain.lower
    have hupper := h.chain.upper
    refine hclear w rfl rfl { h.chain with lower := by omega, upper := by omega } (.refl w _) fun it hit => ?_
    have hit' := (h.iterators it hit).pending
    exact { hit' with innerFilter := fun hp hfloor => hit'.innerFilter hp (Nat.lt_min.mp hfloor).1 }

/-! ### Steps of iterators -/

section

variable (h : IteratorInv locations w it)
include h

theorem IteratorInv.at {progress : Progress} (hcreated : progress ≠ .created)
    (hpending : Pending locations w { it with progress := progress })
    (hreading : Reading locations w { it with progress := progress }) :
    IteratorInv locations w { it with progress := progress } :=
  { h with
    created := fun hp => absurd hp hcreated
    pending := hpending
    reading := hreading }

/-- An iterator begins to read a filter that has the blocks it owes. -/
theorem IteratorInv.consulting (hsource : source.Allocated w)
    (hcarries : ∀ n receipts, it.Owes w.chain n receipts →
      (w.filterOf source).fromBlock = it.currentWindowStart ∧
      Carries locations (w.filterOf source) n receipts) :
    IteratorInv locations w (it.consulting source) := by
  refine h.at (by simp) (by constructor <;> simp) ⟨rfl, rfl, fun _ hkeys => hkeys, hsource,
    fun n receipts howes => ?_⟩
  obtain ⟨hstart, hc⟩ := hcarries n receipts howes
  exact ⟨hstart, hc, fun _ => test_setAll howes.column_lt⟩

/-- A stored or cached filter of the window of an iterator. -/
theorem IteratorInv.consulting_view (hstart : f.fromBlock = it.currentWindowStart)
    (hcarries : CarriesAll locations f w.chain) : IteratorInv locations w (it.consulting (.view f)) := by
  refine h.consulting trivial fun n receipts howes => ⟨hstart, ?_⟩
  obtain ⟨hlower, hupper, -, hn⟩ := howes
  exact hcarries n receipts hn (hstart ▸ hlower) (hstart ▸ hupper)

/-- A query narrows the candidates, and keeps the blocks that are owed. -/
theorem IteratorInv.query {keys : List Bytes} {rest : List (List Bytes)} {innerMatch : BitSet}
    (hp : it.progress = .consult source (keys :: rest) out innerMatch)
    (hbits : (w.filterOf source).blocksForKeysInto locations keys (some innerMatch) = .ok bits) :
    Reading locations w { it with progress := .consult source rest (out.inPlaceIntersection bits) bits } := by
  have hreading := h.reading
  rw [Reading, hp] at hreading
  obtain ⟨hout, hinner, hqueries, hsource, howed⟩ := hreading
  obtain ⟨bits', hok, hlen, -⟩ := (w.filterOf source).blocksForKeysInto_spec locations keys hinner
  obtain rfl := Except.ok.inj (hok.symm.trans hbits)
  refine ⟨?_, hlen, fun keys hkeys => hqueries keys (mem_cons_of_mem _ hkeys), hsource,
    fun n receipts howes => ?_⟩
  · rw [length_inPlaceIntersection, hout, hlen, max_self]
  obtain ⟨hstart, hcarries, htest⟩ := howed n receipts howes
  refine ⟨hstart, hcarries, fun hmatch => ?_⟩
  have hcol : n - it.currentWindowStart.toNat < numBlocksPerFilter := howes.column_lt
  obtain ⟨events, hevents, event, hevent, haccepts⟩ := id hmatch
  have hanswer : keys = [] ∨ ∃ key ∈ keys,
      EventMatcher.HasKey locations (w.filterOf source) (n - it.currentWindowStart.toNat) key := by
    refine (it.matcher.queries_match h.matcher haccepts keys (hqueries keys mem_cons_self)).imp_right
      fun hex => ?_
    obtain ⟨key, hkey, hmem⟩ := hex
    have hhas := hcarries.hasKey hevents hevent hmem
    rw [hstart] at hhas
    exact ⟨key, hkey, hhas⟩
  obtain ⟨bits'', hok', -, hbit⟩ := EventMatcher.test_blocksForKeysInto locations hcol hanswer hinner
  obtain rfl := Except.ok.inj (hok'.symm.trans hok)
  exact (EventMatcher.test_intersection hcol hout hlen (htest hmatch) hbit).2

end

/-- **A step of a load keeps what the iterator relies on.** -/
theorem WorldInv.advance (h : WorldInv locations w) (hit : it ∈ w.iterators) :
    IteratorInv locations w (w.advance locations it) := by
  have hinv := h.iterators it hit
  rw [advance.eq_def]
  cases hp : it.progress with
  | created | loaded | done => exact hinv
  | fromBlock =>
    simp only
    split_ifs with hsame
    · exact hinv.at (by simp) ⟨fun _ _ => hsame.symm, by simp, by simp⟩ trivial
    · exact hinv.at (by simp) ⟨by simp, fun _ heq => absurd heq.symm hsame, by simp⟩ trivial
  | innerFilter =>
    refine hinv.consulting h.chain.allocated fun n receipts howes => ?_
    obtain ⟨hlower, hupper, hfloor, hn⟩ := howes
    have hstart : (w.objects w.inner).fromBlock = it.currentWindowStart :=
      hinv.pending.innerFilter hp (hlower.trans_lt hfloor)
    exact ⟨hstart, h.chain.inner n receipts hn (hstart ▸ hlower) (hstart ▸ hupper)⟩
  | cacheGet =>
    simp only
    cases hget : w.cache it.key with
    | none => exact hinv.at (by simp) ⟨by simp, fun _ => hinv.pending.fetch (.inl hp), by simp⟩ trivial
    | some f =>
      obtain ⟨hkey, -, -, hcarries⟩ := h.chain.cached _ _ hget
      exact hinv.consulting_view (key_eq_rangeKey.mp hkey) hcarries
  | fallback =>
    simp only
    cases hrow : w.windows it.key with
    | none => exact hinv.at (by simp) (by constructor <;> simp) trivial
    | some f =>
      simp only
      split_ifs with hkey
      · obtain ⟨-, -, hle, hcarries⟩ := h.chain.rows _ _ hrow
        have hstart : f.fromBlock = it.currentWindowStart := key_eq_rangeKey.mp hkey.symm
        -- the row of the current window would not have been there
        have hne : f.fromBlock.toNat ≠ (w.objects w.inner).fromBlock.toNat := fun heq => by
          have hnone := hinv.pending.fetch (.inr hp) ((UInt64.toNat_inj.mp heq).symm.trans hstart)
          exact absurd (hrow.symm.trans hnone) (Option.some_ne_none _)
        have hlt := lt_of_le_of_ne hle hne
        exact hinv.at (by simp) ⟨by simp, by simp, by simpa using ⟨hstart, hlt, hcarries hlt⟩⟩ trivial
      · exact hinv.at (by simp) (by constructor <;> simp) trivial
  | cacheAdd f =>
    obtain ⟨hstart, -, hcarries⟩ := hinv.pending.cacheAdd _ hp
    exact hinv.consulting_view hstart hcarries
  | consult source rest out innerMatch =>
    have hreading := hinv.reading
    rw [Reading, hp] at hreading
    obtain ⟨-, hinner, -, -, howed⟩ := hreading
    cases rest with
    | nil =>
      exact hinv.at (by simp) (by constructor <;> simp) fun n receipts howes => (howed n receipts howes).2.2
    | cons keys rest =>
      simp only
      obtain ⟨bits, hok, -, -⟩ := (w.filterOf source).blocksForKeysInto_spec locations keys hinner
      have hquery := hinv.query hp hok
      rw [hok]
      simp only
      split_ifs
      · exact hinv.at (by simp) (by constructor <;> simp)
          fun n receipts howes => (hquery.2.2.2.2 n receipts howes).2.2
      · exact hinv.at (by simp) (by constructor <;> simp) hquery

theorem WorldInv.cacheAfter (h : WorldInv locations w) (hit : it ∈ w.iterators) {key : UInt64 × UInt64}
    (hf : w.cacheAfter it key = some f) :
    key = f.rangeKey ∧ WindowStart f.fromBlock ∧ f.fromBlock.toNat < (w.objects w.inner).fromBlock.toNat ∧
      CarriesAll locations f w.chain := by
  have hcases : w.cacheAfter it = w.cache ∨
      ∃ g, it.progress = .cacheAdd g ∧ w.cacheAfter it = update w.cache g.rangeKey (some g) := by
    rw [World.cacheAfter]
    cases it.progress with
    | cacheAdd g => exact .inr ⟨g, rfl, rfl⟩
    | _ => exact .inl rfl
  rcases hcases with hsame | ⟨g, hp, hupdate⟩
  · rw [hsame] at hf
    exact h.chain.cached key f hf
  · obtain ⟨hstart, hlt, hcarries⟩ := (h.iterators it hit).pending.cacheAdd _ hp
    rw [hupdate, update_apply] at hf
    split_ifs at hf with hkey
    · obtain rfl := Option.some.inj hf
      exact ⟨hkey, hstart ▸ (h.iterators it hit).aligned, hlt, hcarries⟩
    · exact h.chain.cached key f hf

theorem IteratorInv.enter (h : IteratorInv locations w it) {windowStart nextIndex : UInt64}
    (hnext : nextIndex.toNat = 0 ∨
      (windowStart - windowStart % ofNat numBlocksPerFilter).toNat + nextIndex.toNat = it.rangeStart.toNat) :
    IteratorInv locations w (it.enter windowStart nextIndex w.chain.length) := by
  rw [Iterator.enter]
  split_ifs with hend hall
  · exact h.at (by simp) (by constructor <;> simp) trivial
  · refine ⟨le_rfl, windowStart_align _, h.matcher, hnext,
      fun hp => by simp at hp, by constructor <;> simp, fun n receipts howes _ => ?_⟩
    exact test_setAll howes.column_lt
  · exact ⟨le_rfl, windowStart_align _, h.matcher, hnext,
      fun hp => by simp at hp, by constructor <;> simp, trivial⟩

theorem IteratorInv.loadNextWindow (h : IteratorInv locations w it) :
    IteratorInv locations w (it.loadNextWindow w.chain.length) := by
  rw [loadNextWindow.eq_def]
  cases hp : it.progress with
  | created =>
    refine h.enter (.inr ?_)
    have hmod : (it.rangeStart % ofNat numBlocksPerFilter).toNat = it.rangeStart.toNat % numBlocksPerFilter :=
      UInt64.toNat_mod _ _
    have halign := windowStart_align it.rangeStart
    rw [h.created hp, toNat_align, halign, toNat_align, hmod, Nat.sub_zero]
    exact Nat.sub_add_cancel (Nat.mod_le _ _)
  | loaded bits => exact h.enter (.inl rfl)
  | _ => exact h

theorem IteratorInv.new (w : World) (contractAddresses : List Felt) (keys : List (List Felt))
    (fromBlock toBlock : UInt64) :
    IteratorInv locations w (.new (newEventMatcher contractAddresses keys) fromBlock toBlock) := by
  refine ⟨Nat.zero_le _, windowStart_align _, rfl, .inl rfl, fun _ => rfl, ?_, ?_⟩
  · rw [Iterator.new]
    split_ifs <;> constructor <;> simp
  · rw [Reading, Iterator.new]
    split_ifs
    · trivial
    · trivial

/-- Iterators that rely on the chain, for another cache and other iterators. -/
theorem WorldInv.of_cache (h : WorldInv locations w) {cache : Windows} {iterators : List Iterator}
    (hcache : ∀ key f, cache key = some f → key = f.rangeKey ∧ WindowStart f.fromBlock ∧
      f.fromBlock.toNat < (w.objects w.inner).fromBlock.toNat ∧ CarriesAll locations f w.chain)
    (hiterators : ∀ it ∈ iterators, IteratorInv locations w it) :
    WorldInv locations { w with cache := cache, iterators := iterators } := by
  exact ⟨{ h.chain with cached := hcache },
    fun it hit => { hiterators it hit with pending := { (hiterators it hit).pending with } }⟩

/-- **Every step that meets the condition keeps the invariant.** -/
theorem WorldInv.step (h : WorldInv locations w) {s : Step} (hadmits : s.Admits w) :
    WorldInv locations (s.apply locations w) := by
  cases s with
  | insert receipts =>
    rw [apply]
    split_ifs with hsize
    · exact h.insert hsize hadmits
    · exact h
  | onReorg =>
    rw [apply]
    split_ifs with hempty
    · exact h
    · exact h.onReorg (length_pos_iff.mpr (by simpa using hempty)) hadmits
  | newIterator contractAddresses keys fromBlock toBlock =>
    refine h.of_cache h.chain.cached fun it hit => ?_
    rcases mem_append.mp hit with hit | hit
    · exact h.iterators it hit
    · obtain rfl := mem_singleton.mp hit
      exact .new w contractAddresses keys fromBlock toBlock
  | loadNextWindow i =>
    refine h.of_cache h.chain.cached fun it hit => ?_
    obtain ⟨j, hj⟩ := mem_iff_getElem?.mp hit
    rw [getElem?_modify] at hj
    obtain ⟨it', hget, rfl⟩ := Option.map_eq_some_iff.mp hj
    have hinv := h.iterators it' (mem_of_getElem? hget)
    split_ifs
    · exact hinv.loadNextWindow
    · exact hinv
  | advance i =>
    rw [apply]
    cases hget : w.iterators[i]? with
    | none => exact h
    | some it =>
      have hit : it ∈ w.iterators := mem_of_getElem? hget
      refine h.of_cache (fun key f => h.cacheAfter hit) fun it' hit' => ?_
      rcases mem_or_eq_of_mem_set hit' with hmem | rfl
      · exact h.iterators it' hmem
      · exact h.advance hit
  | evict key =>
    refine h.of_cache (fun key' f hf => ?_) h.iterators
    rw [update_apply] at hf
    split_ifs at hf
    exact h.chain.cached key' f hf

variable (locations) in
/-- A run all of whose steps meet the condition. -/
def Admitted (w : World) : List Step → Prop
  | [] => True
  | s :: steps => s.Admits w ∧ Admitted (s.apply locations w) steps

theorem Admitted.of_forall (h : ∀ s ∈ steps, ∀ w, s.Admits w) : Admitted locations w steps := by
  induction steps generalizing w with
  | nil => trivial
  | cons s steps ih => exact ⟨h s mem_cons_self w, ih fun s hs => h s (mem_cons_of_mem _ hs)⟩

theorem admitted_append {steps' : List Step} : Admitted locations w (steps ++ steps') ↔
      Admitted locations w steps ∧ Admitted locations (run locations w steps) steps' := by
  induction steps generalizing w with
  | nil => exact iff_of_eq (true_and _).symm
  | cons s steps ih => exact (and_congr_right fun _ => ih).trans and_assoc.symm

theorem WorldInv.run (h : WorldInv locations w) (hadmitted : Admitted locations w steps) :
    WorldInv locations (run locations w steps) := by
  induction steps generalizing w with
  | nil => exact h
  | cons s steps ih => exact ih (h.step hadmitted.1) hadmitted.2

theorem WorldInv.empty : WorldInv locations World.empty := by
  refine ⟨⟨by decide, rfl, Nat.zero_lt_one, rfl, le_rfl, by decide, ?_, ?_, ?_⟩, fun it hit => by cases hit⟩
  · intro n receipts hn
    cases hn
  · intro key f hf
    cases hf
  · intro key f hf
    cases hf

/-- A loaded window reports the blocks that are owed and in the range. -/
theorem IteratorInv.mem_reported (hsize : w.chain.length < size) (h : IteratorInv locations w it)
    (hp : it.progress = .loaded bits) (howes : it.Owes w.chain n receipts) (hmatches : it.Matches receipts)
    (hstart : it.rangeStart.toNat ≤ n) (hend : n ≤ it.rangeEnd.toNat) : ofNat n ∈ it.reported bits := by
  have hreading := h.reading
  rw [Reading, hp] at hreading
  have htest := hreading n receipts howes hmatches
  obtain ⟨hlower, hupper, hfloor, -⟩ := howes
  have hsum : it.currentWindowStart.toNat + (n - it.currentWindowStart.toNat) = n := by omega
  have hn : n < size := (hfloor.trans_le h.floor).trans hsize
  have hnext : it.nextIndex.toNat ≤ n - it.currentWindowStart.toNat := by
    rcases h.nextIndex with hzero | hrange
    · omega
    · omega
  have hmem := it.mem_reported htest hnext (hsum.symm ▸ hn) (hsum.symm ▸ hend)
  have hblock : it.currentWindowStart + ofNat (n - it.currentWindowStart.toNat) = ofNat n := by
    rw [← UInt64.toNat_inj, toNat_add_ofNat (hsum.symm ▸ hn), hsum, UInt64.toNat_ofNat_of_lt' hn]
  rwa [hblock] at hmem

end

/-- **Loads are complete** in every run in which no window is left while a load is about to take its filter,
and none is entered again that is cached or being fetched: a loaded window reports every block of the range
that has a matching event and was canonical since the load began. -/
theorem loads_complete (locations : Bytes → ℕ → List ℕ) (steps : List Step)
    (hadmitted : Admitted locations World.empty steps) (it : Iterator)
    (hit : it ∈ (run locations World.empty steps).iterators) (bits : BitSet)
    (hloaded : it.progress = .loaded bits) (n : ℕ) (receipts : List (List Event))
    (howes : it.Owes (run locations World.empty steps).chain n receipts) (hmatches : it.Matches receipts)
    (hstart : it.rangeStart.toNat ≤ n) (hend : n ≤ it.rangeEnd.toNat) : ofNat n ∈ it.reported bits := by
  have hinv := WorldInv.empty.run hadmitted
  exact (hinv.iterators it hit).mem_reported hinv.chain.size hloaded howes hmatches hstart hend

/-! ### A load and the end of a window -/

/-- A bloom hash for examples: every key has the same bits. -/
def sameBits : Bytes → ℕ → List ℕ := fun _ k => List.replicate k 0

def firstBlockQuery (progress : Progress) (height : ℕ) : Iterator where
  matcher := newEventMatcher [5] []
  rangeStart := 0
  rangeEnd := 0
  nextIndex := 0
  currentWindowStart := 0
  progress := progress
  floor := height

theorem run_append (locations : Bytes → ℕ → List ℕ) (w : World) (steps steps' : List Step) :
    run locations w (steps ++ steps') = run locations (run locations w steps) steps' := List.foldl_append

/-- The query begins, and asks for the first block of the running filter. -/
def askSteps : List Step := [.newIterator [5] [] 0 0, .loadNextWindow 0, .advance 0]

/-- The query takes the filter, makes its only query of it and ends. -/
def readSteps : List Step := [.advance 0, .advance 0, .advance 0]

theorem firstBlockQuery_begins (w : World) (hnone : w.iterators = []) :
    run sameBits w [.newIterator [5] [] 0 0, .loadNextWindow 0] =
      { w with iterators := [firstBlockQuery .fromBlock w.chain.length] } := by
  rw [run, foldl_cons, foldl_cons, foldl_nil, apply, apply, hnone]
  rfl

structure FirstWindow (w : World) (blocks : List (List (List Event))) (its : List Iterator) : Prop where
  chain : w.chain = blocks
  iterators : w.iterators = its
  inner : w.inner = 0
  fromBlock : (w.objects 0).fromBlock = 0

theorem ne_toBlock (hfrom : filter.fromBlock = 0) (hlt : n + 1 < numBlocksPerFilter) :
    ofNat n ≠ filter.toBlock := by
  intro heq
  have hval : (ofNat n).toNat = n :=
    toNat_ofNat_of_lt' ((Nat.lt_of_succ_lt hlt).trans (by decide))
  have hto : filter.toBlock.toNat = 8191 := by rw [filter.range, hfrom]; rfl
  rw [heq, hto] at hval
  rw [numBlocksPerFilter] at hlt
  omega

variable {blocks : List (List (List Event))} {its : List Iterator}

theorem FirstWindow.insert (h : FirstWindow w blocks its) (hlen : blocks.length + 1 < numBlocksPerFilter)
    (locations : Bytes → ℕ → List ℕ) (receipts : List (List Event)) :
    FirstWindow ((Step.insert receipts).apply locations w) (blocks ++ [receipts]) its := by
  obtain ⟨hchain, hiterators, hinner, hfrom⟩ := h
  have hcovers : (w.objects w.inner).Covers (ofNat w.chain.length) := by
    rw [hinner, hchain]
    exact (covers_congr hfrom _).mpr (covers_first (Nat.lt_of_succ_lt hlen))
  obtain ⟨filter, hok⟩ := insert_ok hcovers (eventsBloom_forEvents locations receipts).b
  have hfilter : filter.fromBlock = 0 := by rw [(insert_spec hok).2.1, hinner, hfrom]
  have hsize : w.chain.length + 1 < size := by
    rw [hchain]
    exact hlen.trans (by decide)
  rw [← hchain] at hlen
  rw [apply, if_pos hsize, World.insert, hok]
  simp only [if_neg (ne_toBlock hfilter hlen)]
  constructor <;> simp only [place, hchain, hiterators, hinner, hfilter, update_self]

variable (locations : Bytes → ℕ → List ℕ)

theorem run_inserts (hlen : blocks.length < numBlocksPerFilter) :
    FirstWindow (run locations World.empty (blocks.map .insert)) blocks [] := by
  induction blocks using reverseRecOn with
  | nil => exact ⟨rfl, rfl, rfl, rfl⟩
  | append_singleton blocks receipts ih =>
    rw [length_append, length_singleton] at hlen
    rw [map_append, map_singleton, run, foldl_append, foldl_cons, foldl_nil, ← run]
    exact (ih (Nat.lt_of_succ_lt hlen)).insert hlen locations receipts

theorem advance_only (hw : w.iterators = [it]) : (advance 0).apply locations w =
      { w with iterators := [w.advance locations it], cache := w.cacheAfter it } := by
  rw [apply, hw]
  rfl

theorem firstBlockQuery_asks (hfrom : (w.objects w.inner).fromBlock = 0) (height : ℕ) :
    w.advance sameBits (firstBlockQuery .fromBlock height) = firstBlockQuery .innerFilter height := by
  have hstep : w.advance sameBits (firstBlockQuery .fromBlock height) =
    { firstBlockQuery .fromBlock height with
      progress := if 0 = (w.objects w.inner).fromBlock then .innerFilter else .cacheGet } := rfl
  rw [hstep, hfrom, if_pos rfl]
  rfl

theorem blocksForKeysInto_new (fromBlock : UInt64) (key : Bytes)
    (hout : out.length = numBlocksPerFilter) : ∃ bits,
    (newAggregatedFilter fromBlock).blocksForKeysInto sameBits [key] (some out) = .ok bits ∧
      bits.length = numBlocksPerFilter ∧
      ∀ i < numBlocksPerFilter, bits.test i = false := by
  obtain ⟨bits, hok, hlen, hbits⟩ :=
    blocksForKeysInto_spec sameBits (newAggregatedFilter fromBlock) [key] hout
  refine ⟨bits, hok, hlen, fun i hi => ?_⟩
  rw [hbits i hi]
  simp [keyIndices, sameBits, eventsBloomHashFuncs]

/-- The query goes on to its end with the filter that `InnerFilter` gives. -/
theorem firstBlockQuery_loads (hw : w.iterators = [firstBlockQuery .innerFilter height])
    (hok : (w.objects w.inner).blocksForKeysInto sameBits [feltBytes 5] (some (new numBlocksPerFilter)) =
      .ok bits) :
    run sameBits w readSteps = { w with
      iterators :=
        [firstBlockQuery (.loaded ((new numBlocksPerFilter).setAll.inPlaceIntersection bits)) height] } := by
  generalize hout : (new numBlocksPerFilter).setAll.inPlaceIntersection bits = out
  have hget : (advance 0).apply sameBits w = { w with
      iterators :=
        [firstBlockQuery (.consult (.object w.inner) [[feltBytes 5]] (new numBlocksPerFilter).setAll
        (new numBlocksPerFilter)) height] } := by
    rw [advance_only sameBits hw]
    rfl
  have hquery : (advance 0).apply sameBits { w with
      iterators :=
        [firstBlockQuery (.consult (.object w.inner) [[feltBytes 5]] (new numBlocksPerFilter).setAll
        (new numBlocksPerFilter)) height] } = { w with
      iterators :=
        [firstBlockQuery (if out.isNone then .loaded out else .consult (.object w.inner) [] out bits)
          height] } := by
    rw [advance_only sameBits rfl, World.advance]
    simp only [firstBlockQuery, filterOf, hok, hout]
    rfl
  have hend : (advance 0).apply sameBits { w with
      iterators :=
        [firstBlockQuery (if out.isNone then .loaded out else .consult (.object w.inner) [] out bits)
          height] } = { w with
      iterators := [firstBlockQuery (.loaded out) height] } := by
    rw [advance_only sameBits rfl]
    split_ifs
    · rfl
    · rfl
  rw [run, readSteps, foldl_cons, foldl_cons, foldl_cons, foldl_nil, hget, hquery, hend]

theorem firstBlockQuery_misses {fromBlock : UInt64}
    (hfilter : w.objects w.inner = newAggregatedFilter fromBlock)
    (hw : w.iterators = [firstBlockQuery .innerFilter height]) :
    ∃ bits,
    (run sameBits w readSteps).iterators = [firstBlockQuery (.loaded bits) height] ∧
      (run sameBits w readSteps).chain = w.chain ∧ ∀ i, bits.test i = false := by
  obtain ⟨bits, hok, hlen, hbits⟩ :=
    blocksForKeysInto_new fromBlock (feltBytes 5) (length_new numBlocksPerFilter)
  rw [firstBlockQuery_loads hw (hfilter ▸ hok)]
  refine ⟨_, rfl, rfl, fun i => ?_⟩
  rcases Nat.lt_or_ge i numBlocksPerFilter with hi | hi
  · rw [test_inPlaceIntersection hi (hlen ▸ hi), hbits i hi, Bool.and_false]
  · refine test_of_length_le (le_of_eq_of_le ?_ hi)
    rw [length_inPlaceIntersection, hlen, length_setAll, length_new, max_self]

/-- The insertion of the last block of the first window, while the query has asked for the first block of the
running filter. -/
theorem insert_last (hlen : w.chain.length = 8191) (hinner : w.inner = 0)
    (hfrom : (w.objects 0).fromBlock = 0) (receipts : List (List Event)) :
    ((insert receipts).apply sameBits w).chain = w.chain ++ [receipts] ∧
      ((insert receipts).apply sameBits w).iterators = w.iterators ∧
      ((insert receipts).apply sameBits w).objects ((insert receipts).apply sameBits w).inner =
        newAggregatedFilter 8192 := by
  have hcovers : (w.objects w.inner).Covers (ofNat w.chain.length) := by
    rw [hinner, hlen]
    exact (covers_congr hfrom _).mpr (covers_first (by decide))
  obtain ⟨filter, hok⟩ := insert_ok hcovers (eventsBloom_forEvents sameBits receipts).b
  have hlast : ofNat w.chain.length = filter.toBlock := by
    rw [filter.range, (insert_spec hok).2.1, hinner, hfrom, hlen]
    rfl
  have hsize : w.chain.length + 1 < size := by
    rw [hlen]
    decide
  rw [apply, if_pos hsize, World.insert, hok]
  simp only [if_pos hlast]
  refine ⟨rfl, rfl, ?_⟩
  simp only [rollover, place, update_self, hlen]
  rfl

section

variable (h : FirstWindow w blocks [])
include h

theorem run_firstBlockQuery :
    run sameBits w askSteps = { w with iterators := [firstBlockQuery .innerFilter w.chain.length] } := by
  have hbegins := firstBlockQuery_begins w h.iterators
  rw [run, foldl_cons, foldl_cons, foldl_nil] at hbegins
  rw [run, askSteps, foldl_cons, foldl_cons, foldl_cons, foldl_nil, hbegins, advance_only sameBits rfl,
    firstBlockQuery_asks (by rw [h.inner, h.fromBlock])]
  rfl

theorem FirstWindow.asked :
    FirstWindow (run sameBits w askSteps) blocks [firstBlockQuery .innerFilter blocks.length] := by
  rw [run_firstBlockQuery h]
  exact ⟨h.chain, by rw [h.chain], h.inner, h.fromBlock⟩

theorem run_insert (hlen : blocks.length + 1 < numBlocksPerFilter) :
    ∃ bits, (run sameBits w (askSteps ++ [.insert []] ++ readSteps)).iterators =
        [firstBlockQuery (.loaded bits) blocks.length] ∧
      (run sameBits w (askSteps ++ [.insert []] ++ readSteps)).chain = blocks ++ [[]] := by
  have hwindow := h.asked.insert hlen sameBits []
  rw [run_append, run_append]
  generalize hw : run sameBits (run sameBits w askSteps) [.insert []] = w'
  obtain rfl : (Step.insert []).apply sameBits (run sameBits w askSteps) = w' := hw
  obtain ⟨bits, hok, -, -⟩ := blocksForKeysInto_spec sameBits _ [feltBytes 5] (length_new numBlocksPerFilter)
  rw [firstBlockQuery_loads hwindow.iterators hok]
  exact ⟨_, rfl, hwindow.chain⟩

end

theorem firstBlockQuery_matches (progress : Progress) (height : ℕ) :
    (firstBlockQuery progress height).Matches [[⟨5, []⟩]] := by
  have haccepts : (newEventMatcher [5] []).accepts ⟨5, []⟩ = true := by decide +kernel
  exact ⟨_, mem_singleton_self _, _, mem_singleton_self _, haccepts⟩

theorem firstBlockQuery_owes (progress : Progress) (hheight : 0 < height)
    (hchain : chain[0]? = some receipts) :
    (firstBlockQuery progress height).Owes chain 0 receipts := by
  have hcolumn : 0 < 0 + numBlocksPerFilter := by decide
  exact ⟨le_rfl, hcolumn, hheight, hchain⟩

theorem admitted_insert (h : FirstWindow w blocks []) (hlen : blocks.length + 1 < numBlocksPerFilter) :
    Admitted sameBits w (askSteps ++ [.insert []] ++ readSteps) := by
  have hquery : ∀ s ∈ askSteps ++ readSteps, ∀ w, s.Admits w := by
    simp [askSteps, readSteps, Admits]
  have hwindow := h.asked
  have hlast : (Step.insert []).Admits (run sameBits w askSteps) := fun heq => by
    rw [hwindow.chain, hwindow.inner] at heq
    exact absurd heq (ne_toBlock hwindow.fromBlock hlen)
  exact (admitted_append.mpr
    ⟨admitted_append.mpr ⟨.of_forall fun s hs => hquery s (mem_append_left _ hs), hlast, trivial⟩,
    .of_forall fun s hs => hquery s (mem_append_right _ hs)⟩)

/-- A block with an event of the contract, and a block that is inserted while the query is about to take the
filter. -/
theorem loads_complete_insert : ∃ (it : Iterator) (bits : BitSet),
    it ∈ (run sameBits World.empty
      ([[[⟨5, []⟩]]].map .insert ++ (askSteps ++ [.insert []] ++ readSteps))).iterators ∧
      it.progress = .loaded bits ∧ ofNat 0 ∈ it.reported bits := by
  have hfirst := @run_inserts [[[⟨5, []⟩]]] sameBits (by decide)
  obtain ⟨bits, hloaded, hchain⟩ := run_insert hfirst (by decide)
  rw [← run_append] at hloaded hchain
  rw [length_singleton] at hloaded
  have hmem := mem_singleton_self (firstBlockQuery (.loaded bits) 1)
  rw [← hloaded] at hmem
  have hinserts : Admitted sameBits empty ([[[⟨5, []⟩]]].map .insert) :=
    ⟨fun _ it hit => (by cases hit), trivial⟩
  have hadmitted := admitted_append.mpr ⟨hinserts, admitted_insert hfirst (by decide)⟩
  refine ⟨_, bits, hmem, rfl, loads_complete sameBits _ hadmitted _ hmem bits rfl 0 _
    (firstBlockQuery_owes _ Nat.zero_lt_one ?_) (firstBlockQuery_matches _ _) le_rfl le_rfl⟩
  rw [hchain]
  rfl

theorem run_rollover (h : FirstWindow w blocks []) (hlen : w.chain.length = 8191) : ∃ bits,
    (run sameBits w (askSteps ++ [.insert []] ++ readSteps)).iterators =
      [firstBlockQuery (.loaded bits) w.chain.length] ∧
      (run sameBits w (askSteps ++ [.insert []] ++ readSteps)).chain = w.chain ++ [[]] ∧ ∀ i,
        bits.test i = false := by
  have hlast :=
      @insert_last { w with iterators := [firstBlockQuery .innerFilter w.chain.length] } hlen h.inner
        h.fromBlock []
  obtain ⟨hchain', hiterators', hfilter⟩ := hlast
  obtain ⟨bits, hloaded, hsame, hnone⟩ := firstBlockQuery_misses hfilter hiterators'
  rw [run_append, run_append, run_firstBlockQuery h]
  exact ⟨bits, hloaded, hsame.trans hchain', hnone⟩

/-- **The filter of a window is asked for the blocks of another.** A load of the first window finds the
running filter there; the last block of the window is inserted; `InnerFilter` then gives the empty filter of
the next window, and a block with a matching event that was canonical all the time is not reported. -/
theorem load_misses_rollover :
    ∃ (locations : Bytes → ℕ → List ℕ) (steps : List Step) (it : Iterator) (bits : BitSet) (n : ℕ)
    (receipts : List (List Event)), it ∈ (run locations World.empty steps).iterators ∧
      it.progress = .loaded bits ∧
      it.Owes (run locations World.empty steps).chain n receipts ∧ it.Matches receipts ∧
        it.rangeStart.toNat ≤ n ∧
      n ≤ it.rangeEnd.toNat ∧ ofNat n ∉ it.reported bits := by
  obtain ⟨rest, hrest⟩ : ∃ rest : List (List (List Event)), rest.length = 8190 :=
    ⟨replicate 8190 [], length_replicate⟩
  have hlen : ([[⟨5, []⟩]] :: rest).length = 8191 := congrArg (· + 1) hrest
  have hfirst := @run_inserts ([[⟨5, []⟩]] :: rest) sameBits (by rw [hlen]; decide)
  obtain ⟨bits, hloaded, hchain', hnone⟩ := run_rollover hfirst (by rw [hfirst.chain, hlen])
  rw [← run_append] at hloaded hchain'
  refine ⟨sameBits, ([[⟨5, []⟩]] :: rest).map .insert ++ (askSteps ++ [.insert []] ++ readSteps), _, bits,
    0, [[⟨5, []⟩]], by rw [hloaded]; exact mem_singleton_self _, rfl, firstBlockQuery_owes _ ?_ ?_,
    firstBlockQuery_matches _ _, le_rfl, le_rfl, ?_⟩
  · rw [hfirst.chain, hlen]
    exact Nat.zero_lt_succ _
  · rw [hchain', hfirst.chain, cons_append, getElem?_cons_zero]
  · have hempty : bits.setBits = [] := eq_nil_iff_forall_not_mem.mpr fun i hi => by
      rw [mem_setBits, hnone i] at hi
      exact Bool.false_ne_true hi
    rw [reported, hempty]
    exact not_mem_nil

end Juno.EventFilter
