import Juno.EventFilter.Aggregated
import Juno.Lib.GoMap
import Mathlib

/-!
# Event matchers and candidate blocks

An event query names contracts and, for every position of the keys of an event, the keys it asks
for. An aggregated filter gives the blocks that may have such an event; whether an event is
one is then decided exactly.

## The model

* `getCandidateBlocksForFilterInto` — the blocks that a filter gives: the intersection over the contracts and
  the positions of the union over the alternatives.
* `FilterOp`, `build` — a filter built by insertions and clearings, those that fail included.

The main result is `candidates_complete`.
-/

namespace Juno.EventFilter

open Lib BitSet FilterView AggregatedBloomFilter

variable {out b : BitSet} {col j m : ℕ} {event : Event} {n : UInt64}

/-- A set of felts: `map[felt.Felt]struct{}`. -/
abbrev FeltSet := GoMap Felt Unit

structure EventMatcher where
  contractAddresses : List Felt
  contractAddressBytes : List Bytes
  keysMap : List FeltSet

def makeKeysMaps (filterKeys : List (List Felt)) : List FeltSet :=
  filterKeys.map fun keys => keys.foldl (fun kMap key => kMap.insert key ()) ∅

def newEventMatcher (contractAddresses : List Felt) (keys : List (List Felt)) : EventMatcher :=
  ⟨contractAddresses, contractAddresses.map feltBytes, makeKeysMaps keys⟩

namespace EventMatcher

variable (e : EventMatcher)

/-- The test of an event's address: `MatchesAddress`, and the first check of
`AppendBlockEventsFromReceipts`. -/
def matchesAddress (sender : Felt) : Bool :=
  e.contractAddresses.isEmpty || e.contractAddresses.contains sender

def matchKeysLoop : List Felt → List FeltSet → Bool
  | [], _ => true
  | _ :: _, [] => true
  | eventKey :: eventKeys, kMap :: kMaps =>
    if kMap.entries.isEmpty then matchKeysLoop eventKeys kMaps
    else if (kMap.lookup eventKey).isNone then false
    else matchKeysLoop eventKeys kMaps

def matchesEventKeys (eventKeys : List Felt) : Bool :=
  if eventKeys.length < e.keysMap.length then false else matchKeysLoop eventKeys e.keysMap

def accepts (event : Event) : Bool := e.matchesAddress event.sender && e.matchesEventKeys event.keys

def matchesAllBlocks : Bool :=
  e.contractAddressBytes.isEmpty && e.keysMap.all fun kMap => kMap.entries.isEmpty

/-- The alternatives for a position, as they are in a bloom filter. -/
def positionKeys (kMap : FeltSet) (index : ℕ) : List Bytes :=
  kMap.keys.map fun key => keyAndIndexBytes key index

section

variable {R : Type} [BloomRows R] (locations : Bytes → ℕ → List ℕ)

/-- The loop over the positions in `getCandidateBlocksForFilterInto`. -/
def intersectPositions (filter : FilterView R) : ℕ → List FeltSet → BitSet → BitSet → Except Fault BitSet
  | _, [], out, _ => .ok out
  | index, kMap :: kMaps, out, innerMatch => do
    let innerMatch ← filter.blocksForKeysInto locations (positionKeys kMap index) (some innerMatch)
    let out := out.inPlaceIntersection innerMatch
    if out.isNone then .ok out else intersectPositions filter (index + 1) kMaps out innerMatch

def getCandidateBlocksForFilterInto (e : EventMatcher) (filter : FilterView R) (out : Option BitSet) :
    Except Fault BitSet :=
  match out with
  | none => .error (.err .matchesBufferNil)
  | some out =>
    if out.length ≠ numBlocksPerFilter then .error (.err .matchesBufferSizeMismatch)
    else
      let out := out.setAll
      let innerMatch := new numBlocksPerFilter
      if e.contractAddressBytes.isEmpty then intersectPositions locations filter 0 e.keysMap out innerMatch
      else do
        let innerMatch ← filter.blocksForKeysInto locations e.contractAddressBytes (some innerMatch)
        let out := out.inPlaceIntersection innerMatch
        if out.isNone then .ok out else intersectPositions locations filter 0 e.keysMap out innerMatch

end

end EventMatcher

/-! ### Filters built by insertions and clearings -/

variable {f : AggregatedBloomFilter}

inductive FilterOp where
  | insert (filter : Option BloomFilter) (blockNumber : UInt64)
  | clear (blockNumber : UInt64)

/-- The filter after a call; a call that fails leaves it as it was. -/
def FilterOp.apply (f : AggregatedBloomFilter) : FilterOp → AggregatedBloomFilter
  | insert filter blockNumber => (AggregatedBloomFilter.insert f filter blockNumber).toOption.getD f
  | clear blockNumber => (AggregatedBloomFilter.clear f blockNumber).toOption.getD f

def build (fromBlock : UInt64) (ops : List FilterOp) : AggregatedBloomFilter :=
  ops.foldl FilterOp.apply (newAggregatedFilter fromBlock)

theorem fromBlock_apply (f : AggregatedBloomFilter) (op : FilterOp) :
    (op.apply f).fromBlock = f.fromBlock := by
  cases op with
  | insert filter n =>
    rw [FilterOp.apply]
    cases h : insert f filter n with
    | error e => rfl
    | ok f' => exact (insert_spec h).2.1
  | clear n =>
    rw [FilterOp.apply]
    cases h : clear f n with
    | error e => rfl
    | ok f' => exact (clear_spec h).2.1

theorem fromBlock_foldl_apply (ops : List FilterOp) (f : AggregatedBloomFilter) :
    (ops.foldl FilterOp.apply f).fromBlock = f.fromBlock := by
  induction ops generalizing f with
  | nil => rfl
  | cons op ops ih => rw [List.foldl_cons, ih, fromBlock_apply]

theorem covers_congr {g : AggregatedBloomFilter} (h : f.fromBlock = g.fromBlock) (n : UInt64) :
    f.Covers n ↔ g.Covers n := by
  rw [Covers, Covers, f.range, g.range, h]

/-- The columns of different blocks of a range are different. -/
theorem column_inj {m : UInt64} (hn : f.Covers n) (hm : f.Covers m) (h : f.column n = f.column m) :
    n = m := by
  rw [← UInt64.toNat_inj, ← hn.column_add.1, ← hm.column_add.1, h]

/-- A bit stays set as long as its block is not cleared. -/
theorem bit_apply {op : FilterOp} (hn : f.Covers n) (hop : op ≠ .clear n)
    (h : f.bitmap.bit j (f.column n) = true) : (op.apply f).bitmap.bit j (f.column n) = true := by
  cases op with
  | insert filter m =>
    rw [FilterOp.apply]
    cases hok : insert f filter m with
    | error e => exact h
    | ok f' =>
      refine ((insert_spec hok).2.2 j _).trans ?_
      rw [h, Bool.or_true]
  | clear m =>
    rw [FilterOp.apply]
    cases hok : clear f m with
    | error e => exact h
    | ok f' =>
      obtain ⟨hm, -, hbit⟩ := clear_spec hok
      have hne : ¬ f.column n = f.column m := fun heq => hop (by rw [column_inj hn hm heq])
      refine (hbit j _).trans ?_
      rw [h, decide_eq_false hne]
      rfl

/-- A bit stays set along calls that do not clear its block. -/
theorem bit_foldl_apply {ops : List FilterOp} (hops : FilterOp.clear n ∉ ops) (hn : f.Covers n)
    (h : f.bitmap.bit j (f.column n) = true) :
    (ops.foldl FilterOp.apply f).bitmap.bit j (f.column n) = true := by
  induction ops generalizing f with
  | nil => exact h
  | cons op ops ih =>
    rw [List.mem_cons, not_or] at hops
    have hfrom := fromBlock_apply f op
    have hcolumn : (op.apply f).column n = f.column n := by rw [column, column, hfrom]
    rw [List.foldl_cons, ← hcolumn]
    refine ih hops.2 ((covers_congr hfrom n).mpr hn) ?_
    rw [hcolumn]
    exact bit_apply hn (fun heq => hops.1 heq.symm) h

/-! ### The bloom filter of a block -/

section

variable (locations : Bytes → ℕ → List ℕ)

theorem length_foldl_set (hm : 0 < m) (ls : List ℕ) (hb : b.length = m) :
    (ls.foldl (fun b l => b.set (l % m)) b).length = m := by
  induction ls generalizing b with
  | nil => exact hb
  | cons l ls ih =>
    have hl : l % m < b.length := (Nat.mod_lt _ hm).trans_eq hb.symm
    exact ih (by rw [length_set hl, hb])

theorem test_foldl_set (hm : 0 < m) (ls : List ℕ) (hb : b.length = m) (j : ℕ) :
    (ls.foldl (fun b l => b.set (l % m)) b).test j = ((ls.map (· % m)).contains j || b.test j) := by
  induction ls generalizing b with
  | nil => simp
  | cons l ls ih =>
    have hl : l % m < b.length := (Nat.mod_lt _ hm).trans_eq hb.symm
    rw [List.foldl_cons, ih (by rw [length_set hl, hb]), test_set hl, List.map_cons, List.contains_cons,
      ← Bool.or_assoc, Bool.or_comm (List.contains _ _)]
    simp only [beq_eq_decide]

/-- A bloom filter for events: the number of bits and of hash functions. -/
structure BloomFilter.ForEvents (f : BloomFilter) : Prop where
  m : f.m = eventsBloomLength
  k : f.k = eventsBloomHashFuncs
  b : f.b.length = eventsBloomLength

theorem BloomFilter.ForEvents.new : (BloomFilter.new eventsBloomLength eventsBloomHashFuncs).ForEvents :=
  ⟨rfl, rfl, rfl⟩

theorem BloomFilter.ForEvents.testOrAdd {f : BloomFilter} (h : f.ForEvents) (key : Bytes) :
    (f.testOrAdd locations key).ForEvents ∧
      ∀ j, (f.testOrAdd locations key).b.test j = ((keyIndices locations key).contains j || f.b.test j) := by
  have hb : f.b.length = f.m := h.b.trans h.m.symm
  have hm : 0 < f.m := h.m ▸ by decide
  refine ⟨⟨h.m, h.k, (length_foldl_set hm _ hb).trans h.m⟩, fun j => ?_⟩
  rw [BloomFilter.testOrAdd, test_foldl_set hm _ hb, h.m, h.k, keyIndices]

/-- Adding keys keeps what is there and sets the bits of every key. -/
theorem BloomFilter.ForEvents.foldl_testOrAdd (keys : List Bytes) {f : BloomFilter} (h : f.ForEvents) :
    (keys.foldl (BloomFilter.testOrAdd locations) f).ForEvents ∧
      ∀ j, (keys.foldl (BloomFilter.testOrAdd locations) f).b.test j =
        ((keys.any fun key => (keyIndices locations key).contains j) || f.b.test j) := by
  induction keys generalizing f with
  | nil => exact ⟨h, fun j => by simp⟩
  | cons key keys ih =>
    obtain ⟨hadd, hbits⟩ := h.testOrAdd locations key
    obtain ⟨hrest, hbits'⟩ := ih hadd
    refine ⟨hrest, fun j => ?_⟩
    rw [List.foldl_cons, hbits' j, hbits j, List.any_cons, ← Bool.or_assoc, Bool.or_comm (List.any _ _)]

def receiptKeys (receipts : List (List Event)) : List Bytes := receipts.flatten.flatMap eventKeys

section

variable (receipts : List (List Event))

theorem eventsBloom_eq : eventsBloom locations receipts =
    (receiptKeys receipts).foldl (BloomFilter.testOrAdd locations)
      (BloomFilter.new eventsBloomLength eventsBloomHashFuncs) := by
  rw [eventsBloom, receiptKeys, List.foldl_flatMap, List.foldl_flatten]

theorem eventsBloom_forEvents : (eventsBloom locations receipts).ForEvents := by
  rw [eventsBloom_eq]
  exact (BloomFilter.ForEvents.new.foldl_testOrAdd locations _).1

/-- The bits of the bloom filter of a block are those of the keys of its events. -/
theorem test_eventsBloom (j : ℕ) : (eventsBloom locations receipts).b.test j =
    (receiptKeys receipts).any fun key => (keyIndices locations key).contains j := by
  have hempty : (BloomFilter.new eventsBloomLength eventsBloomHashFuncs).b.test j = false := test_new _ _
  rw [eventsBloom_eq, (BloomFilter.ForEvents.new.foldl_testOrAdd locations _).2, hempty, Bool.or_false]

end

/-- The filters of some receipts and of those after them merge to the filter of all. -/
theorem eventsBloom_merge (receipts receipts' : List (List Event)) :
    (eventsBloom locations receipts').merge (eventsBloom locations receipts) =
      some (eventsBloom locations (receipts ++ receipts')) := by
  have h := eventsBloom_forEvents locations receipts
  have h' := eventsBloom_forEvents locations receipts'
  have hall := eventsBloom_forEvents locations (receipts ++ receipts')
  have hlen : ((eventsBloom locations receipts').b.inPlaceUnion (eventsBloom locations receipts).b).length =
      eventsBloomLength := by rw [length_inPlaceUnion, h.b, h'.b, max_self]
  have hbits : (eventsBloom locations receipts').b.inPlaceUnion (eventsBloom locations receipts).b =
      (eventsBloom locations (receipts ++ receipts')).b := by
    refine eq_of_test (hlen.trans hall.b.symm) (by rw [hlen]; rfl) fun i hi => ?_
    rw [hlen] at hi
    rw [test_inPlaceUnion (h'.b ▸ hi) (h.b ▸ hi), test_eventsBloom, test_eventsBloom,
      test_eventsBloom, receiptKeys,
      receiptKeys, receiptKeys, List.flatten_append, List.flatMap_append, List.any_append, Bool.or_comm]
  rw [BloomFilter.merge, if_pos ⟨h'.m.trans h.m.symm, h'.k.trans h.k.symm⟩]
  exact congrArg some (BloomFilter.ext (h'.m.trans hall.m.symm) (h'.k.trans hall.k.symm) hbits)

theorem testBits_eventsBloom {receipts : List (List Event)} {events : List Event}
    (hevents : events ∈ receipts) (hevent : event ∈ events) {key : Bytes} (hkey : key ∈ eventKeys event)
    (hj : j ∈ keyIndices locations key) : (eventsBloom locations receipts).b.test j = true := by
  rw [test_eventsBloom, List.any_eq_true]
  refine ⟨key, List.mem_flatMap.mpr ⟨event, List.mem_flatten.mpr ⟨events, hevents, hevent⟩, hkey⟩, ?_⟩
  rwa [List.contains_eq_mem, decide_eq_true_eq]

end

/-! ### Candidates -/

namespace EventMatcher

variable (locations : Bytes → ℕ → List ℕ)

/-- The bits of a key are set in the column of a block. -/
def HasKey (f : AggregatedBloomFilter) (col : ℕ) (key : Bytes) : Prop :=
  ∀ index ∈ keyIndices locations key, f.bitmap.bit index col = true

/-- A query whose keys include one that the block has keeps the block. -/
theorem test_blocksForKeysInto (hcol : col < numBlocksPerFilter) {keys : List Bytes}
    (hkeys : keys = [] ∨ ∃ key ∈ keys, HasKey locations f col key) (hout : out.length = numBlocksPerFilter) :
    ∃ bits, f.blocksForKeysInto locations keys (some out) = .ok bits ∧ bits.length = numBlocksPerFilter ∧
      bits.test col = true := by
  obtain ⟨bits, hok, hlen, hbits⟩ := f.blocksForKeysInto_spec locations keys hout
  refine ⟨bits, hok, hlen, ?_⟩
  rw [hbits col hcol, Bool.or_eq_true, List.isEmpty_iff, List.any_eq_true]
  refine hkeys.imp_right fun ⟨key, hkey, hhas⟩ => ⟨key, hkey, ?_⟩
  exact List.all_eq_true.mpr hhas

theorem test_intersection {inner : BitSet} (hcol : col < numBlocksPerFilter)
    (hout : out.length = numBlocksPerFilter) (hinner : inner.length = numBlocksPerFilter)
    (h : out.test col = true) (h' : inner.test col = true) :
    (out.inPlaceIntersection inner).length = numBlocksPerFilter ∧
      (out.inPlaceIntersection inner).test col = true := by
  refine ⟨by rw [length_inPlaceIntersection, hout, hinner, max_self], ?_⟩
  rw [test_inPlaceIntersection (hout ▸ hcol) (hinner ▸ hcol), h, h', Bool.true_and]

/-- The calls of `BlocksForKeysInto` by `getCandidateBlocksForFilterInto`, in their order. -/
def queries (e : EventMatcher) : List (List Bytes) :=
  (if e.contractAddressBytes.isEmpty then [] else [e.contractAddressBytes]) ++
    e.keysMap.mapIdx fun index kMap => positionKeys kMap index

/-- The calls one after the other: each narrows the candidates, until none is left. -/
def narrow (f : AggregatedBloomFilter) : List (List Bytes) → BitSet → BitSet → Except Fault BitSet
  | [], out, _ => .ok out
  | keys :: rest, out, innerMatch => do
    let innerMatch ← f.blocksForKeysInto locations keys (some innerMatch)
    let out := out.inPlaceIntersection innerMatch
    if out.isNone then .ok out else narrow f rest out innerMatch

theorem intersectPositions_eq_narrow (f : AggregatedBloomFilter) (index : ℕ) (kMaps : List FeltSet)
    (out innerMatch : BitSet) :
    intersectPositions locations f index kMaps out innerMatch =
      narrow locations f (kMaps.mapIdx fun i kMap => positionKeys kMap (index + i)) out innerMatch := by
  induction kMaps generalizing index out innerMatch with
  | nil => rfl
  | cons kMap kMaps ih =>
    rw [intersectPositions, List.mapIdx_cons, narrow]
    simp only [ih, Nat.add_assoc, Nat.add_comm 1, Nat.add_zero]

variable (e : EventMatcher)

theorem getCandidate_eq_narrow (f : AggregatedBloomFilter) (hout : out.length = numBlocksPerFilter) :
    e.getCandidateBlocksForFilterInto locations f (some out) =
      narrow locations f e.queries out.setAll (new numBlocksPerFilter) := by
  rw [getCandidateBlocksForFilterInto, if_neg (not_not.mpr hout), queries]
  split_ifs with hempty
  · simp only [intersectPositions_eq_narrow, Nat.zero_add, List.nil_append]
  · simp only [intersectPositions_eq_narrow, Nat.zero_add, List.singleton_append, narrow]

/-- Where the keys of an event are accepted, each position has no alternatives or the key of the event. -/
theorem mem_keys_of_match {eventKeys : List Felt} {kMaps : List FeltSet}
    (h : matchKeysLoop eventKeys kMaps = true) {i : ℕ} {kMap : FeltSet} {key : Felt}
    (hmap : kMaps[i]? = some kMap) (hkey : eventKeys[i]? = some key) :
    kMap.entries = [] ∨ key ∈ kMap.keys := by
  induction kMaps generalizing eventKeys i with
  | nil => simp at hmap
  | cons kMap' kMaps ih =>
    cases eventKeys with
    | nil => simp at hkey
    | cons key' eventKeys =>
      have hstep : (kMap'.entries = [] ∨ key' ∈ kMap'.keys) ∧ matchKeysLoop eventKeys kMaps = true := by
        rw [matchKeysLoop] at h
        split_ifs at h with hempty hnone
        · exact ⟨.inl (List.isEmpty_iff.mp hempty), h⟩
        · refine ⟨.inr ?_, h⟩
          rw [← AList.mem_keys, ← AList.lookup_isSome, Option.isSome_iff_ne_none]
          simpa using hnone
      cases i with
      | zero =>
        obtain rfl := Option.some.inj hmap
        obtain rfl := Option.some.inj hkey
        exact hstep.1
      | succ i => exact ih hstep.2 hmap hkey

/-- Every query of a matcher asks for all blocks, or for a key of an event that it accepts. -/
theorem queries_match (haddr : e.contractAddressBytes = e.contractAddresses.map feltBytes)
    (haccepts : e.accepts event = true) :
    ∀ keys ∈ e.queries, keys = [] ∨ ∃ key ∈ keys, key ∈ eventKeys event := by
  rw [accepts, Bool.and_eq_true, matchesEventKeys] at haccepts
  obtain ⟨haddress, hkeys⟩ := haccepts
  split_ifs at hkeys with hshort
  intro keys hmem
  rw [queries, List.mem_append, List.mem_mapIdx] at hmem
  rcases hmem with hmem | ⟨i, hi, rfl⟩
  · split_ifs at hmem with hempty
    · cases hmem
    · obtain rfl := List.mem_singleton.mp hmem
      rw [matchesAddress, Bool.or_eq_true, List.contains_eq_mem, decide_eq_true_eq] at haddress
      have hne : ¬ e.contractAddresses.isEmpty = true := by
        rw [haddr] at hempty
        simpa using hempty
      refine .inr ⟨feltBytes event.sender, ?_, List.mem_cons_self⟩
      rw [haddr]
      exact List.mem_map_of_mem (haddress.resolve_left hne)
  · have hi' : i < event.keys.length := hi.trans_le (Nat.not_lt.mp hshort)
    rcases mem_keys_of_match hkeys (List.getElem?_eq_getElem hi) (List.getElem?_eq_getElem hi')
      with hnone | hkey
    · left
      rw [positionKeys, AList.keys, hnone]
      rfl
    · refine .inr ⟨keyAndIndexBytes event.keys[i] i, List.mem_map.mpr ⟨_, hkey, rfl⟩,
        List.mem_cons_of_mem _ ?_⟩
      exact List.mem_mapIdx.mpr ⟨i, hi', rfl⟩

/-- Queries that the block answers keep it among the candidates. -/
theorem narrow_test (hcol : col < numBlocksPerFilter) {queries : List (List Bytes)}
    (hqueries : ∀ keys ∈ queries, keys = [] ∨ ∃ key ∈ keys, HasKey locations f col key)
    {innerMatch : BitSet} (hout : out.length = numBlocksPerFilter)
    (hinner : innerMatch.length = numBlocksPerFilter) (h : out.test col = true) :
    ∃ bits, narrow locations f queries out innerMatch = .ok bits ∧ bits.test col = true := by
  induction queries generalizing out innerMatch with
  | nil => exact ⟨out, rfl, h⟩
  | cons keys rest ih =>
    obtain ⟨inner, hok, hinnerlen, htest⟩ :=
      test_blocksForKeysInto locations hcol (hqueries keys List.mem_cons_self) hinner
    obtain ⟨hlen', htest'⟩ := test_intersection hcol hout hinnerlen h htest
    obtain ⟨bits, hbits, hbit⟩ :=
      ih (fun keys hkeys => hqueries keys (List.mem_cons_of_mem _ hkeys)) hlen' hinnerlen htest'
    refine ⟨bits, ?_, hbit⟩
    rw [narrow, hok, ok_bind, if_neg (by rw [isNone_of_test htest']; exact Bool.false_ne_true)]
    exact hbits

/-- A filter whose column for a block has the bits of an accepted event gives the block. -/
theorem getCandidate_test (haddr : e.contractAddressBytes = e.contractAddresses.map feltBytes)
    (hcol : col < numBlocksPerFilter) (haccepts : e.accepts event = true)
    (hhas : ∀ key ∈ eventKeys event, HasKey locations f col key) (hout : out.length = numBlocksPerFilter) :
    ∃ bits, e.getCandidateBlocksForFilterInto locations f (some out) = .ok bits ∧ bits.test col = true := by
  rw [getCandidate_eq_narrow locations e f hout]
  refine narrow_test locations hcol (fun keys hkeys => ?_) hout rfl (test_setAll (hout ▸ hcol))
  refine (e.queries_match haddr haccepts keys hkeys).imp_right fun hex => ?_
  obtain ⟨key, hkey, hevent⟩ := hex
  exact ⟨key, hkey, hhas key hevent⟩

end EventMatcher

/-- **Candidates are complete.** Whatever the receipts of a block, the matcher and the other calls on a
filter, if the bloom filter of the block was inserted at a block of the range that was not cleared afterwards,
and an event of the block is accepted, the candidates of the filter include the block. -/
theorem candidates_complete (locations : Bytes → ℕ → List ℕ) (receipts : List (List Event))
    (contractAddresses : List Felt) (keys : List (List Felt)) (fromBlock blockNumber : UInt64)
    (before after : List FilterOp) (out : BitSet)
    (hcovers : (newAggregatedFilter fromBlock).Covers blockNumber)
    (hafter : FilterOp.clear blockNumber ∉ after)
    (hevent : ∃ events ∈ receipts, ∃ event ∈ events,
      (newEventMatcher contractAddresses keys).accepts event = true)
    (hout : out.length = numBlocksPerFilter) :
    ∃ bits, (newEventMatcher contractAddresses keys).getCandidateBlocksForFilterInto locations
        (build fromBlock (before ++ .insert (some (eventsBloom locations receipts)) blockNumber :: after))
          (some out) = .ok bits ∧
      bits.test ((newAggregatedFilter fromBlock).column blockNumber) = true := by
  obtain ⟨events, hevents, event, hmem, haccepts⟩ := hevent
  have hfrom : (build fromBlock before).fromBlock = fromBlock := fromBlock_foldl_apply before _
  have hbefore : (build fromBlock before).Covers blockNumber := (covers_congr hfrom blockNumber).mpr hcovers
  obtain ⟨f, hinsert⟩ := insert_ok hbefore (eventsBloom_forEvents locations receipts).b
  obtain ⟨-, hfrom', hbits⟩ := insert_spec hinsert
  have hcolumn :
      (build fromBlock before).column blockNumber = (newAggregatedFilter fromBlock).column blockNumber := by
    rw [column, column, hfrom]
    rfl
  have hcolumn' : f.column blockNumber = (newAggregatedFilter fromBlock).column blockNumber := by
    rw [← hcolumn, column, column, hfrom']
  have hbuild :
    build fromBlock (before ++ .insert (some (eventsBloom locations receipts)) blockNumber :: after) =
      after.foldl FilterOp.apply f := by
    have hstep :
        (FilterOp.insert (some (eventsBloom locations receipts)) blockNumber).apply (build fromBlock before) =
        f := by
      rw [FilterOp.apply, hinsert]
      rfl
    rw [build, List.foldl_append, List.foldl_cons, ← hstep]
    rfl
  refine EventMatcher.getCandidate_test locations _ rfl hcovers.column_add.2 haccepts
    (fun key hkey index hindex => ?_) hout
  rw [hbuild, ← hcolumn']
  refine bit_foldl_apply hafter ((covers_congr hfrom' blockNumber).mpr hbefore) ?_
  rw [hcolumn', hbits, ← hcolumn, Option.any_some, testBits_eventsBloom locations hevents hmem hkey hindex]
  simp

/-- A block with one event, inserted between two others; a query for its address and its second key. -/
theorem candidates_complete_one :
    ∃ bits, (newEventMatcher [5] [[], [7, 8]]).getCandidateBlocksForFilterInto
      (fun key k => List.replicate k key.length)
        (build 8192
          ([.clear 8200] ++
          .insert (some (eventsBloom (fun key k => List.replicate k key.length) [[⟨5, [3, 8, 1]⟩]])) 8200 ::
          [.insert none 8201])) (some (new numBlocksPerFilter)) = .ok bits ∧
      bits.test ((newAggregatedFilter 8192).column 8200) = true := by
  refine candidates_complete _ [[⟨5, [3, 8, 1]⟩]] [5] [[], [7, 8]] 8192 8200 [.clear 8200] [.insert none 8201]
    _ (by decide) ?_
    ⟨[⟨5, [3, 8, 1]⟩], List.mem_singleton_self _, ⟨5, [3, 8, 1]⟩, List.mem_singleton_self _,
      by decide +kernel⟩ rfl
  simp

end Juno.EventFilter
