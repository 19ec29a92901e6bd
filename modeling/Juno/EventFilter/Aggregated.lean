import Juno.Core.Felt
import Juno.Lib.BigEndian
import Juno.Lib.BitSet
import Juno.Lib.Except
import Juno.Lib.Uvarint
import Mathlib

/-!
# Aggregated bloom filters

The bloom filters of the events of 8192 blocks are kept as one bit matrix: a row for every
bit of a bloom filter, a column for every block. A query for some keys intersects the rows that
a key hashes to and unites the results; what is left are the blocks that may have the key.

## The model

* `FilterView` — the block range with the rows; `BloomRows` are the two ways to keep the rows, decoded
  (`MemRows`) or as the bytes they are stored as (`BlobRows`).
* `AggregatedBloomFilter` — a view with decoded rows, with `insert`, `clear` and `marshalBinary`.

Slices and decoders panic where Go panics: `Fault` is a panic or an error. The hash functions of the
bloom library are a parameter: `locations key k` are the first `k` hashes of a key.
-/

namespace Juno.EventFilter

open Lib BigEndian List BitSet Option

variable {R : Type} {out : BitSet}

abbrev Bytes := List UInt8

/-! ### Constants -/

def numBlocksPerFilter : ℕ := 8192

def maxBlockOffsetPerFilter : UInt64 := 8191

def eventsBloomLength : ℕ := 8192

def eventsBloomHashFuncs : ℕ := 6

def wordsPerFilterRow : ℕ := (numBlocksPerFilter + 63) / 64

/-- `filterHeaderSize`: two block numbers and a count. -/
def filterHeaderSize : ℕ := 2 * 8 + 4

def filterRowLenSize : ℕ := 4

def filterBitsetLenSize : ℕ := 8

/-- `filterRowBlobLen`: a bit set as it is stored. -/
def filterRowBlobLen : ℕ := filterBitsetLenSize + wordsPerFilterRow * 8

def filterRowSize : ℕ := filterRowLenSize + filterRowBlobLen

/-! ### Errors -/

inductive FilterError where
  /-- `ErrAggregatedBloomFilterBlockOutOfRange`. -/
  | blockOutOfRange
  /-- `ErrBloomFilterSizeMismatch`. -/
  | sizeMismatch
  /-- `ErrMatchesBufferNil`. -/
  | matchesBufferNil
  /-- `ErrMatchesBufferSizeMismatch`. -/
  | matchesBufferSizeMismatch
  /-- `ErrBloomFilterHeaderTooShort`. -/
  | headerTooShort
  /-- `ErrBloomFilterRowCountMismatch`. -/
  | rowCountMismatch
  /-- `ErrBloomFilterLenMismatch`. -/
  | lenMismatch
  /-- `ErrBloomFilterRangeMismatch`. -/
  | rangeMismatch
  /-- `ErrBloomFilterRowBlobLenMismatch`. -/
  | rowBlobLenMismatch
  /-- `ErrBloomFilterRowBitsetLenMismatch`. -/
  | rowBitsetLenMismatch
  deriving DecidableEq, Repr

/-- How a call ends if it does not return. -/
inductive Fault where
  /-- An index or a slice out of bounds. -/
  | panic
  | err (e : FilterError)
  deriving DecidableEq, Repr

variable (data : Bytes)

/-- `data[start:stop]`. -/
def slice (start stop : ℕ) : Except Fault Bytes :=
  if start ≤ stop ∧ stop ≤ data.length then .ok ((data.drop start).take (stop - start)) else .error .panic

/-- `binary.BigEndian.Uint32`. -/
def uint32 (bytes : Bytes) : Except Fault ℕ :=
  if 4 ≤ bytes.length then .ok (read (bytes.take 4)) else .error .panic

/-- `binary.BigEndian.Uint64`. -/
def uint64 (bytes : Bytes) : Except Fault UInt64 :=
  if 8 ≤ bytes.length then .ok (UInt64.ofNat (read (bytes.take 8))) else .error .panic

/-! ### Rows -/

/-- `memRows`: a bit set of all blocks for every bit of a bloom filter. -/
@[ext] structure MemRows where
  rows : List BitSet
  rows_length : rows.length = eventsBloomLength
  row_length : ∀ row ∈ rows, row.length = numBlocksPerFilter

/-- `blobRows`: the bytes of a stored filter. -/
structure BlobRows where
  blob : Bytes

class BloomRows (R : Type) where
  intersectRows : R → List ℕ → List Word → Except Fault (List Word)
  unmarshalRows : Bytes → Except Fault R

/-- One word after another: `matchWords[w] &= row[w]`. -/
def intersectWords (matchWords row : List Word) : List Word := List.zipWith (· &&& ·) matchWords row

def MemRows.intersectRows (r : MemRows) (indices : List ℕ) (matchWords : List Word) :
    Except Fault (List Word) :=
  indices.foldlM (fun words index =>
    match r.rows[index]? with
    | none => .error .panic
    | some row => .ok (intersectWords words row.words)) matchWords

/-- `rowWordBytes`: the bytes of the words of a row, if its two lengths are right. -/
def rowWordBytes (blob : Bytes) (index : ℕ) : Except Fault Bytes := do
  let offset := filterHeaderSize + index * filterRowSize
  let blobLen ← uint32 (← slice blob offset blob.length)
  if blobLen ≠ filterRowBlobLen then .error (.err .rowBlobLenMismatch)
  else do
    let offset := offset + filterRowLenSize
    let bitsetLen ← uint64 (← slice blob offset blob.length)
    if bitsetLen.toNat ≠ numBlocksPerFilter then .error (.err .rowBitsetLenMismatch)
    else do
      let offset := offset + filterBitsetLenSize
      slice blob offset (offset + wordsPerFilterRow * 8)

/-- The words of a row: `binary.BigEndian.Uint64(wordBytes[w*8:])` for every `w`. -/
def rowWords (wordBytes : Bytes) : Except Fault (List Word) :=
  (List.range wordsPerFilterRow).mapM fun w => do
    let word ← uint64 (← slice wordBytes (w * 8) wordBytes.length)
    .ok word.toBitVec

def BlobRows.intersectRows (r : BlobRows) (indices : List ℕ) (matchWords : List Word) :
    Except Fault (List Word) :=
  indices.foldlM (fun words index => do
    let wordBytes ← rowWordBytes r.blob index
    let row ← rowWords wordBytes
    .ok (intersectWords words row)) matchWords

def decodeRow (blob : Bytes) (index : ℕ) :
    Except Fault {row : BitSet // row.length = numBlocksPerFilter} := do
  let wordBytes ← rowWordBytes blob index
  let words ← rowWords wordBytes
  if h : wordsNeeded numBlocksPerFilter = words.length then .ok ⟨⟨numBlocksPerFilter, words, h.symm⟩, rfl⟩
  else .error .panic

def MemRows.unmarshalRows : Except Fault MemRows := do
  let rows ← (List.range eventsBloomLength).mapM (decodeRow data)
  if h : rows.length = eventsBloomLength then
    .ok ⟨rows.map Subtype.val, by rw [List.length_map, h], fun row hrow => by
      obtain ⟨r, -, rfl⟩ := List.mem_map.mp hrow
      exact r.property⟩
  else .error .panic

/-- `blobRows.unmarshalRows`: the bytes are kept. -/
def BlobRows.unmarshalRows : Except Fault BlobRows := .ok ⟨data⟩

instance : BloomRows MemRows := ⟨MemRows.intersectRows, MemRows.unmarshalRows⟩

instance : BloomRows BlobRows := ⟨BlobRows.intersectRows, BlobRows.unmarshalRows⟩

/-! ### Views -/

structure FilterView (R : Type) where
  bitmap : R
  fromBlock : UInt64
  toBlock : UInt64
  range : toBlock = fromBlock + maxBlockOffsetPerFilter

theorem FilterView.ext {v w : FilterView R} (hbitmap : v.bitmap = w.bitmap)
    (hfrom : v.fromBlock = w.fromBlock) : v = w := by
  have hto : v.toBlock = w.toBlock := by rw [v.range, w.range, hfrom]
  cases v
  cases w
  simp only at hbitmap hfrom hto
  subst hbitmap hfrom hto
  rfl

abbrev AggregatedBloomFilterView := FilterView BlobRows

abbrev AggregatedBloomFilter := FilterView MemRows

variable {f f' : AggregatedBloomFilter}

section

variable {R : Type} [BloomRows R] (locations : Bytes → ℕ → List ℕ)

def keyIndices (key : Bytes) : List ℕ := (locations key eventsBloomHashFuncs).map (· % eventsBloomLength)

/-- The blocks of one key: all of them, intersected with the rows of the key. The bit set shares the words. -/
def FilterView.blocksForKey (v : FilterView R) (key : Bytes) : Except Fault BitSet := do
  let innerWords ← BloomRows.intersectRows v.bitmap (keyIndices locations key)
    (BitSet.new numBlocksPerFilter).setAll.words
  match BitSet.fromWithLength numBlocksPerFilter innerWords with
  | none => .error .panic
  | some innerMatches => .ok innerMatches

def FilterView.blocksForKeysInto (v : FilterView R) (keys : List Bytes) (out : Option BitSet) :
    Except Fault BitSet :=
  match out with
  | none => .error (.err .matchesBufferNil)
  | some out =>
    if out.length ≠ numBlocksPerFilter then .error (.err .matchesBufferSizeMismatch)
    else if keys = [] then .ok out.setAll
    else keys.foldlM (fun out key => do
      let innerMatches ← v.blocksForKey locations key
      .ok (out.inPlaceUnion innerMatches)) out.clearAll

end

def parseHeader (data : Bytes) : Except Fault {p : UInt64 × UInt64 // p.2 = p.1 + maxBlockOffsetPerFilter} :=
  if data.length < filterHeaderSize then .error (.err .headerTooShort)
  else do
    let count ← uint32 (← slice data (2 * 8) filterHeaderSize)
    if count ≠ eventsBloomLength then .error (.err .rowCountMismatch)
    else if data.length ≠ filterHeaderSize + count * filterRowSize then .error (.err .lenMismatch)
    else do
      let fromBlock ← uint64 (← slice data 0 8)
      let toBlock ← uint64 (← slice data 8 (2 * 8))
      if h : toBlock = fromBlock + maxBlockOffsetPerFilter then .ok ⟨(fromBlock, toBlock), h⟩
      else .error (.err .rangeMismatch)

def FilterView.unmarshalBinary (R : Type) [BloomRows R] (data : Bytes) : Except Fault (FilterView R) := do
  let header ← parseHeader data
  let bitmap ← BloomRows.unmarshalRows data
  .ok ⟨bitmap, header.1.1, header.1.2, header.2⟩

/-! ### Aggregated filters -/

variable {n : UInt64}

def makeBitset : BitSet := ((BitSet.new 0).set (numBlocksPerFilter - 1)).clear (numBlocksPerFilter - 1)

theorem makeBitset_eq : makeBitset = BitSet.new numBlocksPerFilter :=
  BitSet.ext (by decide) (by decide +kernel)

def newAggregatedFilter (fromBlock : UInt64) : AggregatedBloomFilter where
  bitmap := ⟨List.replicate eventsBloomLength makeBitset, List.length_replicate, fun row hrow => by
    rw [List.eq_of_mem_replicate hrow, makeBitset_eq, BitSet.length_new]⟩
  fromBlock := fromBlock
  toBlock := fromBlock + maxBlockOffsetPerFilter
  range := rfl

def MemRows.setBit (r : MemRows) (index col : ℕ) (hcol : col < numBlocksPerFilter) : MemRows where
  rows := r.rows.modify index (·.set col)
  rows_length := by rw [List.length_modify, r.rows_length]
  row_length row hrow := by
    obtain ⟨i, hi, hget⟩ := List.mem_iff_getElem.mp hrow
    rw [List.length_modify] at hi
    have hlen := r.row_length _ (List.getElem_mem hi)
    rw [List.getElem_modify] at hget
    split_ifs at hget with hidx
    · rw [← hget, BitSet.length_set (hlen ▸ hcol), hlen]
    · rw [← hget, hlen]

def MemRows.clearBit (r : MemRows) (index col : ℕ) : MemRows where
  rows := r.rows.modify index (·.clear col)
  rows_length := by rw [List.length_modify, r.rows_length]
  row_length row hrow := by
    obtain ⟨i, hi, hget⟩ := List.mem_iff_getElem.mp hrow
    rw [List.length_modify] at hi
    have hlen := r.row_length _ (List.getElem_mem hi)
    rw [List.getElem_modify] at hget
    split_ifs at hget with hidx
    · rw [← hget, BitSet.length_clear, hlen]
    · rw [← hget, hlen]

def FilterView.Covers (v : FilterView R) (blockNumber : UInt64) : Prop :=
  v.fromBlock ≤ blockNumber ∧ blockNumber ≤ v.toBlock

instance {R : Type} (v : FilterView R) (blockNumber : UInt64) : Decidable (v.Covers blockNumber) :=
  inferInstanceAs (Decidable (_ ∧ _))

/-- The column of a block: `relativeBlockNumber`. -/
def FilterView.column (v : FilterView R) (blockNumber : UInt64) : ℕ := (blockNumber - v.fromBlock).toNat

/-- The column of a block in the range. A range that overflows covers no block. -/
theorem FilterView.Covers.column_add {v : FilterView R} (h : v.Covers n) :
    v.fromBlock.toNat + v.column n = n.toNat ∧ v.column n < numBlocksPerFilter := by
  obtain ⟨hfrom, hto⟩ := h
  have hcol : v.column n = n.toNat - v.fromBlock.toNat := UInt64.toNat_sub_of_le _ _ hfrom
  rw [UInt64.le_iff_toNat_le] at hfrom hto
  have hsum : v.toBlock.toNat = (v.fromBlock.toNat + 8191) % 2 ^ 64 := by
    rw [v.range, UInt64.toNat_add]
    rfl
  have hlt := v.fromBlock.toNat_lt
  rw [numBlocksPerFilter]
  omega

@[ext] structure BloomFilter where
  /-- `m`: the number of bits. -/
  m : ℕ
  /-- `k`: the number of hash functions. -/
  k : ℕ
  b : BitSet

namespace AggregatedBloomFilter

variable (f)

/-- `Insert`. The set bits of a bloom filter of the right length are rows of the matrix. -/
def insert (filter : Option BloomFilter) (blockNumber : UInt64) : Except FilterError AggregatedBloomFilter :=
  if h : f.Covers blockNumber then
    match filter with
    | none => .ok f
    | some filter =>
      if filter.b.length ≠ eventsBloomLength then .error .sizeMismatch
      else .ok { f with
        bitmap :=
          filter.b.setBits.foldl (fun r index => r.setBit index (f.column blockNumber) h.column_add.2)
            f.bitmap }
  else .error .blockOutOfRange

def clear (blockNumber : UInt64) : Except FilterError AggregatedBloomFilter :=
  if f.Covers blockNumber then
    .ok { f with
      bitmap :=
        (List.range eventsBloomLength).foldl (fun r index => r.clearBit index (f.column blockNumber))
          f.bitmap }
  else .error .blockOutOfRange

variable {f}

/-- `bitset.BitSet.MarshalBinary`: the length and the words. -/
def marshalRow (row : BitSet) : Bytes :=
  put 8 row.length ++ row.words.flatMap fun w => put 8 w.toNat

def marshalBinary (f : AggregatedBloomFilter) : Bytes :=
  put 8 f.fromBlock.toNat ++ (put 8 f.toBlock.toNat ++ (put 4 f.bitmap.rows.length ++
    f.bitmap.rows.flatMap fun row => put 4 (marshalRow row).length ++ marshalRow row))

end AggregatedBloomFilter

/-! ### Bloom filters of events -/

/-- The parts of `core.Event` that a filter reads. -/
structure Event where
  sender : Felt
  keys : List Felt
  deriving DecidableEq

def feltBytes (f : Felt) : Bytes := put 32 f.val

/-- `binary.AppendVarint(keyBytes[:], int64(index))`; the index is not negative. -/
def keyAndIndexBytes (key : Felt) (index : ℕ) : Bytes := feltBytes key ++ Uvarint.put (2 * index)

section

variable (locations : Bytes → ℕ → List ℕ)

def BloomFilter.new (m k : ℕ) : BloomFilter := ⟨max 1 m, max 1 k, BitSet.new m⟩

/-- `TestOrAdd`, less its answer. -/
def BloomFilter.testOrAdd (f : BloomFilter) (data : Bytes) : BloomFilter :=
  { f with b := (locations data f.k).foldl (fun b l => b.set (l % f.m)) f.b }

/-- `Merge`: of filters of the same size, with as many hash functions. -/
def BloomFilter.merge (f g : BloomFilter) : Option BloomFilter :=
  if f.m = g.m ∧ f.k = g.k then some { f with b := f.b.inPlaceUnion g.b } else none

/-- The keys that `EventsBloom` adds for an event. -/
def eventKeys (event : Event) : List Bytes :=
  feltBytes event.sender :: event.keys.mapIdx fun index key => keyAndIndexBytes key index

def eventsBloom (receipts : List (List Event)) : BloomFilter :=
  receipts.foldl (fun filter events =>
    events.foldl (fun filter event => (eventKeys event).foldl (BloomFilter.testOrAdd locations) filter)
      filter)
    (BloomFilter.new eventsBloomLength eventsBloomHashFuncs)

end

/-! ### Bits of the matrix -/

def MemRows.bit (r : MemRows) (index col : ℕ) : Bool := (r.rows[index]?).any (·.test col)

variable {r : MemRows} {index : ℕ}

theorem MemRows.row (h : index < eventsBloomLength) :
    ∃ row, r.rows[index]? = some row ∧ row.length = numBlocksPerFilter := by
  rw [← r.rows_length] at h
  exact ⟨_, getElem?_eq_getElem h, r.row_length _ (getElem_mem h)⟩

theorem MemRows.bit_setBit {col : ℕ} {hcol : col < numBlocksPerFilter} (h : index < eventsBloomLength)
    (j d : ℕ) : (r.setBit index col hcol).bit j d = (decide (j = index ∧ d = col) || r.bit j d) := by
  obtain ⟨row, hrow, hlen⟩ := r.row h
  by_cases hj : index = j
  · subst hj
    rw [bit, bit, setBit, getElem?_modify_eq, hrow, Option.map_eq_map, Option.map_some, Option.any_some,
      any_some, test_set (hlen ▸ hcol)]
    simp
  · have hne : ¬ j = index := fun heq => hj heq.symm
    rw [bit, bit, setBit, getElem?_modify_ne _ _ hj, decide_eq_false fun heq => hne heq.1,
      Bool.false_or]

theorem MemRows.bit_clearBit (r : MemRows) (index col j d : ℕ) :
    (r.clearBit index col).bit j d = (!decide (j = index ∧ d = col) && r.bit j d) := by
  by_cases hj : index = j
  · subst hj
    rw [bit, bit, clearBit, getElem?_modify_eq]
    cases hrow : r.rows[index]? with
    | none => simp
    | some row =>
      rw [Option.map_eq_map, Option.map_some, Option.any_some, Option.any_some, test_clear]
      simp
  · have hne : ¬ j = index := fun heq => hj heq.symm
    rw [bit, bit, clearBit, getElem?_modify_ne _ _ hj, decide_eq_false fun heq => hne heq.1, Bool.not_false,
      Bool.true_and]

theorem MemRows.bit_foldl_setBit {col : ℕ} (hcol : col < numBlocksPerFilter) {l : List ℕ}
    (hl : ∀ index ∈ l, index < eventsBloomLength) (r : MemRows) (j d : ℕ) :
    (l.foldl (fun r index => r.setBit index col hcol) r).bit j d =
      (decide (j ∈ l ∧ d = col) || r.bit j d) := by
  induction l generalizing r with
  | nil => simp
  | cons index l ih =>
    rw [foldl_cons, ih (fun i hi => hl i (by simp [hi])), bit_setBit (hl index (by simp)), ← Bool.or_assoc]
    congr 1
    rw [Bool.eq_iff_iff]
    simp only [Bool.or_eq_true, decide_eq_true_eq, mem_cons]
    tauto

theorem MemRows.bit_foldl_clearBit (col : ℕ) (l : List ℕ) (r : MemRows) (j d : ℕ) :
    (l.foldl (fun r index => r.clearBit index col) r).bit j d = (!decide (j ∈ l ∧ d = col) && r.bit j d) := by
  induction l generalizing r with
  | nil => simp
  | cons index l ih =>
    rw [foldl_cons, ih, bit_clearBit, ← Bool.and_assoc]
    congr 1
    rw [Bool.eq_iff_iff]
    simp only [Bool.and_eq_true, Bool.not_eq_true', decide_eq_false_iff_not, mem_cons]
    tauto

theorem MemRows.bit_of_le (h : eventsBloomLength ≤ index) (col : ℕ) : r.bit index col = false := by
  rw [bit, getElem?_eq_none (r.rows_length.trans_le h), any_none]

theorem MemRows.eq_of_bit {r' : MemRows} (h : ∀ j d, r.bit j d = r'.bit j d) : r = r' := by
  refine MemRows.ext (ext_getElem (by rw [r.rows_length, r'.rows_length]) fun j hj hj' => ?_)
  have hlen := r.row_length _ (getElem_mem hj)
  have hlen' := r'.row_length _ (getElem_mem hj')
  refine eq_of_test (hlen.trans hlen'.symm) (by rw [hlen]; rfl) fun i _ => ?_
  have hbit := h j i
  rwa [bit, bit, getElem?_eq_getElem hj, getElem?_eq_getElem hj', any_some, any_some] at hbit

namespace AggregatedBloomFilter

theorem insert_spec {filter : Option BloomFilter} (h : f.insert filter n = .ok f') :
    f.Covers n ∧ f'.fromBlock = f.fromBlock ∧ ∀ j d, f'.bitmap.bit j d =
      ((filter.any fun filter => filter.b.test j && decide (d = f.column n)) || f.bitmap.bit j d) := by
  rw [insert] at h
  split_ifs at h with hcovers
  cases filter with
  | none =>
    obtain rfl := Except.ok.inj h
    exact ⟨hcovers, rfl, fun j d => by simp⟩
  | some filter =>
    simp only at h
    split_ifs at h with hlen
    obtain rfl := Except.ok.inj h
    refine ⟨hcovers, rfl, fun j d => ?_⟩
    have hrows : ∀ index ∈ filter.b.setBits, index < eventsBloomLength := by
      intro index hindex
      rw [← not_not.mp hlen]
      exact mem_range.mp (mem_of_mem_filter hindex)
    rw [MemRows.bit_foldl_setBit _ hrows, any_some, Bool.decide_and]
    simp only [mem_setBits, Bool.decide_eq_true]

/-- A bloom filter of the right length is inserted at any block of the range. -/
theorem insert_ok {filter : BloomFilter} (h : f.Covers n)
    (hlen : filter.b.length = eventsBloomLength) : ∃ f', f.insert (some filter) n = .ok f' := by
  rw [insert, dif_pos h]
  simp only
  rw [if_neg (not_not.mpr hlen)]
  exact ⟨_, rfl⟩

theorem clear_spec (h : f.clear n = .ok f') :
    f.Covers n ∧ f'.fromBlock = f.fromBlock ∧ ∀ j d,
      f'.bitmap.bit j d = (!decide (d = f.column n) && f.bitmap.bit j d) := by
  rw [clear] at h
  split_ifs at h with hcovers
  obtain rfl := Except.ok.inj h
  refine ⟨hcovers, rfl, fun j d => ?_⟩
  rw [MemRows.bit_foldl_clearBit]
  by_cases hj : j < eventsBloomLength
  · simp only [mem_range, hj, true_and]
  · rw [MemRows.bit_of_le (Nat.not_lt.mp hj), Bool.and_false, Bool.and_false]

theorem clear_ok (h : f.Covers n) : ∃ f', f.clear n = .ok f' := by
  rw [clear, if_pos h]
  exact ⟨_, rfl⟩

end AggregatedBloomFilter

@[simp] theorem bit_newAggregatedFilter (fromBlock : UInt64) (j d : ℕ) :
    (newAggregatedFilter fromBlock).bitmap.bit j d = false := by
  rw [MemRows.bit, newAggregatedFilter]
  simp only [getElem?_replicate]
  split_ifs
  · rw [any_some, makeBitset_eq, test_new]
  · rfl

/-! ### Queries -/

def wordBit (words : List Word) (i : ℕ) : Bool := (words.getD (i / 64) 0).getLsbD (i % 64)

theorem wordBit_intersectWords {words row : List Word} {i : ℕ} (hi : i / 64 < words.length)
    (hlen : row.length = words.length) :
    wordBit (intersectWords words row) i = (wordBit words i && wordBit row i) := by
  rw [wordBit, wordBit, wordBit, intersectWords, getD_eq_getElem?_getD, getD_eq_getElem?_getD,
    getD_eq_getElem?_getD, getElem?_zipWith, getElem?_eq_getElem hi, getElem?_eq_getElem (hlen ▸ hi)]
  exact BitVec.getLsbD_and

theorem length_intersectWords {words row : List Word} (hlen : row.length = words.length) :
    (intersectWords words row).length = words.length := by
  rw [intersectWords, length_zipWith, hlen, Nat.min_self]

theorem wordsNeeded_row : wordsNeeded numBlocksPerFilter = wordsPerFilterRow := rfl

theorem MemRows.intersectRows_spec (r : MemRows) {indices : List ℕ}
    (hindices : ∀ index ∈ indices, index < eventsBloomLength) {words : List Word}
    (hlen : words.length = wordsPerFilterRow) :
    ∃ words', r.intersectRows indices words = .ok words' ∧ words'.length = wordsPerFilterRow ∧
      ∀ i < numBlocksPerFilter,
        wordBit words' i = (wordBit words i && indices.all fun index => r.bit index i) := by
  induction indices generalizing words with
  | nil => exact ⟨words, rfl, hlen, fun i _ => by rw [all_nil, Bool.and_true]⟩
  | cons index indices ih =>
    obtain ⟨row, hrow, hrowlen⟩ := r.row (hindices index (by simp))
    have hwords : row.words.length = words.length := by
      rw [row.words_length, hrowlen, wordsNeeded_row, hlen]
    obtain ⟨words', hok, hlen', hbits⟩ := ih (fun i hi => hindices i (by simp [hi]))
      ((length_intersectWords hwords).trans hlen)
    refine ⟨words', ?_, hlen', fun i hi => ?_⟩
    · rw [intersectRows, foldlM_cons, hrow]
      exact hok
    · have hword : i / 64 < words.length := by
        rw [hlen, wordsPerFilterRow, numBlocksPerFilter] at *
        omega
      rw [hbits i hi, wordBit_intersectWords hword hwords, all_cons, MemRows.bit, hrow, any_some,
        test_eq (hrowlen ▸ hi), Bool.and_assoc]
      rfl

section

variable (locations : Bytes → ℕ → List ℕ)

theorem keyIndices_lt (key : Bytes) : ∀ index ∈ keyIndices locations key, index < eventsBloomLength := by
  intro index hindex
  obtain ⟨l, -, rfl⟩ := mem_map.mp hindex
  exact Nat.mod_lt _ (by decide)

section

variable (f : AggregatedBloomFilter)

theorem AggregatedBloomFilter.blocksForKey_spec (key : Bytes) :
    ∃ bits, f.blocksForKey locations key = .ok bits ∧ bits.length = numBlocksPerFilter ∧
      ∀ i < numBlocksPerFilter, bits.test i = (keyIndices locations key).all
        fun index => f.bitmap.bit index i := by
  have hall := (new numBlocksPerFilter).setAll.words_length
  obtain ⟨words, hok, hlen, hbits⟩ := f.bitmap.intersectRows_spec (keyIndices_lt locations key) hall
  refine ⟨⟨numBlocksPerFilter, words, hlen⟩, ?_, rfl, fun i hi => ?_⟩
  · have hrows : BloomRows.intersectRows f.bitmap (keyIndices locations key)
        (new numBlocksPerFilter).setAll.words = .ok words := hok
    rw [FilterView.blocksForKey, hrows, ok_bind, fromWithLength_eq hlen]
  · have hone := test_setAll (b := new numBlocksPerFilter) hi
    rw [test_eq hi] at hone
    rw [test_eq hi]
    exact (hbits i hi).trans (by rw [wordBit, hone, Bool.true_and])

theorem AggregatedBloomFilter.foldlM_blocksForKey (keys : List Bytes)
    (hout : out.length = numBlocksPerFilter) :
    ∃ bits, keys.foldlM (fun out key => do
        let innerMatches ← f.blocksForKey locations key
        .ok (out.inPlaceUnion innerMatches)) out = .ok bits ∧ bits.length = numBlocksPerFilter ∧
      ∀ i < numBlocksPerFilter, bits.test i = (out.test i ||
        keys.any fun key => (keyIndices locations key).all fun index => f.bitmap.bit index i) := by
  induction keys generalizing out with
  | nil => exact ⟨out, rfl, hout, fun i _ => by rw [any_nil, Bool.or_false]⟩
  | cons key keys ih =>
    obtain ⟨inner, hinner, hlen, htest⟩ := f.blocksForKey_spec locations key
    have hunion : (out.inPlaceUnion inner).length = numBlocksPerFilter := by
      rw [length_inPlaceUnion, hout, hlen, max_self]
    obtain ⟨bits, hok, hbitslen, hbits⟩ := ih hunion
    refine ⟨bits, ?_, hbitslen, fun i hi => ?_⟩
    · rw [foldlM_cons, hinner]
      exact hok
    · rw [hbits i hi, test_inPlaceUnion (hout ▸ hi) (hlen ▸ hi), htest i hi, any_cons, Bool.or_assoc]

/-- **The blocks of a query**: all of them without keys, and otherwise those whose column has every bit of
some key. -/
theorem AggregatedBloomFilter.blocksForKeysInto_spec (keys : List Bytes)
    (hout : out.length = numBlocksPerFilter) :
    ∃ bits, f.blocksForKeysInto locations keys (some out) = .ok bits ∧ bits.length = numBlocksPerFilter ∧
      ∀ i < numBlocksPerFilter, bits.test i = (keys.isEmpty ||
        keys.any fun key => (keyIndices locations key).all fun index => f.bitmap.bit index i) := by
  rw [FilterView.blocksForKeysInto, if_neg (not_not.mpr hout)]
  split_ifs with hkeys
  · refine ⟨_, rfl, hout, fun i hi => ?_⟩
    rw [test_setAll (hout ▸ hi), hkeys, isEmpty_nil, Bool.true_or]
  · have hclear : out.clearAll.length = numBlocksPerFilter := hout
    obtain ⟨bits, hok, hlen, hbits⟩ := f.foldlM_blocksForKey locations keys hclear
    refine ⟨bits, hok, hlen, fun i hi => ?_⟩
    rw [hbits i hi, test_clearAll, Bool.false_or, isEmpty_eq_false_iff.mpr hkeys, Bool.false_or]

end

end

end Juno.EventFilter
