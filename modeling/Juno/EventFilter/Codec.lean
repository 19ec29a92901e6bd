import Juno.EventFilter.Aggregated
import Mathlib

/-!
# Stored filters

An aggregated filter is stored as a header and its rows, each with two lengths in front. A query
may decode the whole of it or read the rows it needs in place.

## What is proved

* `unmarshalBinary_marshalBinary` — **decoding undoes encoding**.
-/

namespace Juno.EventFilter

open Lib BigEndian FilterView List BitSet Except MemRows

variable {row : BitSet} {bytes : Bytes} {f : AggregatedBloomFilter} {indices : List ℕ}
  {words : List Word} {r : MemRows}

def storedLength : ℕ := filterHeaderSize + eventsBloomLength * filterRowSize

/-- The bytes of a row in a stored filter start here. -/
def rowOffset (index : ℕ) : ℕ := filterHeaderSize + index * filterRowSize

variable (data : Bytes)

def blobLenAt (index : ℕ) : ℕ := read ((data.drop (rowOffset index)).take 4)

/-- The length of the bit set of a row. -/
def bitsetLenAt (index : ℕ) : ℕ := read ((data.drop (rowOffset index + 4)).take 8)

def MalformedRow (index : ℕ) : Prop :=
  blobLenAt data index ≠ filterRowBlobLen ∨ bitsetLenAt data index ≠ numBlocksPerFilter

/-! ### Reading -/

variable {data : Bytes} {index start : ℕ}

theorem slice_eq {stop : ℕ} (h : start ≤ stop) (h' : stop ≤ data.length) :
    slice data start stop = .ok ((data.drop start).take (stop - start)) := by
  rw [slice, if_pos ⟨h, h'⟩]

theorem slice_rest (h : start ≤ data.length) : slice data start data.length = .ok (data.drop start) := by
  rw [slice_eq h le_rfl, take_of_length_le (by rw [length_drop])]

theorem uint32_eq (h : 4 ≤ bytes.length) : uint32 bytes = .ok (read (bytes.take 4)) := by
  rw [uint32, if_pos h]

theorem uint64_eq (h : 8 ≤ bytes.length) : uint64 bytes = .ok (UInt64.ofNat (read (bytes.take 8))) := by
  rw [uint64, if_pos h]

theorem read_take_lt (bytes : Bytes) (k : ℕ) : read (bytes.take k) < 256 ^ k :=
  (read_lt _).trans_le (Nat.pow_le_pow_right (by decide) (length_take_le _ _))

theorem rowOffset_add_le (hdata : data.length = storedLength) (hindex : index < eventsBloomLength) :
    rowOffset index + filterRowSize ≤ data.length := by
  have hmul : (index + 1) * filterRowSize ≤ eventsBloomLength * filterRowSize := Nat.mul_le_mul_right _ hindex
  rw [hdata, rowOffset, storedLength]
  rw [Nat.add_mul, Nat.one_mul] at hmul
  omega

/-- Reading the words of a row in bytes of the right length: an error exactly if one of its lengths is
wrong. -/
theorem rowWordBytes_eq (hdata : data.length = storedLength) (hindex : index < eventsBloomLength) :
    rowWordBytes data index =
      if blobLenAt data index ≠ filterRowBlobLen then .error (.err .rowBlobLenMismatch)
      else if bitsetLenAt data index ≠ numBlocksPerFilter then .error (.err .rowBitsetLenMismatch)
      else .ok ((data.drop (rowOffset index + 12)).take (wordsPerFilterRow * 8)) := by
  have hle := rowOffset_add_le hdata hindex
  have hsize : filterRowSize = 12 + wordsPerFilterRow * 8 := rfl
  have hstart : filterHeaderSize + index * filterRowSize = rowOffset index := rfl
  have hblob : uint32 (data.drop (rowOffset index)) = .ok (blobLenAt data index) := by
    rw [uint32_eq (by rw [length_drop]; omega), blobLenAt]
  have hbitset : uint64 (data.drop (rowOffset index + filterRowLenSize)) =
      .ok (UInt64.ofNat (bitsetLenAt data index)) := by
    rw [filterRowLenSize, uint64_eq (by rw [length_drop]; omega), bitsetLenAt]
  have htoNat : (UInt64.ofNat (bitsetLenAt data index)).toNat = bitsetLenAt data index :=
    UInt64.toNat_ofNat_of_lt' (read_take_lt _ 8)
  have hrest : rowOffset index + filterRowLenSize ≤ data.length := by
    rw [filterRowLenSize]
    omega
  have hwords : slice data (rowOffset index + filterRowLenSize + filterBitsetLenSize)
      (rowOffset index + filterRowLenSize + filterBitsetLenSize + wordsPerFilterRow * 8) =
        .ok ((data.drop (rowOffset index + 12)).take (wordsPerFilterRow * 8)) := by
    rw [slice_eq (Nat.le_add_right _ _) (by rw [filterRowLenSize, filterBitsetLenSize]; omega),
      Nat.add_sub_cancel_left]
    rfl
  rw [rowWordBytes]
  simp only [hstart]
  rw [slice_rest (by omega), ok_bind, hblob, ok_bind]
  split_ifs with h₁ h₂
  · rfl
  · rw [slice_rest hrest, ok_bind, hbitset, ok_bind, htoNat, if_pos h₂]
  · rw [slice_rest hrest, ok_bind, hbitset, ok_bind, htoNat, if_neg h₂, hwords]

/-- The words that bytes of the right length spell. -/
def wordsAt (bytes : Bytes) : List Word :=
  (List.range wordsPerFilterRow).map fun w => BitVec.ofNat 64 (read ((bytes.drop (w * 8)).take 8))

theorem length_wordsAt (bytes : Bytes) : (wordsAt bytes).length = wordsPerFilterRow := by
  rw [wordsAt, length_map, length_range]

theorem rowWords_eq (h : bytes.length = wordsPerFilterRow * 8) : rowWords bytes = .ok (wordsAt bytes) := by
  rw [rowWords, mapM_eq_ok, wordsAt, forall₂_map_right_iff]
  refine forall₂_same.mpr fun w hw => ?_
  rw [mem_range] at hw
  rw [slice_rest (by omega), ok_bind, uint64_eq (by rw [length_drop]; omega), ok_bind]
  rfl

/-- A row that can be read has the words of its bytes; a row whose lengths are right can be read. -/
theorem row_cases (hdata : data.length = storedLength) (hindex : index < eventsBloomLength) :
    (MalformedRow data index ∧ ∃ e, rowWordBytes data index = .error (.err e)) ∨
      ¬ MalformedRow data index ∧ ∃ bytes, rowWordBytes data index = .ok bytes ∧
        rowWords bytes = .ok (wordsAt bytes) := by
  have hle := rowOffset_add_le hdata hindex
  have hsize : filterRowSize = 12 + wordsPerFilterRow * 8 := rfl
  rw [rowWordBytes_eq hdata hindex]
  split_ifs with h₁ h₂
  · exact .inl ⟨.inl h₁, _, rfl⟩
  · exact .inl ⟨.inr h₂, _, rfl⟩
  · refine .inr ⟨fun h => h.elim h₁ h₂, _, rfl, rowWords_eq ?_⟩
    rw [length_take, length_drop]
    omega

/-! ### Headers -/

/-- The block number that stands in the header at an offset. -/
def numberAt (data : Bytes) (start : ℕ) : UInt64 := .ofNat (read ((data.drop start).take 8))

/-- Reading a header: the checks, in order, without a panic. -/
theorem parseHeader_eq (data : Bytes) : parseHeader data =
    if data.length < filterHeaderSize then .error (.err .headerTooShort)
    else if read ((data.drop 16).take 4) ≠ eventsBloomLength then .error (.err .rowCountMismatch)
    else if data.length ≠ storedLength then .error (.err .lenMismatch)
    else if h : numberAt data 8 = numberAt data 0 + maxBlockOffsetPerFilter
      then .ok ⟨(numberAt data 0, numberAt data 8), h⟩
    else .error (.err .rangeMismatch) := by
  have hsize : filterHeaderSize = 20 := rfl
  by_cases hshort : data.length < filterHeaderSize
  · rw [parseHeader, if_pos hshort, if_pos hshort]
  have hlen : ∀ {start k}, start + k ≤ 20 → k ≤ ((data.drop start).take k).length := by
    intro start k h
    rw [length_take, length_drop]
    omega
  have hcount : slice data (2 * 8) filterHeaderSize = .ok ((data.drop 16).take 4) :=
    slice_eq (by decide) (by omega)
  have hfrom : slice data 0 8 = .ok ((data.drop 0).take 8) := slice_eq (by decide) (by omega)
  have hto : slice data 8 (2 * 8) = .ok ((data.drop 8).take 8) := slice_eq (by decide) (by omega)
  rw [parseHeader, if_neg hshort, if_neg hshort, hcount, ok_bind, uint32_eq (hlen (by decide)), ok_bind,
    hfrom, ok_bind,
    uint64_eq (hlen (by decide)), ok_bind, hto, ok_bind, uint64_eq (hlen (by decide)), ok_bind]
  simp only [take_take, min_self]
  by_cases hrows : read ((data.drop 16).take 4) ≠ eventsBloomLength
  · rw [if_pos hrows, if_pos hrows]
  · rw [if_neg hrows, if_neg hrows, not_not.mp hrows]
    rfl

/-- A header that is accepted comes with the right number of bytes. -/
theorem parseHeader_length {p} (h : parseHeader data = .ok p) : data.length = storedLength := by
  rw [parseHeader_eq] at h
  split_ifs at h with _ _ hlen
  exact not_not.mp hlen

theorem parseHeader_ne_panic (data : Bytes) : parseHeader data ≠ .error .panic := by
  rw [parseHeader_eq]
  split_ifs <;> simp

/-- The header of a filter, followed by the right number of bytes, is read back. -/
theorem parseHeader_append {fromBlock toBlock : UInt64} (hto : toBlock = fromBlock + maxBlockOffsetPerFilter)
    {rest : Bytes} (hrest : rest.length = eventsBloomLength * filterRowSize)
    (hdata : data = put 8 fromBlock.toNat ++ (put 8 toBlock.toNat ++ (put 4 eventsBloomLength ++ rest))) :
    parseHeader data = .ok ⟨(fromBlock, toBlock), hto⟩ := by
  have hlen : data.length = storedLength := by
    simp only [hdata, length_append, length_put, hrest]
    rfl
  have hbig : ¬ data.length < filterHeaderSize := by
    rw [hlen, Nat.not_lt]
    exact Nat.le_add_right _ _
  have hword : ∀ x : UInt64, UInt64.ofNat (read (put 8 x.toNat)) = x := by
    intro x
    rw [read_put_of_lt x.toNat_lt, UInt64.ofNat_toNat]
  have hpart : ∀ (a b c : Bytes) (n k : ℕ), a.length = n → b.length = k →
      ((a ++ (b ++ c)).drop n).take k = b := by
    rintro a b c n k rfl rfl
    rw [drop_left, take_left]
  have hfrom : numberAt data 0 = fromBlock := by
    rw [numberAt, hdata, drop_zero, take_left' (length_put _ _), hword]
  have htoBlock : numberAt data 8 = toBlock := by
    rw [numberAt, hdata, hpart _ _ _ 8 8 (length_put _ _) (length_put _ _), hword]
  have hcount : read ((data.drop 16).take 4) = eventsBloomLength := by
    rw [hdata, ← append_assoc,
      hpart _ _ _ 16 4 (by rw [length_append, length_put, length_put]) (length_put _ _),
      read_put_of_lt (by decide)]
  rw [parseHeader_eq, if_neg hbig, if_neg (not_not.mpr hcount), if_neg (not_not.mpr hlen),
    dif_pos (by rw [hfrom, htoBlock, hto])]
  simp only [hfrom, htoBlock]

/-! ### Rows -/

theorem decodeRow_eq {row} (h : decodeRow data index = .ok row) :
    ∃ bytes, rowWordBytes data index = .ok bytes ∧ rowWords bytes = .ok row.1.words := by
  rw [decodeRow] at h
  obtain ⟨bytes, hbytes, h⟩ := bind_eq_ok.mp h
  obtain ⟨words, hwords, h⟩ := bind_eq_ok.mp h
  split_ifs at h with hlen
  obtain rfl := ok.inj h
  exact ⟨bytes, hbytes, hwords⟩

theorem decodeRow_ne_panic (hdata : data.length = storedLength) (hindex : index < eventsBloomLength) :
    decodeRow data index ≠ .error .panic := by
  rw [decodeRow]
  rcases row_cases hdata hindex with ⟨-, e, he⟩ | ⟨-, bytes, hbytes, hwords⟩
  · rw [he, error_bind]
    simp
  · have hlen : wordsNeeded numBlocksPerFilter = (wordsAt bytes).length := (length_wordsAt bytes).symm
    rw [hbytes, ok_bind, hwords, ok_bind, dif_pos hlen]
    simp

theorem unmarshalRows_spec (h : unmarshalRows data = .ok r) (hindex : index < eventsBloomLength) :
    ∃ bytes row, rowWordBytes data index = .ok bytes ∧ rowWords bytes = .ok row.words ∧
      r.rows[index]? = some row := by
  rw [unmarshalRows] at h
  obtain ⟨rows, hrows, h⟩ := bind_eq_ok.mp h
  split_ifs at h with hlen
  obtain rfl := ok.inj h
  rw [mapM_eq_ok] at hrows
  have hi : index < (range eventsBloomLength).length := hindex.trans_eq length_range.symm
  have hi' : index < rows.length := hindex.trans_eq hlen.symm
  have hrow := hrows.get hi hi'
  rw [get_eq_getElem, getElem_range] at hrow
  obtain ⟨bytes, hbytes, hwords⟩ := decodeRow_eq hrow
  refine ⟨bytes, _, hbytes, hwords, ?_⟩
  rw [getElem?_map, getElem?_eq_getElem hi']
  rfl

theorem unmarshalRows_ne_panic (hdata : data.length = storedLength) : unmarshalRows data ≠ .error .panic := by
  rw [unmarshalRows]
  refine bind_ne_error (fun h => ?_) fun rows hrows => ?_
  · obtain ⟨index, hindex, he⟩ := mapM_eq_error h
    exact decodeRow_ne_panic hdata (mem_range.mp hindex) he
  · have hlen : rows.length = eventsBloomLength := by
      rw [← (mapM_eq_ok.mp hrows).length_eq, length_range]
    rw [dif_pos hlen]
    simp

/-! ### Queries -/

variable {v : AggregatedBloomFilterView}

section

variable (locations : Bytes → ℕ → List ℕ)

/-- Rows decoded from bytes and rows read in place are intersected alike. -/
theorem intersectRows_agree (h : unmarshalRows data = .ok r)
    (hindices : ∀ index ∈ indices, index < eventsBloomLength) (words : List Word) :
    BlobRows.intersectRows ⟨data⟩ indices words = r.intersectRows indices words := by
  induction indices generalizing words with
  | nil => rfl
  | cons index indices ih =>
    obtain ⟨bytes, row, hbytes, hwords, hrow⟩ := unmarshalRows_spec h (hindices index (by simp))
    rw [BlobRows.intersectRows, intersectRows, foldlM_cons, foldlM_cons, hbytes, ok_bind, hwords, ok_bind,
      hrow, ok_bind]
    exact ih (fun i hi => hindices i (by simp [hi])) _

/-- A decoded filter and a view of the same bytes give the same blocks. -/
theorem blocksForKeysInto_agree (hf : unmarshalRows data = .ok f.bitmap)
    (hv : v.bitmap = ⟨data⟩) (keys : List Bytes) (out : Option BitSet) :
    v.blocksForKeysInto locations keys out = f.blocksForKeysInto locations keys out := by
  have hkey : ∀ key, v.blocksForKey locations key = f.blocksForKey locations key := by
    intro key
    have hrows :
      BloomRows.intersectRows v.bitmap (keyIndices locations key) (new numBlocksPerFilter).setAll.words =
        BloomRows.intersectRows f.bitmap (keyIndices locations key)
          (new numBlocksPerFilter).setAll.words := by
      rw [hv]
      exact intersectRows_agree hf (keyIndices_lt locations key) _
    rw [blocksForKey, blocksForKey, hrows]
  cases out with
  | none => rfl
  | some out =>
    rw [blocksForKeysInto, blocksForKeysInto]
    simp only [hkey]

section

variable (hdata : data.length = storedLength)
include hdata

/-- Rows read in place: an error if one of them is malformed, and else the words. -/
theorem intersectRows_cases (hindices : ∀ index ∈ indices, index < eventsBloomLength)
    (hlen : words.length = wordsPerFilterRow) :
    (∃ e, BloomRows.intersectRows (R := BlobRows) ⟨data⟩ indices words = .error (.err e)) ∨
      (∃ words', BloomRows.intersectRows (R := BlobRows) ⟨data⟩ indices words = .ok words' ∧
        words'.length = wordsPerFilterRow) ∧
        ∀ index ∈ indices, ¬ MalformedRow data index := by
  induction indices generalizing words with
  | nil => exact .inr ⟨⟨words, rfl, hlen⟩, by simp⟩
  | cons index indices ih =>
    simp only [BloomRows.intersectRows, BlobRows.intersectRows, foldlM_cons]
    rcases row_cases hdata (hindices index (by simp)) with ⟨-, e, he⟩ | ⟨hgood, bytes, hbytes, hwords⟩
    · rw [he]
      exact .inl ⟨e, rfl⟩
    · rw [hbytes, ok_bind, hwords, ok_bind, ok_bind]
      have hlen' : (intersectWords words (wordsAt bytes)).length = wordsPerFilterRow := by
        rw [length_intersectWords (by rw [length_wordsAt, hlen]), hlen]
      refine (ih (fun i hi => hindices i (by simp [hi])) hlen').imp id fun ⟨hok, hrest⟩ => ⟨hok, ?_⟩
      exact forall_mem_cons.mpr ⟨hgood, hrest⟩

section

variable (hv : v.bitmap = ⟨data⟩)
include hv

/-- One key in a view: an error if a row of the key is malformed, and else the blocks. -/
theorem blocksForKey_cases (key : Bytes) : (∃ e, v.blocksForKey locations key = .error (.err e)) ∨
      (∃ bits, v.blocksForKey locations key = .ok bits) ∧ ∀ index ∈ keyIndices locations key,
        ¬ MalformedRow data index := by
  have hrows :=
    intersectRows_cases hdata (keyIndices_lt locations key) (new numBlocksPerFilter).setAll.words_length
  rw [← hv] at hrows
  rcases hrows with ⟨e, he⟩ | ⟨⟨words, hok, hlen⟩, hgood⟩
  · exact .inl ⟨e, by rw [blocksForKey, he, error_bind]⟩
  · exact .inr ⟨⟨_, by rw [blocksForKey, hok, ok_bind, fromWithLength_eq hlen]⟩, hgood⟩

theorem blocksForKeysInto_ne_panic (keys : List Bytes) (out : Option BitSet) :
    v.blocksForKeysInto locations keys out ≠ .error .panic := by
  cases out with
  | none => simp [blocksForKeysInto]
  | some out =>
    rw [blocksForKeysInto]
    split_ifs with hlen hkeys
    · simp
    · simp
    · intro h
      obtain ⟨s, key, -, -, hpanic⟩ :=
          foldlM_eq_error (I := fun _ => True) (fun _ _ _ _ _ _ => trivial) trivial h
      rcases blocksForKey_cases locations hdata hv key with ⟨e, he⟩ | ⟨⟨bits, hbits⟩, -⟩
      · rw [he, error_bind] at hpanic
        simp at hpanic
      · rw [hbits, ok_bind] at hpanic
        simp at hpanic

/-- A query that consults a malformed row is answered with an error. -/
theorem blocksForKeysInto_malformed {keys : List Bytes} {key : Bytes} (hkey : key ∈ keys)
    (hindex : index ∈ keyIndices locations key) (hbad : MalformedRow data index)
    (out : Option BitSet) : ∃ e, v.blocksForKeysInto locations keys out = .error (.err e) := by
  have hfault : ∃ e, v.blocksForKeysInto locations keys out = .error e := by
    cases out with
    | none => exact ⟨_, rfl⟩
    | some out =>
      rw [blocksForKeysInto]
      split_ifs with hlen hkeys
      · exact ⟨_, rfl⟩
      · rw [hkeys] at hkey
        cases hkey
      · refine foldlM_error_of_mem hkey (fun s => ?_) _
        rcases blocksForKey_cases locations hdata hv key with ⟨e, he⟩ | ⟨-, hgood⟩
        · exact ⟨.err e, by rw [he, error_bind]⟩
        · exact absurd hbad (hgood index hindex)
  obtain ⟨e, he⟩ := hfault
  cases e with
  | panic => exact absurd he (blocksForKeysInto_ne_panic locations hdata hv keys out)
  | err e => exact ⟨e, he⟩

end

end

end

/-! ### Decoding what was encoded -/

namespace AggregatedBloomFilter

def rowRecord (row : BitSet) : Bytes := put 4 (marshalRow row).length ++ marshalRow row

theorem length_marshalRow (h : row.length = numBlocksPerFilter) :
    (marshalRow row).length = filterRowBlobLen := by
  have hwords : (row.words.flatMap fun w => put 8 w.toNat).length = row.words.length * 8 :=
    length_flatMap_of_size fun w _ => length_put 8 w.toNat
  rw [marshalRow, length_append, length_put, hwords, row.words_length, h]
  rfl

theorem length_rowRecord (h : row.length = numBlocksPerFilter) : (rowRecord row).length = filterRowSize := by
  rw [rowRecord, length_append, length_put, length_marshalRow h]
  rfl

section

variable (f : AggregatedBloomFilter)

theorem marshalBinary_eq : f.marshalBinary =
    put 8 f.fromBlock.toNat ++ (put 8 f.toBlock.toNat ++
      (put 4 eventsBloomLength ++ f.bitmap.rows.flatMap rowRecord)) := by
  rw [marshalBinary, f.bitmap.rows_length]
  rfl

theorem length_rows : (f.bitmap.rows.flatMap rowRecord).length = eventsBloomLength * filterRowSize := by
  rw [length_flatMap_of_size fun row hrow => length_rowRecord (f.bitmap.row_length row hrow),
    f.bitmap.rows_length]

theorem parseHeader_marshalBinary : parseHeader f.marshalBinary = .ok ⟨(f.fromBlock, f.toBlock), f.range⟩ :=
  parseHeader_append f.range f.length_rows f.marshalBinary_eq

/-- The bytes of a row, where the decoder looks for them. -/
theorem drop_marshalBinary (hrow : f.bitmap.rows[index]? = some row) :
    ∃ rest, f.marshalBinary.drop (rowOffset index) = rowRecord row ++ rest := by
  have hheader : (put 8 f.fromBlock.toNat ++ (put 8 f.toBlock.toNat ++
      put 4 eventsBloomLength)).length = filterHeaderSize := by
    simp only [length_append, length_put]
    rfl
  have hsplit : f.marshalBinary = (put 8 f.fromBlock.toNat ++ (put 8 f.toBlock.toNat ++
      put 4 eventsBloomLength)) ++ f.bitmap.rows.flatMap rowRecord := by
    rw [marshalBinary_eq, append_assoc, append_assoc]
  refine ⟨(f.bitmap.rows.drop (index + 1)).flatMap rowRecord, ?_⟩
  rw [hsplit, rowOffset, ← hheader, drop_length_add_append,
    drop_flatMap (fun row hrow => length_rowRecord (f.bitmap.row_length row hrow)) hrow]

end

theorem wordsAt_flatMap (h : words.length = wordsPerFilterRow) :
    wordsAt (words.flatMap fun w => put 8 w.toNat) = words := by
  refine ext_getElem (by rw [length_wordsAt, h]) fun i hi hi' => ?_
  have hdrop := drop_flatMap (fun w _ => length_put 8 (BitVec.toNat w)) (getElem?_eq_getElem hi')
  have hword : words[i].toNat < 256 ^ 8 := words[i].isLt
  simp only [wordsAt, getElem_map, getElem_range, hdrop]
  rw [take_left' (length_put _ _), read_put_of_lt hword, BitVec.ofNat_toNat, BitVec.setWidth_eq]

variable (f)

theorem decodeRow_marshalBinary (hrow : f.bitmap.rows[index]? = some row) :
    ∃ h, decodeRow f.marshalBinary index = .ok ⟨row, h⟩ := by
  have hlen : row.length = numBlocksPerFilter := f.bitmap.row_length row (mem_of_getElem? hrow)
  have hindex : index < eventsBloomLength := f.bitmap.rows_length ▸ (List.getElem?_eq_some_iff.mp hrow).1
  have hstored := parseHeader_length f.parseHeader_marshalBinary
  obtain ⟨rest, hrest⟩ := f.drop_marshalBinary hrow
  have hwords : row.words.length = wordsPerFilterRow := by rw [row.words_length, hlen, wordsNeeded_row]
  have hbody : (row.words.flatMap fun w => put 8 w.toNat).length = wordsPerFilterRow * 8 := by
    rw [length_flatMap_of_size fun w _ => length_put 8 (BitVec.toNat w), hwords]
  have hrecord : f.marshalBinary.drop (rowOffset index) = put 4 filterRowBlobLen ++
      (put 8 numBlocksPerFilter ++ ((row.words.flatMap fun w => put 8 w.toNat) ++ rest)) := by
    rw [hrest, rowRecord, length_marshalRow hlen, marshalRow, hlen, append_assoc, append_assoc]
  have hblob : blobLenAt f.marshalBinary index = filterRowBlobLen := by
    rw [blobLenAt, hrecord, take_left' (length_put _ _), read_put_of_lt (by decide)]
  have hbitset : bitsetLenAt f.marshalBinary index = numBlocksPerFilter := by
    rw [bitsetLenAt, ← drop_drop, hrecord, drop_left' (length_put _ _),
      take_left' (length_put _ _), read_put_of_lt (by decide)]
  have hbytes : (f.marshalBinary.drop (rowOffset index + 12)).take (wordsPerFilterRow * 8) =
      row.words.flatMap fun w => put 8 w.toNat := by
    rw [← drop_drop, hrecord, ← append_assoc, drop_left' (by simp), take_left' hbody]
  have hneeded : wordsNeeded numBlocksPerFilter = row.words.length := hwords.symm
  refine ⟨hlen, ?_⟩
  rw [decodeRow, rowWordBytes_eq hstored hindex, if_neg (not_not.mpr hblob), if_neg (not_not.mpr hbitset),
    ok_bind, hbytes,
    rowWords_eq hbody, ok_bind, wordsAt_flatMap hwords, dif_pos hneeded]
  refine congrArg ok (Subtype.ext (BitSet.ext ?_ rfl))
  exact hlen.symm

theorem unmarshalBinary_marshalBinary : unmarshalBinary MemRows f.marshalBinary = .ok f := by
  have hrows : unmarshalRows f.marshalBinary = .ok f.bitmap := by
    have hmap : (range eventsBloomLength).mapM (decodeRow f.marshalBinary) =
        .ok (f.bitmap.rows.attach.map fun row => ⟨row.1, f.bitmap.row_length row.1 row.2⟩) := by
      rw [mapM_eq_ok, forall₂_iff_get]
      refine ⟨by simp [f.bitmap.rows_length], fun i hi hi' => ?_⟩
      have hi'' : i < f.bitmap.rows.length := by simpa using hi'
      obtain ⟨h, hok⟩ := f.decodeRow_marshalBinary (getElem?_eq_getElem hi'')
      simpa using hok
    have hlen : (f.bitmap.rows.attach.map fun row =>
        (⟨row.1, f.bitmap.row_length row.1 row.2⟩ : {row : BitSet // row.length = numBlocksPerFilter})).length
          = eventsBloomLength := by
      rw [length_map, length_attach, f.bitmap.rows_length]
    rw [unmarshalRows, hmap, ok_bind, dif_pos hlen]
    refine congrArg ok (MemRows.ext ?_)
    simp only [map_map]
    exact attach_map_subtype_val _
  rw [unmarshalBinary, f.parseHeader_marshalBinary, ok_bind]
  have hrows' : (BloomRows.unmarshalRows f.marshalBinary : Except Fault MemRows) = .ok f.bitmap := hrows
  rw [hrows', ok_bind]

variable {f}

end AggregatedBloomFilter

/-! ### Views and filters of the same bytes -/

theorem unmarshalBinary_ne_panic {R : Type} [BloomRows R]
    (hrows : data.length = storedLength → (BloomRows.unmarshalRows data : Except Fault R) ≠ .error .panic) :
    unmarshalBinary R data ≠ .error .panic :=
  bind_ne_error (parseHeader_ne_panic data) fun _ hheader =>
    bind_ne_error (hrows (parseHeader_length hheader)) fun _ _ => by simp

theorem unmarshalBinary_blob (h : unmarshalBinary BlobRows data = .ok v) :
    data.length = storedLength ∧ v.bitmap = ⟨data⟩ := by
  obtain ⟨header, hheader, h⟩ := bind_eq_ok.mp h
  obtain ⟨bitmap, hbitmap, h⟩ := bind_eq_ok.mp h
  obtain rfl := ok.inj h
  exact ⟨parseHeader_length hheader, (ok.inj hbitmap).symm⟩

/-- Bytes that are decoded are also accepted as a view, which has the same range and gives the same blocks. -/
theorem view_of_decoded (locations : Bytes → ℕ → List ℕ) (h : unmarshalBinary MemRows data = .ok f) :
    ∃ v, unmarshalBinary BlobRows data = .ok v ∧ v.fromBlock = f.fromBlock ∧ v.toBlock = f.toBlock ∧
      ∀ keys out, v.blocksForKeysInto locations keys out = f.blocksForKeysInto locations keys out := by
  obtain ⟨header, hheader, h⟩ := bind_eq_ok.mp h
  obtain ⟨bitmap, hbitmap, h⟩ := bind_eq_ok.mp h
  obtain rfl := ok.inj h
  refine ⟨⟨⟨data⟩, header.1.1, header.1.2, header.2⟩, ?_, rfl, rfl, fun keys out => ?_⟩
  · rw [unmarshalBinary, hheader, ok_bind]
    rfl
  · exact blocksForKeysInto_agree locations hbitmap rfl keys out

/-- **Stored filters.** Decoding the encoding of a filter gives it back, and a view of the encoding gives the
same blocks for every query. For every byte string, neither decoding nor a query of a view panics; bytes that
are decoded are accepted as a view with the same answers; and a query that consults a malformed row is
answered with an error. -/
theorem codec_agrees (locations : Bytes → ℕ → List ℕ) :
    (∀ f : AggregatedBloomFilter, unmarshalBinary MemRows f.marshalBinary = .ok f ∧
      ∃ v, unmarshalBinary BlobRows f.marshalBinary = .ok v ∧
        ∀ keys out, v.blocksForKeysInto locations keys out = f.blocksForKeysInto locations keys out) ∧
    ∀ data : Bytes,
      unmarshalBinary MemRows data ≠ .error .panic ∧ unmarshalBinary BlobRows data ≠ .error .panic ∧
      (∀ f, unmarshalBinary MemRows data = .ok f →
        ∃ v, unmarshalBinary BlobRows data = .ok v ∧ v.fromBlock = f.fromBlock ∧ v.toBlock = f.toBlock ∧
          ∀ keys out, v.blocksForKeysInto locations keys out = f.blocksForKeysInto locations keys out) ∧
      ∀ v, unmarshalBinary BlobRows data = .ok v → ∀ keys out,
        v.blocksForKeysInto locations keys out ≠ .error .panic ∧
        ((∃ key ∈ keys, ∃ index ∈ keyIndices locations key, MalformedRow data index) →
          ∃ e, v.blocksForKeysInto locations keys out = .error (.err e)) := by
  refine ⟨fun f => ⟨f.unmarshalBinary_marshalBinary, ?_⟩,
    fun data => ⟨?_, ?_, fun f hf => view_of_decoded locations hf, ?_⟩⟩
  · obtain ⟨v, hv, -, -, hagree⟩ := view_of_decoded locations f.unmarshalBinary_marshalBinary
    exact ⟨v, hv, hagree⟩
  · exact unmarshalBinary_ne_panic unmarshalRows_ne_panic
  · exact unmarshalBinary_ne_panic fun _ h => nomatch h
  · intro v hv keys out
    obtain ⟨hdata, hbitmap⟩ := unmarshalBinary_blob hv
    refine ⟨blocksForKeysInto_ne_panic locations hdata hbitmap keys out, ?_⟩
    rintro ⟨key, hkey, index, hindex, hbad⟩
    exact blocksForKeysInto_malformed locations hdata hbitmap hkey hindex hbad out

/-- The header of a filter from the block `0`, followed by zeros: every row is malformed. -/
def zeroRows : Bytes :=
  put 8 0 ++ (put 8 8191 ++ (put 4 eventsBloomLength ++ List.replicate (eventsBloomLength * filterRowSize) 0))

/-- A filter and its view agree; and a view of malformed rows is accepted, and answers with errors. -/
theorem codec_agrees_zeroRows :
    (∃ v, unmarshalBinary BlobRows (newAggregatedFilter 0).marshalBinary = .ok v ∧
      ∀ keys out, v.blocksForKeysInto (fun _ _ => [3]) keys out =
        (newAggregatedFilter 0).blocksForKeysInto (fun _ _ => [3]) keys out) ∧
    ∃ v e, unmarshalBinary BlobRows zeroRows = .ok v ∧
      v.blocksForKeysInto (fun _ _ => [3]) [[1]] (some (BitSet.new numBlocksPerFilter)) =
        .error (.err e) := by
  obtain ⟨hfilters, hbytes⟩ := codec_agrees fun _ _ => [3]
  obtain ⟨-, -, hdecoded, -⟩ := hbytes (newAggregatedFilter 0).marshalBinary
  obtain ⟨v, hv, -, -, hagree⟩ := hdecoded _ (hfilters (newAggregatedFilter 0)).1
  have hheader : parseHeader zeroRows = .ok ⟨(0, 8191), by decide⟩ :=
    parseHeader_append (by decide) length_replicate rfl
  have hview : unmarshalBinary BlobRows zeroRows = .ok ⟨⟨zeroRows⟩, 0, 8191, by decide⟩ := by
    rw [unmarshalBinary, hheader, ok_bind]
    rfl
  have hbad : MalformedRow zeroRows 3 := by
    have hsplit : zeroRows = (put 8 0 ++ (put 8 8191 ++ put 4 eventsBloomLength)) ++
        replicate (eventsBloomLength * filterRowSize) 0 := by
      rw [zeroRows, append_assoc, append_assoc]
    have hoffset : rowOffset 3 = (put 8 0 ++ (put 8 8191 ++ put 4 eventsBloomLength)).length +
        3 * filterRowSize := rfl
    have hzero : (zeroRows.drop (rowOffset 3)).take 4 = replicate 4 0 := by
      rw [hsplit, hoffset, drop_length_add_append, drop_replicate, take_replicate]
      rfl
    refine .inl ?_
    rw [blobLenAt, hzero]
    decide
  obtain ⟨e, he⟩ := ((hbytes zeroRows).2.2.2 _ hview [[1]] (some (new numBlocksPerFilter))).2
    ⟨[1], mem_singleton_self _, 3, by decide, hbad⟩
  exact ⟨⟨v, hv, hagree⟩, _, e, hview, he⟩

end Juno.EventFilter
