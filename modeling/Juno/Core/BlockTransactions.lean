import Juno.Core.BlockCodec
import Juno.Lib.Offsets
import Mathlib

/-!
# The transactions and receipts of a block in one record

`core.BlockTransactions` keeps all transactions and receipts of a block in one database entry: an
encoded pair of index lists, and behind it the encoded items, transactions first. The readers of
`block_transaction_serializer.go` take one item, or some fields of one, out of the entry without
decoding the others.

## The model

The functions are those of the source over the encoded values of `BlockCodec`. Slicing out of range
is an error of its own (`panic`). Go lets a slice expression reach up to the capacity of the data,
here it must stay within the length.

The main result is `partial_readers`.
-/

namespace Juno.Core

open Lib Receipt List

variable {i : ℕ} {err : ReadError} {T α S : Type}

/-! ### Lazy slices -/

/-- `data[start:end]`. -/
def slice (data : Bytes) (start stop : ℕ) : Except ReadError Bytes :=
  if start ≤ stop ∧ stop ≤ data.length then .ok ((data.take stop).drop start) else .error .panic

structure LazySlice (V T : Type) where
  indexes : List ℕ
  data : Bytes
  decode : Item V → Except ReadError T

namespace LazySlice

variable {V T R : Type} (cbor : Cbor V) (l : LazySlice V T)

/-- `LazySlice.getInto`: an item ends where the next one starts, the last one where the data ends. -/
def getInto (index : ℕ) : Except ReadError T := do
  let start ← (l.indexes[index]?).elim (.error .panic) .ok
  let stop := l.indexes.getD (index + 1) l.data.length
  let bytes ← slice l.data start stop
  let item ← cbor.unmarshal bytes
  l.decode item

/-- `LazySlice.Get`. -/
def get (index : ℤ) : Except ReadError T :=
  if index < 0 ∨ l.indexes.length ≤ index then .error .keyNotFound else l.getInto cbor index.toNat

/-- `LazySlice.All`. -/
def all : Except ReadError (List T) :=
  (List.range l.indexes.length).mapM fun i => l.getInto cbor i

/-- `LazySlice.AllMapped`. -/
def allMapped (extract : ℕ → T → Except ReadError R) : Except ReadError (List R) :=
  (List.range l.indexes.length).mapM fun i => do
    let value ← wrapping ("decoding element " ++ toString i) (l.getInto cbor i)
    extract i value

end LazySlice

/-! ### The record -/

structure BlockTransactionsIndexes where
  transactions : List ℕ
  receipts : List ℕ
  deriving DecidableEq

structure BlockTransactions where
  indexes : BlockTransactionsIndexes
  data : Bytes
  deriving DecidableEq

section

variable {V : Type} (cbor : Cbor V)

/-- `BufferedEncoder.WriteSeq`: the length of the buffer before each item is its index. -/
def writeSeq (buffer : Bytes) (items : List (Item V)) : List ℕ × Bytes :=
  items.foldl (fun w item => (w.1 ++ [w.2.length], w.2 ++ cbor.encode item)) ([], buffer)

def newBlockTransactions (transactions : List (Transaction V)) (receipts : List (Receipt V)) :
    BlockTransactions :=
  let transactionSeq := writeSeq cbor [] (transactions.map Transaction.item)
  let receiptSeq := writeSeq cbor transactionSeq.2 (receipts.map item)
  ⟨⟨transactionSeq.1, receiptSeq.1⟩, receiptSeq.2⟩

namespace BlockTransactionsIndexes

variable (indexes : BlockTransactionsIndexes)

/-- The indexes as the encoder sees them: numbered fields, left out when empty. -/
def item : Item V where
  tag := none
  fields :=
    (if indexes.transactions = [] then [] else [(.int 1, .ints indexes.transactions)]) ++
      if indexes.receipts = [] then [] else [(.int 2, .ints indexes.receipts)]

def decode (item : Item V) : Except ReadError BlockTransactionsIndexes := do
  let transactions ← item.get (.int 1) [] Leaf.asInts
  let receipts ← item.get (.int 2) [] Leaf.asInts
  .ok ⟨transactions, receipts⟩

/-- The indexes come back as they were encoded, the omitted ones as empty lists. -/
theorem decode_item : decode (indexes.item : Item V) = .ok indexes := by
  obtain ⟨transactions, receipts⟩ := indexes
  cases transactions <;> cases receipts <;> rfl

end BlockTransactionsIndexes

namespace BlockTransactions

/-- `BlockTransactionsSerializer.Marshal`. -/
def marshal (b : BlockTransactions) : Bytes := cbor.encode b.indexes.item ++ b.data

variable (b : BlockTransactions)

/-- `transactionsSection`: the transactions end where the receipts begin. -/
def transactionsSection : Except ReadError Bytes :=
  match b.indexes.receipts with
  | first :: _ => slice b.data 0 first
  | [] => .ok b.data

/-- `receiptsSection`: receipt indexes count from the start of the data. -/
def receiptsSection : Bytes := b.data

def transactions [Inhabited V] : Except ReadError (LazySlice V (Transaction V)) := do
  let data ← b.transactionsSection
  .ok ⟨b.indexes.transactions, data, Transaction.decode⟩

def receipts [Inhabited V] : LazySlice V (Receipt V) := ⟨b.indexes.receipts, b.receiptsSection, decode⟩

def executionStatusProjections : LazySlice V TransactionExecutionStatus :=
  ⟨b.indexes.receipts, b.receiptsSection, receiptExecutionStatusProjection⟩

def transactionEventsProjections : LazySlice V (TransactionEvents V) :=
  ⟨b.indexes.receipts, b.receiptsSection, receiptEventsProjection⟩

def transactionHashProjections : Except ReadError (LazySlice V Felt) := do
  let data ← b.transactionsSection
  .ok ⟨b.indexes.transactions, data, transactionHashProjection⟩

end BlockTransactions

/-! ### The partial readers -/

/-- `UnmarshalPartial`: the indexes are decoded, the rest of the entry is left to the extractor. -/
def unmarshalPartial (extract : BlockTransactions → S → Except ReadError T) (subKey : S)
    (data : Bytes) : Except ReadError T := do
  let first ← cbor.unmarshalFirst data
  let indexes ← BlockTransactionsIndexes.decode first.1
  extract ⟨indexes, first.2⟩ subKey

section

variable [Inhabited V] (b : BlockTransactions) (subKey : ℤ)

def extractTransaction : Except ReadError (Transaction V) := do
  let slice ← b.transactions
  slice.get cbor subKey

def extractReceipt : Except ReadError (Receipt V) := b.receipts.get cbor subKey

def extractTransactionAndReceipt : Except ReadError (TransactionAndReceipt V) := do
  let transaction ← wrapping ("extracting transaction " ++ toString subKey) (extractTransaction cbor b subKey)
  let receipt ← wrapping ("extracting receipt " ++ toString subKey) (extractReceipt cbor b subKey)
  .ok ⟨transaction, receipt⟩

def extractExecutionStatus : Except ReadError TransactionExecutionStatus :=
  b.executionStatusProjections.get cbor subKey

/-- The check on each hash in `extractAllTransactionHashes`. -/
def requireHash (index : ℕ) (hash : Felt) : Except ReadError Felt :=
  if hash = 0 then .error (.missingHash index) else .ok hash

def extractAllTransactionHashes (_ : Unit) : Except ReadError (List Felt) :=
  wrapping "extracting transaction hashes" do
    let slice ← b.transactionHashProjections
    slice.allMapped cbor requireHash

def extractAllTransactions (_ : Unit) : Except ReadError (List (Transaction V)) := do
  let slice ← b.transactions
  slice.all cbor

def extractAllReceipts (_ : Unit) : Except ReadError (List (Receipt V)) := b.receipts.all cbor

def extractAllTransactionsAndReceipts (_ : Unit) : Except ReadError (TransactionsAndReceipts V) := do
  let transactions ← wrapping "extracting transactions" (extractAllTransactions cbor b ())
  let receipts ← wrapping "extracting receipts" (extractAllReceipts cbor b ())
  .ok ⟨transactions, receipts⟩

def extractAllTransactionEvents (_ : Unit) : Except ReadError (List (TransactionEvents V)) :=
  wrapping "extracting transaction events" (b.transactionEventsProjections.allMapped cbor fun _ p => .ok p)

end

end

/-! ### What a lazy slice reads -/

namespace LazySlice

variable {V T R : Type} {cbor : Cbor V} {l : LazySlice V T}

/-- The slice holds these items: they stand one after another behind some other data, and the indexes say
where each one starts. -/
def Stores (cbor : Cbor V) (l : LazySlice V T) (items : List (Item V)) : Prop :=
  ∃ before : Bytes, l.indexes = offsets before.length (items.map cbor.encode) ∧
    l.data = before ++ (items.map cbor.encode).flatten

variable {items : List (Item V)}

theorem Stores.length (h : l.Stores cbor items) : l.indexes.length = items.length := by
  obtain ⟨before, hindexes, -⟩ := h
  rw [hindexes, length_offsets, length_map]

/-- **The bytes decoded for an index are those of the item with that index.** -/
theorem getInto_of_stores (h : l.Stores cbor items) {item : Item V} (hi : items[i]? = some item) :
    l.getInto cbor i = l.decode item := by
  obtain ⟨before, hindexes, hdata⟩ := h
  obtain ⟨hlt, rfl⟩ := List.getElem?_eq_some_iff.mp hi
  -- The blocks up to the item, its own block, and the blocks behind it.
  have hsplit : items.map cbor.encode = (items.take i).map cbor.encode ++
      cbor.encode items[i] :: (items.drop (i + 1)).map cbor.encode := by
    rw [← map_cons, ← map_append, getElem_cons_drop, take_append_drop]
  have hlen : ((items.take i).map cbor.encode).length = i := by simp [hlt.le]
  rw [hsplit] at hindexes hdata
  have hstart := offsets_start before ((items.take i).map cbor.encode) (cbor.encode items[i])
    ((items.drop (i + 1)).map cbor.encode)
  have hstop := offsets_stop before ((items.take i).map cbor.encode) (cbor.encode items[i])
    ((items.drop (i + 1)).map cbor.encode)
  rw [← hindexes, hlen] at hstart
  rw [← hindexes, ← hdata, hlen] at hstop
  have hbytes : slice l.data (before.length + ((items.take i).map cbor.encode).flatten.length)
      (before.length + ((items.take i).map cbor.encode).flatten.length + (cbor.encode items[i]).length) =
      .ok (cbor.encode items[i]) := by
    rw [slice, if_pos, hdata, drop_take_offsets]
    rw [hdata]
    simp only [flatten_append, flatten_cons, length_append]
    omega
  rw [getInto, hstart, hstop]
  simp only [Option.elim_some, ok_bind, hbytes, cbor.unmarshal_encode]

variable {extract : ℕ → T → Except ReadError R}

section

variable {α : Type} {xs : List α} {enc : α → Item V} {f : α → T} {x : α}

/-- Each index of the slice decodes to what the element with that index decodes to. -/
theorem getInto_map (h : l.Stores cbor (xs.map enc)) (hdec : ∀ x ∈ xs, l.decode (enc x) = .ok (f x))
    (hi : xs[i]? = some x) : l.getInto cbor i = .ok (f x) := by
  rw [getInto_of_stores h (by rw [getElem?_map, hi, Option.map_some]), hdec x (mem_of_getElem? hi)]

variable {r : α → R}

/-- A program run on all indexes of a list, by what it does at each. -/
theorem mapM_range_ok {g : ℕ → Except ReadError R} (hg : ∀ i x, xs[i]? = some x → g i = .ok (r x)) :
    (List.range xs.length).mapM g = .ok (xs.map r) := by
  refine mapM_eq_ok.mpr (forall₂_iff_get.mpr ⟨by simp, ?_⟩)
  intro i h₁ h₂
  have hi : i < xs.length := by simpa using h₁
  simpa using hg i xs[i] (getElem?_eq_getElem hi)

section

variable (h : l.Stores cbor (xs.map enc))
include h

section

variable (hdec : ∀ x ∈ xs, l.decode (enc x) = .ok (f x))
include hdec

theorem all_of_stores : l.all cbor = .ok (xs.map f) := by
  rw [all, h.length, length_map]
  exact mapM_range_ok fun i x hi => getInto_map h hdec hi

theorem allMapped_of_stores (extract : ℕ → T → Except ReadError R)
    (hextract : ∀ i x, xs[i]? = some x → extract i (f x) = .ok (r x)) :
    l.allMapped cbor extract = .ok (xs.map r) := by
  rw [allMapped, h.length, length_map]
  refine mapM_range_ok fun i x hi => ?_
  rw [getInto_map h hdec hi, wrapping_ok, ok_bind, hextract i x hi]

theorem allMapped_eq_error (herr : l.allMapped cbor extract = .error err) :
    ∃ i x, xs[i]? = some x ∧ extract i (f x) = .error err := by
  obtain ⟨i, hi, herr⟩ := mapM_eq_error herr
  rw [h.length, length_map, mem_range] at hi
  have hx := getElem?_eq_getElem hi
  rw [getInto_map h hdec hx, wrapping_ok, ok_bind] at herr
  exact ⟨i, xs[i], hx, herr⟩

end

theorem allMapped_eq_ok (hdec : ∀ x ∈ xs, l.decode (enc x) = .ok (f x)) {ys : List R}
    (hok : l.allMapped cbor extract = .ok ys) (hi : xs[i]? = some x) : ∃ y, extract i (f x) = .ok y := by
  obtain ⟨hlen, hall⟩ := forall₂_iff_get.mp (mapM_eq_ok.mp hok)
  have hlt : i < (range l.indexes.length).length := by
    rw [length_range, h.length, length_map]
    exact (List.getElem?_eq_some_iff.mp hi).1
  have hstep := hall i hlt (hlen ▸ hlt)
  simp only [get_eq_getElem, getElem_range, getInto_map h hdec hi, wrapping_ok, ok_bind] at hstep
  exact ⟨_, hstep⟩

end

end

end LazySlice

/-! ### Answers -/

def element (xs : List α) (i : ℤ) : Option α := if i < 0 then none else xs[i.toNat]?

/-- A read answers for the element of a list: it returns the element, and not-found outside the list. -/
def Answers (read : Except ReadError α) (xs : List α) (i : ℤ) : Prop :=
  match element xs i with
  | some x => read = .ok x
  | none => ∃ err, read = .error err ∧ err.isKeyNotFound

section

variable {α β γ : Type}

theorem element_natCast (xs : List α) (n : ℕ) : element xs n = xs[n]? := by
  simp [element]

variable {xs : List α} {i : ℤ}

theorem element_eq_none : element xs i = none ↔ i < 0 ∨ xs.length ≤ i := by
  rcases Int.lt_or_le i 0 with hi | hi
  · simp [element, hi]
  · obtain ⟨n, rfl⟩ := Int.eq_ofNat_of_zero_le hi
    simp [element_natCast]

theorem element_zipWith (f : α → β → γ) (xs : List α) (ys : List β) (i : ℤ) :
    element (xs.zipWith f ys) i = (element xs i).bind fun x => (element ys i).map (f x) := by
  rcases Int.lt_or_le i 0 with hi | hi
  · simp [element, hi]
  · obtain ⟨n, rfl⟩ := Int.eq_ofNat_of_zero_le hi
    simp only [element_natCast, getElem?_zipWith]
    cases xs[n]? <;> cases ys[n]? <;> rfl

variable {read : Except ReadError α} {x : α}

theorem Answers.of_some (hx : element xs i = some x) (h : read = .ok x) : Answers read xs i := by
  rw [Answers, hx]
  exact h

theorem Answers.of_none (hx : element xs i = none) (h : read = .error err)
    (herr : err.isKeyNotFound) : Answers read xs i := by
  rw [Answers, hx]
  exact ⟨err, h, herr⟩

theorem Answers.eq_ok (h : Answers read xs i) (hx : element xs i = some x) : read = .ok x := by
  rw [Answers, hx] at h
  exact h

theorem Answers.not_found (h : Answers read xs i) (hx : element xs i = none) :
    ∃ err, read = .error err ∧ err.isKeyNotFound := by
  rw [Answers, hx] at h
  exact h

theorem wrapping_not_found (context : String) (h : ∃ err, read = .error err ∧ err.isKeyNotFound) :
    ∃ err, wrapping context read = .error err ∧ err.isKeyNotFound := by
  obtain ⟨err, rfl, herr⟩ := h
  cases err with
  | keyNotFound => exact ⟨_, rfl, rfl⟩
  | wrapped inner err => exact ⟨_, rfl, herr⟩
  | decode | missingHash | panic => simp [ReadError.isKeyNotFound] at herr

/-- Two reads of one index, one after the other, answer for the pairs. -/
theorem Answers.pair {readX : Except ReadError α} {readY : Except ReadError β} {ys : List β}
    (hx : Answers readX xs i) (hy : Answers readY ys i) (contextX contextY : String) (f : α → β → γ) :
    Answers (do
      let x ← wrapping contextX readX
      let y ← wrapping contextY readY
      .ok (f x y)) (xs.zipWith f ys) i := by
  cases hex : element xs i with
  | none =>
    obtain ⟨err, herr, hnot⟩ := wrapping_not_found contextX (hx.not_found hex)
    rw [herr]
    exact .of_none (by rw [element_zipWith, hex, Option.bind_none]) rfl hnot
  | some x =>
    rw [hx.eq_ok hex, wrapping_ok, ok_bind]
    cases hey : element ys i with
    | none =>
      obtain ⟨err, herr, hnot⟩ := wrapping_not_found contextY (hy.not_found hey)
      rw [herr]
      exact .of_none (by rw [element_zipWith, hex, hey, Option.bind_some, Option.map_none]) rfl hnot
    | some y =>
      rw [hy.eq_ok hey]
      exact .of_some (by rw [element_zipWith, hex, hey, Option.bind_some, Option.map_some]) rfl

end

theorem LazySlice.get_answers {V : Type} {cbor : Cbor V} {l : LazySlice V T} {xs : List α} {enc : α → Item V}
    {f : α → T} (h : l.Stores cbor (xs.map enc)) (hdec : ∀ x ∈ xs, l.decode (enc x) = .ok (f x)) (i : ℤ) :
    Answers (l.get cbor i) (xs.map f) i := by
  have hlen : l.indexes.length = xs.length := by rw [h.length, length_map]
  by_cases hi : i < 0 ∨ (xs.length : ℤ) ≤ i
  · have hnot : l.get cbor i = .error .keyNotFound := by rw [get, hlen, if_pos hi]
    exact .of_none (element_eq_none.mpr (by rwa [length_map])) hnot rfl
  · obtain ⟨n, rfl⟩ := Int.eq_ofNat_of_zero_le (Int.not_lt.mp fun hneg => hi (.inl hneg))
    have hn : n < xs.length := by
      by_contra hge
      exact hi (.inr (Int.ofNat_le.mpr (Nat.not_lt.mp hge)))
    have hx := getElem?_eq_getElem hn
    refine .of_some (by rw [element_natCast, getElem?_map, hx, Option.map_some]) ?_
    rw [get, hlen, if_neg hi]
    exact getInto_map h hdec hx

/-! ### The slices of an encoded block -/

section

variable {V : Type} (cbor : Cbor V)

/-- `WriteSeq` appends the items and returns where each one starts. -/
theorem writeSeq_eq (buffer : Bytes) (items : List (Item V)) :
    writeSeq cbor buffer items =
      (offsets buffer.length (items.map cbor.encode), buffer ++ (items.map cbor.encode).flatten) := by
  -- The loop is entered with the indexes of the items before.
  have hloop : ∀ (acc : List ℕ) (buffer : Bytes),
      items.foldl (fun w item => (w.1 ++ [w.2.length], w.2 ++ cbor.encode item)) (acc, buffer) =
        (acc ++ offsets buffer.length (items.map cbor.encode),
          buffer ++ (items.map cbor.encode).flatten) := by
    induction items with
    | nil => simp [offsets]
    | cons item items ih =>
      intro acc buffer
      rw [foldl_cons, ih]
      simp [offsets]
  rw [writeSeq, hloop, nil_append]

variable (txs : List (Transaction V)) (rs : List (Receipt V))

def transactionBytes : Bytes := ((txs.map Transaction.item).map cbor.encode).flatten

theorem newBlockTransactions_eq :
    newBlockTransactions cbor txs rs =
      ⟨⟨offsets 0 ((txs.map Transaction.item).map cbor.encode),
        offsets (transactionBytes cbor txs).length ((rs.map item).map cbor.encode)⟩,
        transactionBytes cbor txs ++ ((rs.map item).map cbor.encode).flatten⟩ := by
  rw [newBlockTransactions, writeSeq_eq, writeSeq_eq]
  rfl

theorem transactionsSection_new :
    (newBlockTransactions cbor txs rs).transactionsSection = .ok (transactionBytes cbor txs) := by
  rw [newBlockTransactions_eq]
  cases rs with
  | nil => simp [BlockTransactions.transactionsSection, offsets]
  | cons r rs =>
    simp only [BlockTransactions.transactionsSection, map_cons, offsets, slice]
    rw [if_pos ⟨Nat.zero_le _, by simp⟩, drop_zero, take_left]

variable (decode : Item V → Except ReadError T)

theorem stores_transactions :
    LazySlice.Stores cbor ⟨(newBlockTransactions cbor txs rs).indexes.transactions,
      transactionBytes cbor txs, decode⟩
      (txs.map Transaction.item) := by
  rw [newBlockTransactions_eq]
  exact ⟨[], rfl, rfl⟩

theorem stores_receipts : LazySlice.Stores cbor
      ⟨(newBlockTransactions cbor txs rs).indexes.receipts,
        (newBlockTransactions cbor txs rs).receiptsSection, decode⟩
      (rs.map item) := by
  rw [newBlockTransactions_eq]
  exact ⟨_, rfl, rfl⟩

/-- A reader of an encoded record works on the record. -/
theorem unmarshalPartial_marshal (extract : BlockTransactions → S → Except ReadError T) (subKey : S)
    (b : BlockTransactions) : unmarshalPartial cbor extract subKey (b.marshal cbor) = extract b subKey := by
  rw [unmarshalPartial, BlockTransactions.marshal, cbor.unmarshalFirst_encode, ok_bind,
    BlockTransactionsIndexes.decode_item, ok_bind]

section

variable [Inhabited V] (i : ℤ)

theorem extractTransaction_answers :
    Answers (extractTransaction cbor (newBlockTransactions cbor txs rs) i) txs i := by
  rw [extractTransaction, BlockTransactions.transactions, transactionsSection_new, ok_bind, ok_bind]
  have h := LazySlice.get_answers (stores_transactions cbor txs rs Transaction.decode)
    (fun t _ => t.decode_item) i
  rwa [map_id'] at h

theorem extractReceipt_answers : Answers (extractReceipt cbor (newBlockTransactions cbor txs rs) i) rs i := by
  have h := LazySlice.get_answers (stores_receipts cbor txs rs decode) (fun r _ => r.decode_item) i
  rwa [map_id'] at h

theorem extractAllTransactions_eq :
    extractAllTransactions cbor (newBlockTransactions cbor txs rs) () = .ok txs := by
  rw [extractAllTransactions, BlockTransactions.transactions, transactionsSection_new, ok_bind, ok_bind]
  have h :=
    LazySlice.all_of_stores (stores_transactions cbor txs rs Transaction.decode) (fun t _ => t.decode_item)
  rwa [map_id'] at h

theorem extractAllReceipts_eq : extractAllReceipts cbor (newBlockTransactions cbor txs rs) () = .ok rs := by
  have h := LazySlice.all_of_stores (stores_receipts cbor txs rs decode) (fun r _ => r.decode_item)
  rwa [map_id'] at h

end

theorem extractAllTransactionEvents_eq :
    extractAllTransactionEvents cbor (newBlockTransactions cbor txs rs) () =
      .ok (rs.map transactionEvents) := by
  have h := LazySlice.allMapped_of_stores (stores_receipts cbor txs rs receiptEventsProjection)
    (fun r _ => r.eventsProjection_item) (fun _ p => .ok p) fun _ _ _ => rfl
  rw [extractAllTransactionEvents, BlockTransactions.transactionEventsProjections, h, wrapping_ok]

theorem extractAllTransactionHashes_ok (h : ∀ t ∈ txs, t.hash ≠ 0) :
    extractAllTransactionHashes cbor (newBlockTransactions cbor txs rs) () =
      .ok (txs.map Transaction.hash) := by
  have hall := LazySlice.allMapped_of_stores (stores_transactions cbor txs rs transactionHashProjection)
    (fun t _ => t.hashProjection_item) requireHash fun i t hi => if_neg (h t (mem_of_getElem? hi))
  rw [extractAllTransactionHashes, BlockTransactions.transactionHashProjections, transactionsSection_new,
    ok_bind, ok_bind,
    hall, wrapping_ok]

/-- Otherwise the error names a transaction without a hash. -/
theorem extractAllTransactionHashes_missing (h : ∃ t ∈ txs, t.hash = 0) :
    ∃ i t, txs[i]? = some t ∧ t.hash = 0 ∧
      extractAllTransactionHashes cbor (newBlockTransactions cbor txs rs) () =
      .error (.wrapped "extracting transaction hashes" (.missingHash i)) := by
  obtain ⟨t, ht, hzero⟩ := h
  obtain ⟨i, hi⟩ := getElem?_of_mem ht
  have hstores := stores_transactions cbor txs rs transactionHashProjection
  rw [extractAllTransactionHashes, BlockTransactions.transactionHashProjections, transactionsSection_new,
    ok_bind, ok_bind]
  cases hall : LazySlice.allMapped cbor _ requireHash with
  | ok hashes =>
    obtain ⟨y, hy⟩ := LazySlice.allMapped_eq_ok hstores (fun t _ => t.hashProjection_item) hall hi
    simp [requireHash, hzero] at hy
  | error err =>
    obtain ⟨i, t, hi, herr⟩ := LazySlice.allMapped_eq_error hstores (fun t _ => t.hashProjection_item) hall
    rw [requireHash] at herr
    split_ifs at herr with hz
    obtain rfl := Except.error.inj herr
    exact ⟨i, t, hi, hz, rfl⟩

end

/-- **Every partial reader of an encoded block returns the element or projection it is named after**, and
not-found for an index outside the lists. The hashes of the transactions are returned if none of them is zero
or missing; otherwise the reader fails and names a transaction without one. -/
theorem partial_readers {V : Type} [Inhabited V] (cbor : Cbor V) (txs : List (Transaction V))
    (rs : List (Receipt V)) :
    let data := (newBlockTransactions cbor txs rs).marshal cbor
    (∀ i, Answers (unmarshalPartial cbor (extractTransaction cbor) i data) txs i) ∧
    (∀ i, Answers (unmarshalPartial cbor (extractReceipt cbor) i data) rs i) ∧
    (∀ i, Answers (unmarshalPartial cbor (extractTransactionAndReceipt cbor) i data)
      (txs.zipWith TransactionAndReceipt.mk rs) i) ∧
    (∀ i, Answers (unmarshalPartial cbor (extractExecutionStatus cbor) i data) (rs.map executionStatus) i) ∧
    unmarshalPartial cbor (extractAllTransactions cbor) () data = .ok txs ∧
    unmarshalPartial cbor (extractAllReceipts cbor) () data = .ok rs ∧
    unmarshalPartial cbor (extractAllTransactionsAndReceipts cbor) () data = .ok ⟨txs, rs⟩ ∧
    unmarshalPartial cbor (extractAllTransactionEvents cbor) () data = .ok (rs.map transactionEvents) ∧
    ((∀ t ∈ txs, t.hash ≠ 0) →
      unmarshalPartial cbor (extractAllTransactionHashes cbor) () data = .ok (txs.map Transaction.hash)) ∧
    ((∃ t ∈ txs, t.hash = 0) → ∃ i t, txs[i]? = some t ∧ t.hash = 0 ∧
      unmarshalPartial cbor (extractAllTransactionHashes cbor) () data =
        .error (.wrapped "extracting transaction hashes" (.missingHash i))) := by
  simp only [unmarshalPartial_marshal]
  refine ⟨extractTransaction_answers cbor txs rs, extractReceipt_answers cbor txs rs, ?_, ?_,
    extractAllTransactions_eq cbor txs rs,
    extractAllReceipts_eq cbor txs rs, ?_, extractAllTransactionEvents_eq cbor txs rs,
    extractAllTransactionHashes_ok cbor txs rs, extractAllTransactionHashes_missing cbor txs rs⟩
  · intro i
    exact (extractTransaction_answers cbor txs rs i).pair (extractReceipt_answers cbor txs rs i) _ _ _
  · intro i
    exact LazySlice.get_answers (stores_receipts cbor txs rs receiptExecutionStatusProjection)
      (fun r _ => r.executionStatusProjection_item) i
  · rw [extractAllTransactionsAndReceipts, extractAllTransactions_eq, extractAllReceipts_eq,
      wrapping_ok, wrapping_ok]
    rfl

/-- A deploy and an invoke transaction and their receipts, read back from the record of their block. -/
theorem partial_readers_deploy_invoke :
    let cbor : Cbor ℕ := Cbor.unary
    let t : Transaction ℕ := ⟨.deploy, some 7, [1, 2, 3, 4, 5], [], rfl, fun _ => rfl⟩
    let u : Transaction ℕ := ⟨.invoke, some 8, TransactionKind.invoke.fieldNames.map String.length, [9],
      List.length_map _, fun h => absurd rfl h⟩
    let r : Receipt ℕ := ⟨1, 2, some 3, 4, 5, 6, some 7, true, "out of gas"⟩
    let s : Receipt ℕ := ⟨6, 5, none, 3, 2, 1, some 8, false, ""⟩
    let data := (newBlockTransactions cbor [t, u] [r, s]).marshal cbor
    unmarshalPartial cbor (extractTransaction cbor) 1 data = .ok u ∧
    unmarshalPartial cbor (extractReceipt cbor) 0 data = .ok r ∧
    unmarshalPartial cbor (extractTransactionAndReceipt cbor) 1 data = .ok ⟨u, s⟩ ∧
    unmarshalPartial cbor (extractExecutionStatus cbor) 0 data = .ok ⟨true, "out of gas"⟩ ∧
    (∃ err, unmarshalPartial cbor (extractReceipt cbor) 2 data = .error err ∧ err.isKeyNotFound) ∧
    unmarshalPartial cbor (extractAllTransactionEvents cbor) () data =
      .ok [⟨some 3, some 7⟩, ⟨none, some 8⟩] ∧
    unmarshalPartial cbor (extractAllTransactionHashes cbor) () data = .ok [7, 8] := by
  intro cbor t u r s data
  obtain ⟨htx, hreceipt, hboth, hstatus, -, -, -, hevents, hhashes, -⟩ := partial_readers cbor [t, u] [r, s]
  refine ⟨(htx 1).eq_ok rfl, (hreceipt 0).eq_ok rfl, (hboth 1).eq_ok rfl, (hstatus 0).eq_ok rfl,
    (hreceipt 2).not_found rfl,
    hevents, hhashes ?_⟩
  intro v hv
  simp only [List.mem_cons, List.not_mem_nil, or_false] at hv
  rcases hv with rfl | rfl
  · exact (by decide : (7 : Felt) ≠ 0)
  · exact (by decide : (8 : Felt) ≠ 0)

/-- A transaction whose hash is missing has no place in the list of hashes: the whole read is refused. -/
theorem missing_hash_refused :
    ∃ (cbor : Cbor ℕ) (t : Transaction ℕ), t.transactionHash = none ∧
      unmarshalPartial cbor (extractAllTransactionHashes cbor) ()
        ((newBlockTransactions cbor [t] []).marshal cbor) =
        .error (.wrapped "extracting transaction hashes" (.missingHash 0)) := by
  let t : Transaction ℕ := ⟨.deploy, none, [1, 2, 3, 4, 5], [], rfl, fun _ => rfl⟩
  refine ⟨Cbor.unary, t, rfl, ?_⟩
  rw [unmarshalPartial_marshal]
  obtain ⟨i, t, hi, -, h⟩ :=
    extractAllTransactionHashes_missing Cbor.unary [t] [] ⟨t, List.mem_singleton_self t, rfl⟩
  have hlt := (List.getElem?_eq_some_iff.mp hi).1
  rw [List.length_singleton, Nat.lt_one_iff] at hlt
  rw [h, hlt]

end Juno.Core
