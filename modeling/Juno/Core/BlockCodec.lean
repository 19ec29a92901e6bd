import Juno.Core.Felt
import Juno.Lib.Except
import Mathlib

/-!
# Encoded transactions and receipts

What CBOR encoding makes of the transactions and receipts of a block, and what decoding into a Go
type reads of it.

## The model

CBOR is modelled at two levels. An encoded value is an `Item`: a map from keys to leaves, with the
tag the encoder puts in front of registered types. What the library does with bytes is a parameter
(`Cbor`): it writes each item as a string that ends by itself, and reads it back. What decoding
into a Go type does with the item is a definition: fields are found by name, a missing or null
field keeps its zero value, a field of another type is an error, and a field that the target type
does not read is skipped. Values that are only copied (`V`) stay abstract.
-/

namespace Juno.Core

open Lib List

variable {α : Type} {f : Option Felt}

/-- `[]byte`. -/
abbrev Bytes := List UInt8

/-! ### Errors -/

inductive ReadError where
  /-- `db.ErrKeyNotFound`. -/
  | keyNotFound
  /-- The bytes are not one encoded value of the type asked for. -/
  | decode
  /-- `missing TransactionHash in transaction %d`. -/
  | missingHash (index : ℕ)
  /-- An error under a context, as `fmt.Errorf` with `%w` makes it. -/
  | wrapped (context : String) (err : ReadError)
  /-- An index or a slice expression out of range. -/
  | panic
  deriving DecidableEq

/-- `errors.Is(err, db.ErrKeyNotFound)`. -/
def ReadError.isKeyNotFound : ReadError → Bool
  | .keyNotFound => true
  | .wrapped _ err => err.isKeyNotFound
  | _ => false

/-- Puts a context around an error. A panic is not an error value and passes through. -/
def wrapping (context : String) : Except ReadError α → Except ReadError α
  | .ok a => .ok a
  | .error .panic => .error .panic
  | .error err => .error (.wrapped context err)

@[simp] theorem wrapping_ok (context : String) (a : α) : wrapping context (.ok a) = .ok a := rfl

/-! ### Encoded values -/

instance countableChar : Countable Char :=
  Function.Injective.countable (f := Char.toNat) fun _ _ h => Char.toNat_inj.mp h

instance countableString : Countable String :=
  Function.Injective.countable (f := String.toList) fun _ _ h => String.toList_inj.mp h

/-- A key of an encoded struct: the name of a field, or its number if it is tagged `keyasint`. -/
inductive Key where
  | name (s : String)
  | int (n : ℕ)
  deriving DecidableEq, Countable

inductive Leaf (V : Type) where
  | null
  | bool (b : Bool)
  | text (s : String)
  | felt (f : Felt)
  | felts (l : List Felt)
  | ints (l : List ℕ)
  /-- A value that no reader looks into. -/
  | value (v : V)
  deriving Countable

namespace Leaf

variable {V : Type}

def asBool : Leaf V → Option Bool
  | .bool b => some b
  | _ => none

def asText : Leaf V → Option String
  | .text s => some s
  | _ => none

def asFelt : Leaf V → Option Felt
  | .felt f => some f
  | _ => none

def asFelts : Leaf V → Option (List Felt)
  | .felts l => some l
  | _ => none

def asInts : Leaf V → Option (List ℕ)
  | .ints l => some l
  | _ => none

def asValue : Leaf V → Option V
  | .value v => some v
  | _ => none

def ofFelt? : Option Felt → Leaf V
  | none => .null
  | some f => .felt f

def ofValue? : Option V → Leaf V
  | none => .null
  | some v => .value v

end Leaf

structure Item (V : Type) where
  tag : Option ℕ
  fields : List (Key × Leaf V)
  deriving Countable

section

variable {V : Type} {α : Type}

/-- How a field of the target is filled: a missing or null field keeps its zero value. -/
def Item.get (item : Item V) (key : Key) (zero : α) (read : Leaf V → Option α) : Except ReadError α :=
  match item.fields.lookup key with
  | none => .ok zero
  | some .null => .ok zero
  | some leaf => (read leaf).elim (.error .decode) .ok

/-- How a pointer field of the target is filled. -/
def Item.get? (item : Item V) (key : Key) (read : Leaf V → Option α) : Except ReadError (Option α) :=
  item.get key none fun leaf => (read leaf).map some

end

structure Cbor (V : Type) where
  encode : Item V → Bytes
  /-- The first encoded value, and the bytes behind it. -/
  decodeFirst : Bytes → Option (Item V × Bytes)
  /-- An encoded value ends by itself and is read back. -/
  decodeFirst_encode : ∀ item rest, decodeFirst (encode item ++ rest) = some (item, rest)

namespace Cbor

variable {V : Type} (cbor : Cbor V)

def unmarshalFirst (data : Bytes) : Except ReadError (Item V × Bytes) :=
  (cbor.decodeFirst data).elim (.error .decode) .ok

/-- `cbor.Unmarshal`, up to the target: nothing may follow the value. -/
def unmarshal (data : Bytes) : Except ReadError (Item V) := do
  let first ← cbor.unmarshalFirst data
  if first.2 = [] then .ok first.1 else .error .decode

theorem unmarshalFirst_encode (item : Item V) (rest : Bytes) :
    cbor.unmarshalFirst (cbor.encode item ++ rest) = .ok (item, rest) := by
  rw [unmarshalFirst, cbor.decodeFirst_encode]
  rfl

theorem unmarshal_encode (item : Item V) : cbor.unmarshal (cbor.encode item) = .ok item := by
  have h := cbor.unmarshalFirst_encode item []
  rw [append_nil] at h
  rw [unmarshal, h, ok_bind, if_pos rfl]

noncomputable def number [Countable V] : Item V → ℕ := (exists_injective_nat (Item V)).choose

theorem number_injective [Countable V] : Function.Injective (number : Item V → ℕ) :=
  (exists_injective_nat (Item V)).choose_spec

/-- A library for values that can be counted: the number of the item in unary, ended by a zero. -/
noncomputable def unary [Countable V] : Cbor V where
  encode item := List.replicate (number item) 1 ++ [0]
  decodeFirst data :=
    ((number : Item V → ℕ).partialInv (data.takeWhile (· == 1)).length).map
      fun item => (item, (data.dropWhile (· == 1)).tail)
  decodeFirst_encode item rest := by
    have htake : ((List.replicate (number item) 1 ++ [0] ++ rest).takeWhile (· == 1)).length =
        number item := by
      rw [List.append_assoc, List.takeWhile_append_of_pos (by simp)]
      simp
    have hdrop : (List.replicate (number item) 1 ++ [0] ++ rest).dropWhile (· == 1) = 0 :: rest := by
      rw [List.append_assoc, List.dropWhile_append_of_pos (by simp)]
      simp
    rw [htake, hdrop, Function.partialInv_left number_injective]
    rfl

end Cbor

/-! ### Transactions and receipts -/

inductive TransactionKind where
  | declare | deploy | invoke | l1Handler | deployAccount
  deriving DecidableEq

namespace TransactionKind

/-- The tag the registry gives to the struct. -/
def tag : TransactionKind → ℕ
  | .declare => 65536
  | .deploy => 65537
  | .invoke => 65538
  | .l1Handler => 65539
  | .deployAccount => 65540

/-- The struct registered under a tag, among those that are transactions. -/
def ofTag (tag : ℕ) : Option TransactionKind :=
  [.declare, .deploy, .invoke, .l1Handler, .deployAccount].find? (·.tag = tag)

/-- The fields of the struct, without `TransactionHash` and `ProofFacts`. -/
def fieldNames : TransactionKind → List String
  | .declare =>
    ["ClassHash", "SenderAddress", "MaxFee", "TransactionSignature", "Nonce", "Version", "CompiledClassHash",
      "ResourceBounds", "Tip", "PaymasterData", "AccountDeploymentData", "NonceDAMode", "FeeDAMode"]
  | .deploy => ["ContractAddressSalt", "ContractAddress", "ClassHash", "ConstructorCallData", "Version"]
  | .invoke =>
    ["CallData", "TransactionSignature", "MaxFee", "ContractAddress", "Version",
      "EntryPointSelector", "Nonce",
      "SenderAddress", "ResourceBounds", "Tip", "PaymasterData", "AccountDeploymentData",
        "NonceDAMode", "FeeDAMode"]
  | .l1Handler => ["ContractAddress", "EntryPointSelector", "Nonce", "CallData", "Version"]
  | .deployAccount =>
    ["ContractAddressSalt", "ContractAddress", "ClassHash", "ConstructorCallData", "Version", "MaxFee",
      "TransactionSignature", "Nonce", "ResourceBounds", "Tip", "PaymasterData", "NonceDAMode", "FeeDAMode"]

@[simp] theorem ofTag_tag (kind : TransactionKind) : ofTag kind.tag = some kind := by
  cases kind <;> rfl

theorem fieldNames_nodup (kind : TransactionKind) :
    ("TransactionHash" :: (kind.fieldNames ++ ["ProofFacts"])).Nodup := by
  cases kind <;> decide

end TransactionKind

structure Transaction (V : Type) where
  kind : TransactionKind
  transactionHash : Option Felt
  /-- The other fields, in the order of the struct. -/
  values : List V
  /-- `ProofFacts`, which an invoke transaction alone has. -/
  proofFacts : List Felt
  length_values : values.length = kind.fieldNames.length
  proofFacts_invoke : kind ≠ .invoke → proofFacts = []

structure Receipt (V : Type) where
  fee : V
  feeUnit : V
  events : Option V
  executionResources : V
  l1ToL2Message : V
  l2ToL1Message : V
  transactionHash : Option Felt
  reverted : Bool
  revertReason : String

/-- `TransactionExecutionStatus`, and the projection it is read from. -/
structure TransactionExecutionStatus where
  reverted : Bool
  revertReason : String
  deriving DecidableEq

/-- `TransactionEvents`, and the projection it is read from. -/
structure TransactionEvents (V : Type) where
  events : Option V
  transactionHash : Option Felt

structure TransactionAndReceipt (V : Type) where
  transaction : Transaction V
  receipt : Receipt V

structure TransactionsAndReceipts (V : Type) where
  transactions : List (Transaction V)
  receipts : List (Receipt V)

section

variable {V : Type}

/-- A transaction as the encoder sees it. `ProofFacts` is tagged `omitempty`. -/
def Transaction.item (t : Transaction V) : Item V where
  tag := some t.kind.tag
  fields :=
    (.name "TransactionHash", .ofFelt? t.transactionHash) ::
      ((t.kind.fieldNames.zip t.values).map (fun p => (Key.name p.1, Leaf.value p.2)) ++
        if t.proofFacts = [] then [] else [(.name "ProofFacts", .felts t.proofFacts)])

def Receipt.item (r : Receipt V) : Item V where
  tag := none
  fields :=
    [(.name "Fee", .value r.fee), (.name "FeeUnit", .value r.feeUnit), (.name "Events", .ofValue? r.events),
      (.name "ExecutionResources", .value r.executionResources),
        (.name "L1ToL2Message", .value r.l1ToL2Message),
      (.name "L2ToL1Message", .value r.l2ToL1Message), (.name "TransactionHash", .ofFelt? r.transactionHash),
      (.name "Reverted", .bool r.reverted), (.name "RevertReason", .text r.revertReason)]

def Receipt.executionStatus (r : Receipt V) : TransactionExecutionStatus := ⟨r.reverted, r.revertReason⟩

def Receipt.transactionEvents (r : Receipt V) : TransactionEvents V := ⟨r.events, r.transactionHash⟩

/-- The hash of a transaction as a value: zero if it is missing. -/
def Transaction.hash (t : Transaction V) : Felt := t.transactionHash.getD 0

/-! ### Decoding into a type -/

/-- The field `ProofFacts`, which one struct has. -/
def TransactionKind.proofFacts (kind : TransactionKind) (item : Item V) : Except ReadError (List Felt) :=
  if kind = .invoke then item.get (.name "ProofFacts") [] Leaf.asFelts else .ok []

/-- Into the interface `Transaction`: the tag says which struct it is. -/
def Transaction.decode [Inhabited V] (item : Item V) : Except ReadError (Transaction V) :=
  match item.tag.bind TransactionKind.ofTag with
  | none => .error .decode
  | some kind => do
    let transactionHash ← item.get? (.name "TransactionHash") Leaf.asFelt
    let values ← kind.fieldNames.mapM fun name => item.get (.name name) default Leaf.asValue
    let proofFacts ← kind.proofFacts item
    -- The condition always holds: there is one value for each name.
    if h : values.length = kind.fieldNames.length ∧ (kind ≠ .invoke → proofFacts = []) then
      .ok ⟨kind, transactionHash, values, proofFacts, h.1, h.2⟩
    else .error .decode

/-- Into `*TransactionReceipt`. -/
def Receipt.decode [Inhabited V] (item : Item V) : Except ReadError (Receipt V) := do
  let fee ← item.get (.name "Fee") default Leaf.asValue
  let feeUnit ← item.get (.name "FeeUnit") default Leaf.asValue
  let events ← item.get? (.name "Events") Leaf.asValue
  let executionResources ← item.get (.name "ExecutionResources") default Leaf.asValue
  let l1ToL2Message ← item.get (.name "L1ToL2Message") default Leaf.asValue
  let l2ToL1Message ← item.get (.name "L2ToL1Message") default Leaf.asValue
  let transactionHash ← item.get? (.name "TransactionHash") Leaf.asFelt
  let reverted ← item.get (.name "Reverted") false Leaf.asBool
  let revertReason ← item.get (.name "RevertReason") "" Leaf.asText
  .ok ⟨fee, feeUnit, events, executionResources, l1ToL2Message, l2ToL1Message, transactionHash,
    reverted, revertReason⟩

/-- Into `receiptExecutionStatusProjection`: the other fields are discarded. -/
def receiptExecutionStatusProjection (item : Item V) : Except ReadError TransactionExecutionStatus := do
  let reverted ← item.get (.name "Reverted") false Leaf.asBool
  let revertReason ← item.get (.name "RevertReason") "" Leaf.asText
  .ok ⟨reverted, revertReason⟩

def receiptEventsProjection (item : Item V) : Except ReadError (TransactionEvents V) := do
  let events ← item.get? (.name "Events") Leaf.asValue
  let transactionHash ← item.get? (.name "TransactionHash") Leaf.asFelt
  .ok ⟨events, transactionHash⟩

/-- Into `transactionHashProjection`, which is not a registered type: the tag is ignored. The hash is a value
there, so a missing one is zero. -/
def transactionHashProjection (item : Item V) : Except ReadError Felt :=
  item.get (.name "TransactionHash") 0 Leaf.asFelt

/-! ### What decoding gives back -/

/-- In a map without repeated keys each entry is found under its key. -/
theorem lookup_of_mem {fields : List (Key × Leaf V)} (hnodup : (fields.map Prod.fst).Nodup) {key : Key}
    {leaf : Leaf V} (h : (key, leaf) ∈ fields) : fields.lookup key = some leaf := by
  induction fields with
  | nil => cases h
  | cons field fields ih =>
    obtain ⟨key', leaf'⟩ := field
    rw [map_cons, nodup_cons] at hnodup
    rcases mem_cons.mp h with heq | h
    · obtain ⟨rfl, rfl⟩ := Prod.ext_iff.mp heq
      simp
    · have hne : (key == key') = false := beq_eq_false_iff_ne.mpr fun heq =>
        hnodup.1 (mem_map.mpr ⟨(key, leaf), h, heq⟩)
      rw [lookup_cons, hne]
      exact ih hnodup.2 h

namespace Item

variable {item : Item V} {key : Key}

theorem get_none {zero : α} {read : Leaf V → Option α} (h : item.fields.lookup key = none) :
    item.get key zero read = .ok zero := by
  rw [get, h]

theorem get_value {v zero : V} (h : item.fields.lookup key = some (.value v)) :
    item.get key zero Leaf.asValue = .ok v := by
  rw [get, h]
  rfl

theorem get_felts {l zero : List Felt} (h : item.fields.lookup key = some (.felts l)) :
    item.get key zero Leaf.asFelts = .ok l := by
  rw [get, h]
  rfl

theorem get_ofFelt? (h : item.fields.lookup key = some (.ofFelt? f)) {zero : Felt} :
    item.get key zero Leaf.asFelt = .ok (f.getD zero) := by
  rw [get, h]
  cases f <;> rfl

theorem get?_ofFelt? (h : item.fields.lookup key = some (.ofFelt? f)) :
    item.get? key Leaf.asFelt = .ok f := by
  rw [get?, get, h]
  cases f <;> rfl

theorem get?_ofValue? {v : Option V} (h : item.fields.lookup key = some (.ofValue? v)) :
    item.get? key Leaf.asValue = .ok v := by
  rw [get?, get, h]
  cases v <;> rfl

end Item

namespace Transaction

variable (t : Transaction V)

/-- The keys of an encoded transaction are the fields of its struct. -/
theorem keys_item : (t.item.fields.map Prod.fst).Sublist
    (("TransactionHash" :: (t.kind.fieldNames ++ ["ProofFacts"])).map Key.name) := by
  have hzip : ((t.kind.fieldNames.zip t.values).map fun p => (Key.name p.1, Leaf.value p.2)).map Prod.fst =
      t.kind.fieldNames.map Key.name := by
    have hnames := map_fst_zip t.length_values.ge
    rw [map_map]
    conv_rhs => rw [← hnames, map_map]
    rfl
  simp only [item, map_cons, map_append, hzip]
  refine .cons_cons _ ((Sublist.refl _).append ?_)
  split <;> simp

theorem nodup_item : (t.item.fields.map Prod.fst).Nodup :=
  t.keys_item.nodup (t.kind.fieldNames_nodup.map fun _ _ h => Key.name.inj h)

theorem lookup_hash : t.item.fields.lookup (.name "TransactionHash") = some (.ofFelt? t.transactionHash) :=
  lookup_of_mem t.nodup_item (by simp [item])

theorem values_item [Inhabited V] :
    (t.kind.fieldNames.mapM fun name => t.item.get (.name name) default Leaf.asValue) = .ok t.values := by
  refine mapM_eq_ok.mpr (forall₂_iff_zip.mpr ⟨t.length_values.symm, ?_⟩)
  intro name v h
  refine Item.get_value (lookup_of_mem t.nodup_item ?_)
  simp only [item, mem_cons, mem_append, mem_map]
  exact .inr (.inl ⟨(name, v), h, rfl⟩)

theorem proofFacts_item : t.kind.proofFacts t.item = .ok t.proofFacts := by
  by_cases h : t.kind = .invoke
  · rw [TransactionKind.proofFacts, if_pos h]
    by_cases hp : t.proofFacts = []
    · rw [hp]
      refine Item.get_none (lookup_eq_none_iff.mpr ?_)
      simp only [item, hp, if_true, append_nil, mem_cons, mem_map]
      rintro p (rfl | ⟨q, hq, rfl⟩)
      · simp
      · have hmem := (of_mem_zip (show (q.1, q.2) ∈ t.kind.fieldNames.zip t.values from hq)).1
        have hne : "ProofFacts" ≠ q.1 := by
          intro heq
          rw [← heq, h] at hmem
          exact absurd hmem (by decide)
        simpa using hne
    · exact Item.get_felts (lookup_of_mem t.nodup_item (by simp [item, hp]))
  · rw [TransactionKind.proofFacts, if_neg h, t.proofFacts_invoke h]

theorem decode_item [Inhabited V] : decode t.item = .ok t := by
  have htag : t.item.tag.bind TransactionKind.ofTag = some t.kind := by simp [item]
  rw [decode, htag]
  simp only [Item.get?_ofFelt? t.lookup_hash, t.values_item, t.proofFacts_item, ok_bind]
  exact dif_pos ⟨t.length_values, t.proofFacts_invoke⟩

theorem hashProjection_item : transactionHashProjection t.item = .ok t.hash :=
  Item.get_ofFelt? t.lookup_hash

end Transaction

namespace Receipt

variable (r : Receipt V)

theorem lookup_events : r.item.fields.lookup (.name "Events") = some (.ofValue? r.events) := rfl

theorem lookup_hash :
    r.item.fields.lookup (.name "TransactionHash") = some (.ofFelt? r.transactionHash) := rfl

theorem decode_item [Inhabited V] : decode r.item = .ok r := by
  rw [decode, Item.get?_ofValue? r.lookup_events, Item.get?_ofFelt? r.lookup_hash]
  rfl

theorem executionStatusProjection_item : receiptExecutionStatusProjection r.item = .ok r.executionStatus :=
  rfl

theorem eventsProjection_item : receiptEventsProjection r.item = .ok r.transactionEvents := by
  rw [receiptEventsProjection, Item.get?_ofValue? r.lookup_events, Item.get?_ofFelt? r.lookup_hash]
  rfl

end Receipt

end

end Juno.Core
