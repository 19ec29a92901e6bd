import Juno.Core.Felt
import Juno.Lib.GoMap

/-!
# Blocks and state updates

The parts of `core` that both state backends work on: the state update of a block, the
class definitions that come with it, and the metadata of compiled classes. Go maps are
finite maps; a `*felt.Felt` in them is never nil. A block number is a `uint64`, which
is never added to here.
-/

namespace Juno

open Lib

/-- `felt.FromBytes` of an ASCII string, big-endian. -/
def feltFromBytes (bytes : List UInt8) : Felt := Fin.ofNat P (bytes.foldl (fun n b => 256 * n + b.toNat) 0)

/-- The bytes of `STARKNET_STATE_V0`. -/
def stateVersionBytes : List UInt8 := [83, 84, 65, 82, 75, 78, 69, 84, 95, 83, 84, 65, 84, 69, 95, 86, 48]

/-- The bytes of `CONTRACT_CLASS_LEAF_V0`. -/
def leafVersionBytes : List UInt8 :=
  [67, 79, 78, 84, 82, 65, 67, 84, 95, 67, 76, 65, 83, 83, 95, 76, 69, 65, 70, 95, 86, 48]

def stateVersion0 : Felt := feltFromBytes stateVersionBytes

def leafVersion0 : Felt := feltFromBytes leafVersionBytes

/-- The hash functions of `core/crypto`. -/
structure Crypto where
  pedersen : HashFn
  poseidon : HashFn
  /-- `crypto.PoseidonElems` of three elements. -/
  poseidonElems : Felt → Felt → Felt → Felt

/-! ### Versions -/

structure BlockVersion where
  major : ℕ
  minor : ℕ
  patch : ℕ
  deriving DecidableEq, Repr

/-- `semver.Version.LessThan`. -/
def BlockVersion.lessThan (a b : BlockVersion) : Bool :=
  a.major <
    b.major || (a.major == b.major && (a.minor < b.minor || (a.minor == b.minor && a.patch < b.patch)))

def ver0_14_0 : BlockVersion := ⟨0, 14, 0⟩

def ver0_14_1 : BlockVersion := ⟨0, 14, 1⟩

/-- The fields of `core.Header` a state backend reads. -/
structure Header where
  number : ℕ
  /-- `ProtocolVersion`, as `ParseBlockVersion` reads it; nil if it does not parse. -/
  protocolVersion : Option BlockVersion
  deriving DecidableEq, Repr

/-! ### Classes -/

/-- `core.ClassDefinition`: one of the two kinds of classes. -/
inductive ClassDefinition where
  /-- `DeprecatedCairoClass`, as its bytes. -/
  | deprecatedCairo (bytes : List UInt8)
  /-- `SierraClass`, as its bytes, with the `HashVersionV2` hash of its compiled class. -/
  | sierra (bytes : List UInt8) (compiledHashV2 : Felt)
  deriving DecidableEq, Repr

def ClassDefinition.isSierra : ClassDefinition → Bool
  | sierra _ _ => true
  | deprecatedCairo _ => false

/-- `core.DeclaredClassDefinition`. -/
structure DeclaredClass where
  /-- `At`: the block the class was declared at. -/
  declaredAt : ℕ
  definition : ClassDefinition
  deriving DecidableEq, Repr

/-- `core.ClassCasmHashMetadata`. -/
structure CasmMetadata where
  declaredAt : ℕ
  casmHashV2 : Felt
  migratedAt : ℕ
  /-- `casmHashV1`, nil if the class was declared with the hash of version 2. -/
  casmHashV1 : Option Felt
  deriving DecidableEq, Repr

namespace CasmMetadata

def newDeclaredV1 (declaredAt : ℕ) (casmHashV1 casmHashV2 : Felt) : CasmMetadata :=
  ⟨declaredAt, casmHashV2, 0, some casmHashV1⟩

def newDeclaredV2 (declaredAt : ℕ) (casmHashV2 : Felt) : CasmMetadata := ⟨declaredAt, casmHashV2, 0, none⟩

variable (c : CasmMetadata)

def isMigrated : Bool := c.migratedAt > 0

def isDeclaredWithV2 : Bool := c.casmHashV1 == none

/-- `CasmHash`; the hash of version 1 is there when it is read. -/
def casmHash : Felt :=
  if c.isDeclaredWithV2 || c.isMigrated then c.casmHashV2 else c.casmHashV1.getD 0

inductive MigrateError where
  /-- `ErrCannotMigrateV2Declared`. -/
  | v2Declared
  /-- `ErrCannotMigrateBeforeDeclared`. -/
  | beforeDeclared
  /-- `ErrCannotMigrateAlreadyMigrated`. -/
  | alreadyMigrated
  /-- `ErrCannotUnmigrateNotMigrated`. -/
  | notMigrated
  deriving DecidableEq, Repr

def migrate (migratedAt : ℕ) : Except MigrateError CasmMetadata :=
  if c.isDeclaredWithV2 then .error .v2Declared
  else if migratedAt ≤ c.declaredAt then .error .beforeDeclared
  else if c.isMigrated then .error .alreadyMigrated
  else .ok { c with migratedAt := migratedAt }

def unmigrate : Except MigrateError CasmMetadata :=
  if !c.isMigrated then .error .notMigrated else .ok { c with migratedAt := 0 }

end CasmMetadata

/-! ### State updates -/

/-- `core.StateDiff`. -/
structure StateDiff where
  /-- `StorageDiffs`: the storage writes of each contract. -/
  storageDiffs : GoMap Felt (GoMap Felt Felt)
  nonces : GoMap Felt Felt
  /-- `DeployedContracts`: the class hash of each new contract. -/
  deployedContracts : GoMap Felt Felt
  declaredV0Classes : List Felt
  /-- `DeclaredV1Classes`: the compiled class hash of each class hash. -/
  declaredV1Classes : GoMap Felt Felt
  /-- `ReplacedClasses`: the new class hash of each contract. -/
  replacedClasses : GoMap Felt Felt
  /-- `MigratedClasses`: the new compiled class hash of each class hash. -/
  migratedClasses : GoMap Felt Felt
  deriving DecidableEq

def StateDiff.empty : StateDiff := ⟨∅, ∅, ∅, [], ∅, ∅, ∅⟩

variable (diff : StateDiff) (addr : Felt)

def StateDiff.slot (key : Felt) : Option Felt :=
  (diff.storageDiffs.lookup addr).bind (·.lookup key)

/-- The class hash a diff gives to a contract: replaced after deployed. -/
def StateDiff.classHash : Option Felt :=
  (diff.replacedClasses.lookup addr).or (diff.deployedContracts.lookup addr)

/-- `core.StateUpdate`, less the block hash. -/
structure StateUpdate where
  oldRoot : Felt
  newRoot : Felt
  stateDiff : StateDiff
  deriving DecidableEq

/-! ### System contracts -/

/-- `SystemContracts`: the contracts that hold storage but have no class. -/
def systemContracts : List Felt := [1, 2]

def isSystemContract : Bool := systemContracts.contains addr

def systemContractsClassHash : Felt := 0

/-- A contract, less its storage: what both state backends keep of it. -/
structure Contract where
  nonce : Felt
  classHash : Felt
  /-- The block the contract was deployed at. -/
  deployedHeight : ℕ
  deriving DecidableEq

/-! ### Keys -/

/-- `ContractTrieHeight`, `ContractStorageTrieHeight` and `ClassTrieHeight`. -/
def trieHeight : ℕ := 251

def InRange (k : Felt) : Prop := k.val < 2 ^ trieHeight

instance (k : Felt) : Decidable (InRange k) := inferInstanceAs (Decidable (_ < _))

def StateDiff.Touches : Prop :=
  addr ∈ diff.replacedClasses ∨ addr ∈ diff.nonces ∨ addr ∈ diff.storageDiffs

instance (diff : StateDiff) (addr : Felt) : Decidable (diff.Touches addr) :=
  inferInstanceAs (Decidable (_ ∨ _ ∨ _))

/-- The addresses, storage keys and class hashes of a diff are keys of the tries, and the contract with the
zero address is not written to. -/
structure StateDiff.KeysInRange (diff : StateDiff) : Prop where
  deployed : ∀ addr ∈ diff.deployedContracts, InRange addr
  touched : ∀ addr, diff.Touches addr → InRange addr
  slots : ∀ addr writes, diff.storageDiffs.lookup addr = some writes → ∀ key ∈ writes, InRange key
  zero : 0 ∉ diff.storageDiffs
  declaredV0 : ∀ hash ∈ diff.declaredV0Classes, InRange hash
  declaredV1 : ∀ hash ∈ diff.declaredV1Classes, InRange hash
  migrated : ∀ hash ∈ diff.migratedClasses, InRange hash

end Juno
