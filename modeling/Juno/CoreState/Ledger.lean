import Juno.CoreState.State
import Juno.Trie2.Run

/-!
# The ledger

What the state is for: the contracts with their nonces, class hashes and storage, the
class leaves and definitions, and the histories, as functions. The database of a
ledger (`Ledger.toDB`) has the tries of these functions, node by node.

## The model

`Ledger.commit` is what `commit` and `flush` do with the contracts that are being
changed: each is written or deleted, and a system contract without storage is deleted.
`Ledger.update` and `Ledger.revert` are what `Update` and `Revert` do.
-/

namespace Juno

def Contract.record (c : Crypto) (k : Contract) (storage : Felt → Felt) : CoreState.StateContract :=
  ⟨k.nonce, k.classHash, k.deployedHeight, mapRoot c.pedersen trieHeight storage⟩

end Juno

namespace Juno.CoreState

open Lib Trie2 Option

/-- A contract that is being changed, and its storage writes. -/
structure Object where
  contract : Contract
  writes : GoMap Felt Felt

/-- **The ledger.** -/
@[ext]
structure Ledger where
  contracts : Felt → Option Contract
  storage : Felt → Felt → Felt
  classLeaves : Felt → Felt
  classes : Felt → Option DeclaredClass
  /-- The nonces each contract was given, by block. -/
  nonceHistory : Felt → ℕ → Option Felt
  /-- The class hashes each contract was given, by block. -/
  classHashHistory : Felt → ℕ → Option Felt
  /-- The values each slot was given, by block. -/
  storageHistory : Felt → Felt → ℕ → Option Felt
  /-- The metadata of compiled classes, which the state only reads. -/
  casmMetadata : Felt → Option CasmMetadata

def Ledger.empty : Ledger :=
  ⟨fun _ => none, fun _ _ => 0, fun _ => 0, fun _ => none, fun _ _ => none, fun _ _ => none,
    fun _ _ _ => none, fun _ => none⟩

variable (c : Crypto) (L : Ledger)

def Ledger.leaf (addr : Felt) : Felt :=
  match L.contracts addr with
  | none => 0
  | some k => (k.record c (L.storage addr)).commitment c

/-- **The database of a ledger.** -/
def Ledger.toDB : DB where
  classNodes := storeOf trieHeight c.poseidon L.classLeaves
  contractNodes := storeOf trieHeight c.pedersen (L.leaf c)
  storageNodes addr := storeOf trieHeight c.pedersen (L.storage addr)
  contracts addr := (L.contracts addr).map fun k => k.record c (L.storage addr)
  classes := L.classes
  nonceHistory := L.nonceHistory
  classHashHistory := L.classHashHistory
  storageHistory := L.storageHistory
  casmMetadata := L.casmMetadata

/-! ### Contracts that are being changed -/

/-- The contracts that are being changed; a missing object is one to be deleted. -/
abbrev Objects := Felt → Option (Option Object)

variable (L : Ledger) (objs : Objects)

def Ledger.objectAt (addr : Felt) : Option Object :=
  match objs addr with
  | some obj => obj
  | none => (L.contracts addr).map (⟨·, ∅⟩)

def Ledger.updateObjects {α : Type} (diff : GoMap Felt α) (make : Felt → Option Object)
    (set : α → Object → Object) : Objects := fun addr =>
  match diff.lookup addr with
  | none => objs addr
  | some x => some (((L.objectAt objs addr).or (make addr)).map (set x))

/-- Every contract of the part of the diff has an object, or gets one. -/
def Ledger.Updatable {α : Type} (diff : GoMap Felt α) (make : Felt → Option Object) : Prop :=
  ∀ addr ∈ diff, ((L.objectAt objs addr).or (make addr)).isSome

def Object.setClassHash (classHash : Felt) (obj : Object) : Object :=
  { obj with contract := { obj.contract with classHash := classHash } }

def Object.setNonce (nonce : Felt) (obj : Object) : Object :=
  { obj with contract := { obj.contract with nonce := nonce } }

def Object.setWrites (writes : GoMap Felt Felt) (obj : Object) : Object := { obj with writes := writes }

variable (blockNum : ℕ)

/-- A system contract is made when it is written to. -/
def makeSystemContract (addr : Felt) : Option Object :=
  if isSystemContract addr then some ⟨⟨0, systemContractsClassHash, blockNum⟩, ∅⟩ else none

def Ledger.updateContracts (blockNum : ℕ) (replacedClasses nonces : GoMap Felt Felt)
    (storageDiffs : GoMap Felt (GoMap Felt Felt)) : Objects :=
  let objs := L.updateObjects objs replacedClasses (fun _ => none) Object.setClassHash
  let objs := L.updateObjects objs nonces (fun _ => none) Object.setNonce
  L.updateObjects objs storageDiffs (makeSystemContract blockNum) Object.setWrites

def Ledger.ContractsUpdatable (blockNum : ℕ) (replacedClasses nonces : GoMap Felt Felt)
    (storageDiffs : GoMap Felt (GoMap Felt Felt)) : Prop :=
  L.Updatable objs replacedClasses (fun _ => none) ∧
  L.Updatable (L.updateObjects objs replacedClasses (fun _ => none) Object.setClassHash) nonces
    (fun _ => none) ∧
  L.Updatable
    (L.updateObjects (L.updateObjects objs replacedClasses (fun _ => none) Object.setClassHash) nonces
    (fun _ => none) Object.setNonce) storageDiffs (makeSystemContract blockNum)

def Ledger.newStorage (addr : Felt) (obj : Object) : Felt → Felt := obj.writes.override (L.storage addr)

/-- A system contract without storage is deleted. -/
def Ledger.purged (addr : Felt) (obj : Object) : Prop :=
  isSystemContract addr = true ∧ mapRoot c.pedersen trieHeight (L.newStorage addr obj) = 0

instance (c : Crypto) (L : Ledger) (addr : Felt) (obj : Object) : Decidable (L.purged c addr obj) :=
  inferInstanceAs (Decidable (_ ∧ _))

/-- The objects, where a purged contract is to be deleted. -/
def Ledger.kept : Objects := fun addr =>
  match objs addr with
  | some (some obj) => if L.purged c addr obj then some none else some (some obj)
  | obj => obj

/-- The contracts after `commit` and `flush`. -/
def Ledger.commit : Ledger :=
  { L with
    contracts := fun addr =>
      match L.kept c objs addr with
      | none => L.contracts addr
      | some obj => obj.map (·.contract)
    storage := fun addr =>
      match L.kept c objs addr with
      | none => L.storage addr
      | some none => fun _ => 0
      | some (some obj) => L.newStorage addr obj }

/-- The ledger after `commit` and `flush`. -/
def Ledger.write (leaves : Felt → Felt) (blockNum : ℕ)
    (classes : GoMap Felt (Option ClassDefinition)) : Ledger :=
  { L.commit c objs with
    classLeaves := leaves
    classes := (classes.mapVals fun _ cls => cls.map (⟨blockNum, ·⟩)).override L.classes }

/-- `StateReader.Commitment`. -/
def Ledger.commitment (protocolVersion : Option BlockVersion) : Except StateError Felt :=
  stateCommitment c (mapRoot c.pedersen trieHeight (L.leaf c)) (mapRoot c.poseidon trieHeight L.classLeaves)
    protocolVersion

/-- The ledger with other metadata of compiled classes, which are not written by the state. -/
def Ledger.withMetadata (metadata : Felt → Option CasmMetadata) : Ledger :=
  { L with casmMetadata := metadata }

/-! ### Histories -/

def log (history : ℕ → Option Felt) (blockNum : ℕ) : Option (Option Felt) → ℕ → Option Felt
  | none => history
  | some entry => Function.update history blockNum entry

variable (diff : StateDiff)

def Ledger.writeHistory : Ledger :=
  { L with
    storageHistory := fun addr key => log (L.storageHistory addr key) blockNum ((diff.slot addr key).map some)
    nonceHistory := fun addr => log (L.nonceHistory addr) blockNum ((diff.nonces.lookup addr).map some)
    classHashHistory := fun addr => log (L.classHashHistory addr) blockNum ((diff.classHash addr).map some) }

def Ledger.deleteHistory : Ledger :=
  { L with
    storageHistory :=
      fun addr key => log (L.storageHistory addr key) blockNum ((diff.slot addr key).map fun _ => none)
    nonceHistory := fun addr =>
      log (L.nonceHistory addr) blockNum
        (((diff.nonces.lookup addr).or (diff.deployedContracts.lookup addr)).map fun _ => none)
    classHashHistory :=
      fun addr => log (L.classHashHistory addr) blockNum ((diff.classHash addr).map fun _ => none) }

/-! ### Update -/

def deployedObjects (deployed : GoMap Felt Felt) : Objects := fun addr =>
  (deployed.lookup addr).map fun classHash => some ⟨⟨0, classHash, blockNum⟩, ∅⟩

def Ledger.updateObjs : Objects :=
  L.updateContracts (deployedObjects blockNum diff.deployedContracts) blockNum diff.replacedClasses
    diff.nonces diff.storageDiffs

/-- The class leaves after a block: declared classes whose definition is supplied, then migrated classes. -/
def updatedLeaves (leaves : Felt → Felt) (diff : StateDiff)
    (declaredClasses : GoMap Felt ClassDefinition) : Felt → Felt :=
  (diff.migratedClasses.mapVals fun _ => State.classLeaf c).override
    (((diff.declaredV1Classes.filter fun hash _ => (declaredClasses.lookup hash).isSome).mapVals
      fun _ => State.classLeaf c).override leaves)

def Ledger.newClasses (declaredClasses : GoMap Felt ClassDefinition) : GoMap Felt (Option ClassDefinition) :=
  (declaredClasses.filter fun hash _ => (L.classes hash).isNone).mapVals fun _ => some

/-- **The ledger after a block.** -/
def Ledger.updated (blockNum : ℕ) (diff : StateDiff) (declaredClasses : GoMap Felt ClassDefinition) :
    Ledger :=
  (L.write c (L.updateObjs blockNum diff) (updatedLeaves c L.classLeaves diff declaredClasses) blockNum
    (L.newClasses declaredClasses)).writeHistory blockNum diff

/-- **The updates that are accepted.** -/
structure Ledger.Accepts (c : Crypto) (L : Ledger) (header : Header) (update : StateUpdate)
    (declaredClasses : GoMap Felt ClassDefinition) (skipVerifyNewRoot : Bool) : Prop where
  oldRoot : L.commitment c header.protocolVersion = .ok update.oldRoot
  deployed : ∀ addr ∈ update.stateDiff.deployedContracts, L.contracts addr = none
  /-- The contracts the diff changes exist. -/
  updatable :
    L.ContractsUpdatable (deployedObjects header.number update.stateDiff.deployedContracts) header.number
    update.stateDiff.replacedClasses update.stateDiff.nonces update.stateDiff.storageDiffs
  newRoot :
    ∃ newComm,
    (L.updated c header.number update.stateDiff declaredClasses).commitment c header.protocolVersion =
    .ok newComm ∧ (skipVerifyNewRoot = false → newComm = update.newRoot)

/-! ### Revert -/

def Ledger.reverseClasses : GoMap Felt Felt :=
  diff.replacedClasses.mapVals fun addr _ => State.valueBefore (L.classHashHistory addr) blockNum

def Ledger.reverseNonces : GoMap Felt Felt :=
  diff.nonces.mapVals fun addr _ => State.valueBefore (L.nonceHistory addr) blockNum

def Ledger.reverseStorage : GoMap Felt (GoMap Felt Felt) :=
  diff.storageDiffs.mapVals fun addr writes =>
    writes.mapVals fun key _ => State.valueBefore (L.storageHistory addr key) blockNum

/-- The contracts a revert changes; those the block deployed are to be deleted. -/
def Ledger.revertObjs : Objects := fun addr =>
  if addr ∈ diff.deployedContracts then some none
  else L.updateContracts (fun _ => none) blockNum (L.reverseClasses blockNum diff)
    (L.reverseNonces blockNum diff)
    (L.reverseStorage blockNum diff) addr

/-- The classes of a diff, as `Revert` visits them. -/
def declaredHashes : List Felt := diff.declaredV0Classes ++ diff.declaredV1Classes.keys

def Ledger.declaredAt (L : Ledger) (blockNum : ℕ) (hash : Felt) : Bool :=
  match L.classes hash with
  | none => false
  | some dc => dc.declaredAt = blockNum

def Ledger.isSierra (L : Ledger) (hash : Felt) : Bool :=
  match L.classes hash with
  | none => false
  | some dc => dc.definition.isSierra

/-- The leaf a migrated class had, if its metadata can be taken back. -/
def Ledger.unmigratedLeaf (hash : Felt) : Option Felt :=
  match L.casmMetadata hash with
  | none => none
  | some metadata =>
    match metadata.unmigrate with
    | .error _ => none
    | .ok metadata => some (State.classLeaf c metadata.casmHash)

def Ledger.revertedLeaves (blockNum : ℕ) (diff : StateDiff) : Felt → Felt :=
  (diff.migratedClasses.mapVals fun hash _ => (L.unmigratedLeaf c hash).getD 0).override fun hash =>
    if hash ∈ declaredHashes diff ∧ (L.declaredAt blockNum hash && L.isSierra hash) = true then 0
      else L.classLeaves hash

/-- **The ledger after a revert.** -/
def Ledger.reverted (blockNum : ℕ) (diff : StateDiff) : Ledger :=
  Ledger.deleteHistory { L.commit c (L.revertObjs blockNum diff) with
    classLeaves := L.revertedLeaves c blockNum diff
    classes := fun hash => if hash ∈ declaredHashes diff ∧ L.declaredAt blockNum hash = true then none
      else L.classes hash }
    blockNum diff

/-- **The updates that can be reverted.** -/
structure Ledger.Reverts (c : Crypto) (L : Ledger) (header : Header) (update : StateUpdate) : Prop where
  newRoot : L.commitment c header.protocolVersion = .ok update.newRoot
  classes : ∀ hash ∈ declaredHashes update.stateDiff, L.classes hash ≠ none
  /-- The metadata of the migrated classes can be taken back. -/
  migrated : ∀ hash ∈ update.stateDiff.migratedClasses, L.unmigratedLeaf c hash ≠ none
  /-- The contracts the diff changes exist. -/
  updatable :
    L.ContractsUpdatable (fun _ => none) header.number (L.reverseClasses header.number update.stateDiff)
    (L.reverseNonces header.number update.stateDiff) (L.reverseStorage header.number update.stateDiff)
  oldRoot : (L.reverted c header.number update.stateDiff).commitment c header.protocolVersion =
    .ok update.oldRoot

open Ledger

section

variable {c : Crypto} {L : Ledger} {objs : Objects} {addr : Felt} {obj : Object}

theorem Ledger.kept_none (h : objs addr = none) : L.kept c objs addr = none := by
  simp only [kept, h]

theorem Ledger.kept_deleted (h : objs addr = some none) : L.kept c objs addr = some none := by
  simp only [kept, h]

theorem Ledger.kept_purged (h : objs addr = some (some obj)) (hp : L.purged c addr obj) :
    L.kept c objs addr = some none := by
  simp only [kept, h, if_pos hp]

theorem Ledger.kept_some (h : objs addr = some (some obj)) (hp : ¬ L.purged c addr obj) :
    L.kept c objs addr = some (some obj) := by
  simp only [kept, h, if_neg hp]

theorem Ledger.kept_eq_some (h : L.kept c objs addr = some (some obj)) :
    objs addr = some (some obj) ∧ ¬ L.purged c addr obj := by
  rcases hobj : objs addr with _ | _ | obj'
  · simp [kept_none hobj] at h
  · simp [kept_deleted hobj] at h
  · by_cases hp : L.purged c addr obj'
    · simp [kept_purged hobj hp] at h
    · rw [kept_some hobj hp, some.injEq, some.injEq] at h
      subst h
      exact ⟨rfl, hp⟩

theorem Ledger.kept_eq_none (h : L.kept c objs addr = none) : objs addr = none := by
  rcases hobj : objs addr with _ | _ | obj'
  · rfl
  · simp [kept_deleted hobj] at h
  · by_cases hp : L.purged c addr obj'
    · simp [kept_purged hobj hp] at h
    · simp [kept_some hobj hp] at h

theorem Ledger.leaf_commit_none (h : L.kept c objs addr = none) :
    (L.commit c objs).leaf c addr = L.leaf c addr := by
  simp only [leaf, commit, h]

theorem Ledger.leaf_commit_deleted (h : L.kept c objs addr = some none) :
    (L.commit c objs).leaf c addr = 0 := by
  simp only [leaf, commit, h, map_none]

theorem Ledger.leaf_commit_some (h : L.kept c objs addr = some (some obj)) :
    (L.commit c objs).leaf c addr = (obj.contract.record c (L.newStorage addr obj)).commitment c := by
  simp only [leaf, commit, h, map_some]

end

/-! ### The objects of a diff -/

section

variable {L : Ledger} {objs : Objects} {α : Type} {diff : GoMap Felt α} {make : Felt → Option Object}
  {set : α → Object → Object}

theorem Ledger.objectAt_updateObjects (L : Ledger) (objs : Objects) (diff : GoMap Felt α)
    (make : Felt → Option Object) (set : α → Object → Object) (a : Felt) :
    L.objectAt (L.updateObjects objs diff make set) a = match diff.lookup a with
      | none => L.objectAt objs a
      | some x => ((L.objectAt objs a).or (make a)).map (set x) := by
  rw [objectAt, updateObjects]
  cases diff.lookup a with
  | none => rfl
  | some x => rfl

theorem Ledger.isSome_objectAt_updateObjects (L : Ledger) (objs : Objects) (diff : GoMap Felt α)
    (set : α → Object → Object) (a : Felt) :
    (L.objectAt (L.updateObjects objs diff (fun _ => none) set) a).isSome = (L.objectAt objs a).isSome := by
  rw [objectAt_updateObjects]
  cases diff.lookup a with
  | none => rfl
  | some x => rw [or_none, isSome_map]

/-- The contracts of a diff exist, or are system contracts that are written to. -/
theorem Ledger.contractsUpdatable_iff {blockNum : ℕ} {replacedClasses nonces : GoMap Felt Felt}
    {storageDiffs : GoMap Felt (GoMap Felt Felt)} :
    L.ContractsUpdatable objs blockNum replacedClasses nonces storageDiffs ↔
      (∀ a, a ∈ replacedClasses ∨ a ∈ nonces → (L.objectAt objs a).isSome = true) ∧
        ∀ a ∈ storageDiffs, (L.objectAt objs a).isSome = true ∨ isSystemContract a = true := by
  have hmake : ∀ a, (makeSystemContract blockNum a).isSome = isSystemContract a := by
    intro a
    unfold makeSystemContract
    split_ifs with h
    · simp [h]
    · simp [h]
  simp only [ContractsUpdatable, Updatable, or_none, isSome_or,
    isSome_objectAt_updateObjects, hmake, Bool.or_eq_true]
  constructor
  · intro ⟨h₁, h₂, h₃⟩
    exact ⟨fun a ha => ha.elim (h₁ a) (h₂ a), h₃⟩
  · intro ⟨h₁, h₂⟩
    exact ⟨fun a ha => h₁ a (.inl ha), fun a ha => h₁ a (.inr ha), h₂⟩

def Object.change (classHash nonce : Option Felt) (writes : Option (GoMap Felt Felt)) (obj : Object) :
    Object :=
  ⟨⟨nonce.getD obj.contract.nonce, classHash.getD obj.contract.classHash, obj.contract.deployedHeight⟩,
    writes.getD obj.writes⟩

variable {blockNum : ℕ} {replacedClasses nonces : GoMap Felt Felt}
  {storageDiffs : GoMap Felt (GoMap Felt Felt)} {a : Felt}

theorem Ledger.updateContracts_other (hrep : a ∉ replacedClasses) (hnon : a ∉ nonces)
    (hsto : a ∉ storageDiffs) :
    L.updateContracts objs blockNum replacedClasses nonces storageDiffs a = objs a := by
  simp only [updateContracts, updateObjects, AList.lookup_eq_none.mpr hrep, AList.lookup_eq_none.mpr hnon,
    AList.lookup_eq_none.mpr hsto]

theorem Ledger.updateContracts_some {obj : Object} (hobj : L.objectAt objs a = some obj)
    (ha : a ∈ replacedClasses ∨ a ∈ nonces ∨ a ∈ storageDiffs) :
    L.updateContracts objs blockNum replacedClasses nonces storageDiffs a =
      some (some (obj.change (replacedClasses.lookup a) (nonces.lookup a) (storageDiffs.lookup a))) := by
  simp only [← AList.lookup_isSome] at ha
  simp only [updateContracts, updateObjects, objectAt_updateObjects, hobj]
  cases hr : replacedClasses.lookup a <;> cases hn : nonces.lookup a <;> cases hs : storageDiffs.lookup a
  -- the diff does not change the contract
  · simp [hr, hn, hs] at ha
  all_goals rfl

theorem Ledger.updateContracts_made (hobj : L.objectAt objs a = none) (hrep : a ∉ replacedClasses)
    (hnon : a ∉ nonces) {writes : GoMap Felt Felt} (hsto : storageDiffs.lookup a = some writes)
    (hsys : isSystemContract a = true) :
    L.updateContracts objs blockNum replacedClasses nonces storageDiffs a =
      some (some ⟨⟨0, systemContractsClassHash, blockNum⟩, writes⟩) := by
  simp only [updateContracts, updateObjects, objectAt_updateObjects, hobj,
    AList.lookup_eq_none.mpr hrep, AList.lookup_eq_none.mpr hnon, hsto, makeSystemContract, hsys, if_true]
  rfl

/-- What the objects after a diff are: unchanged, changed or made. -/
theorem Ledger.updateContracts_cases
    (hU : L.ContractsUpdatable objs blockNum replacedClasses nonces storageDiffs) (a : Felt) :
    (a ∉ replacedClasses ∧ a ∉ nonces ∧ a ∉ storageDiffs ∧
      L.updateContracts objs blockNum replacedClasses nonces storageDiffs a = objs a) ∨
    (∃ obj, L.objectAt objs a = some obj ∧ (a ∈ replacedClasses ∨ a ∈ nonces ∨ a ∈ storageDiffs) ∧
      L.updateContracts objs blockNum replacedClasses nonces storageDiffs a =
        some (some (obj.change (replacedClasses.lookup a) (nonces.lookup a) (storageDiffs.lookup a)))) ∨
    (∃ writes, L.objectAt objs a = none ∧ a ∉ replacedClasses ∧ a ∉ nonces ∧
      storageDiffs.lookup a = some writes ∧
      isSystemContract a = true ∧ L.updateContracts objs blockNum replacedClasses nonces storageDiffs a =
        some (some ⟨⟨0, systemContractsClassHash, blockNum⟩, writes⟩)) := by
  rw [contractsUpdatable_iff] at hU
  by_cases ha : a ∈ replacedClasses ∨ a ∈ nonces ∨ a ∈ storageDiffs
  · cases hobj : L.objectAt objs a with
    | some obj => exact .inr (.inl ⟨obj, rfl, ha, updateContracts_some hobj ha⟩)
    | none =>
      have hrn : ¬ (a ∈ replacedClasses ∨ a ∈ nonces) := fun h => by simpa [hobj] using hU.1 a h
      rw [not_or] at hrn
      have hsto : a ∈ storageDiffs := (ha.resolve_left hrn.1).resolve_left hrn.2
      obtain ⟨writes, hw⟩ := GoMap.exists_lookup hsto
      have hsys : isSystemContract a = true := (hU.2 a hsto).resolve_left (by simp [hobj])
      exact .inr (.inr ⟨writes, rfl, hrn.1, hrn.2, hw, hsys, updateContracts_made hobj hrn.1 hrn.2 hw hsys⟩)
  · rw [not_or, not_or] at ha
    exact .inl ⟨ha.1, ha.2.1, ha.2.2, updateContracts_other ha.1 ha.2.1 ha.2.2⟩

theorem Ledger.mem_reverseClasses (L : Ledger) {diff : StateDiff} :
    a ∈ L.reverseClasses blockNum diff ↔ a ∈ diff.replacedClasses := GoMap.mem_mapVals _ _ _

theorem Ledger.mem_reverseNonces (L : Ledger) {diff : StateDiff} :
    a ∈ L.reverseNonces blockNum diff ↔ a ∈ diff.nonces := GoMap.mem_mapVals _ _ _

theorem Ledger.mem_reverseStorage (L : Ledger) {diff : StateDiff} :
    a ∈ L.reverseStorage blockNum diff ↔ a ∈ diff.storageDiffs := GoMap.mem_mapVals _ _ _

end

end Juno.CoreState
