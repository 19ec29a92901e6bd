import Juno.Core.StateUpdate
import Juno.Trie2.Trie

/-!
# The state

`core/state`: the state of the chain in a key-value database. A contract has a record,
a leaf in the contract trie and a storage trie of its own; a class has a definition
and, if it is a Sierra class, a leaf in the class trie. The nodes of the tries are kept
by path (`triedb/rawdb`). For every nonce, class hash and storage slot there is a
history of the values it was given, by block.

`Update` and `Revert` read the database and write to a batch; here they return the
database after the batch is written.

## The model

The rows of a bucket are a function from keys to optional values. Go maps are visited
in the order of their entries: the orders the source sorts by only spread the work
over goroutines. The tries of a `StateReader` are opened when they are first used,
which in `Update` and `Revert` is in `verifyComm`.
-/

namespace Juno.CoreState

open Lib Trie2 Function

variable {α : Type}

inductive StateError where
  /-- `db.ErrKeyNotFound`. -/
  | keyNotFound
  /-- `ErrContractAlreadyDeployed`. -/
  | contractAlreadyDeployed
  /-- `state commitment mismatch`. -/
  | commitmentMismatch (expected actual : Felt)
  | trie (e : TrieError)
  | unmigrate (e : CasmMetadata.MigrateError)
  | panic
  deriving DecidableEq, Repr

/-- `stateContract`: the record of a contract. -/
structure StateContract where
  nonce : Felt
  classHash : Felt
  deployedHeight : ℕ
  storageRoot : Felt
  deriving DecidableEq, Repr

def newContractDeployed (classHash : Felt) (deployHeight : ℕ) : StateContract :=
  ⟨0, classHash, deployHeight, 0⟩

def StateContract.commitment (c : Crypto) (s : StateContract) : Felt :=
  c.pedersen (c.pedersen (c.pedersen s.classHash s.storageRoot) s.nonce) 0

/-! ### The database -/

@[ext]
structure DB where
  /-- `ClassTrie`. -/
  classNodes : NodeStore
  /-- `ContractTrieContract`. -/
  contractNodes : NodeStore
  /-- `ContractTrieStorage`, by contract. -/
  storageNodes : Felt → NodeStore
  /-- `Contract`: the contract records. -/
  contracts : Felt → Option StateContract
  /-- `Class`: the class definitions. -/
  classes : Felt → Option DeclaredClass
  /-- `ContractNonceHistory`, by contract and block. -/
  nonceHistory : Felt → ℕ → Option Felt
  /-- `ContractClassHashHistory`, by contract and block. -/
  classHashHistory : Felt → ℕ → Option Felt
  /-- `ContractStorageHistory`, by contract, key and block. -/
  storageHistory : Felt → Felt → ℕ → Option Felt
  /-- `ClassCasmHashMetadata`. -/
  casmMetadata : Felt → Option CasmMetadata

def DB.empty : DB :=
  ⟨fun _ => none, fun _ => none, fun _ _ => none, fun _ => none, fun _ => none, fun _ _ => none,
    fun _ _ => none,
    fun _ _ _ => none, fun _ => none⟩

/-- `valueAt`: the entry of a history for the block, or else the last one before. -/
def valueAt (history : ℕ → Option Felt) : ℕ → Option Felt
  | 0 => history 0
  | blockNum + 1 =>
    match history (blockNum + 1) with
    | some v => some v
    | none => valueAt history blockNum

/-- `getHistoricalValue`: zero if there is no entry. -/
def getHistoricalValue (history : ℕ → Option Felt) (blockNum : ℕ) : Felt := (valueAt history blockNum).getD 0

/-- `trieutils.GetNodeByPath` of a leaf: the value of the row, zero if there is none. -/
def leafOf (S : NodeStore) (key : Felt) : Felt :=
  match S ⟨true, feltToPath trieHeight key⟩ with
  | none => 0
  | some blob => blob.toFelt

namespace DB

def classTrie (c : Crypto) (db : DB) (stateComm : Felt) : Except TrieError Trie :=
  Trie.new 0 stateComm trieHeight c.poseidon db.classNodes

def contractTrie (c : Crypto) (db : DB) (stateComm : Felt) : Except TrieError Trie :=
  Trie.new 0 stateComm trieHeight c.pedersen db.contractNodes

def contractStorageTrie (c : Crypto) (db : DB) (stateComm owner : Felt) : Except TrieError Trie :=
  Trie.new owner stateComm trieHeight c.pedersen (db.storageNodes owner)

variable (db : DB) (addr : Felt)

/-- `StateReader.ContractClassHash`. -/
def contractClassHash : Except StateError Felt :=
  match db.contracts addr with
  | none => .error .keyNotFound
  | some contract => .ok contract.classHash

/-- `StateReader.ContractNonce`. -/
def contractNonce : Except StateError Felt :=
  match db.contracts addr with
  | none => .error .keyNotFound
  | some contract => .ok contract.nonce

/-- `StateReader.ContractStorage`: the leaf of the key is read without its trie. -/
def contractStorage (key : Felt) : Felt := leafOf (db.storageNodes addr) key

variable (blockNum : ℕ)

/-- `StateReader.ContractDeployedAt`. -/
def contractDeployedAt : Bool :=
  match db.contracts addr with
  | none => false
  | some contract => contract.deployedHeight ≤ blockNum

/-- `StateReader.ContractStorageAt`. -/
def contractStorageAt (key : Felt) (blockNum : ℕ) : Felt :=
  getHistoricalValue (db.storageHistory addr key) blockNum

/-- `StateReader.ContractNonceAt`. -/
def contractNonceAt : Felt := getHistoricalValue (db.nonceHistory addr) blockNum

/-- `StateReader.ContractClassHashAt`. -/
def contractClassHashAt : Felt :=
  getHistoricalValue (db.classHashHistory addr) blockNum

end DB

/-! ### The historical reader -/

namespace StateHistory

variable (db : DB) (blockNum : ℕ) (addr : Felt)

/-- `stateHistory.checkDeployed`. -/
def checkDeployed : Except StateError Unit :=
  if db.contractDeployedAt addr blockNum then .ok () else .error .keyNotFound

/-- `stateHistory.ContractClassHash`. -/
def contractClassHash : Except StateError Felt := do
  checkDeployed db blockNum addr
  return db.contractClassHashAt addr blockNum

/-- `stateHistory.ContractNonce`. -/
def contractNonce : Except StateError Felt := do
  checkDeployed db blockNum addr
  return db.contractNonceAt addr blockNum

/-- `stateHistory.ContractStorage`. -/
def contractStorage (key : Felt) : Except StateError Felt := do
  checkDeployed db blockNum addr
  return db.contractStorageAt addr key blockNum

end StateHistory

/-- `stateCommitment`; it panics if it has to look at a version that did not parse. -/
def stateCommitment (c : Crypto) (contractRoot classRoot : Felt) (protocolVersion : Option BlockVersion) :
    Except StateError Felt :=
  if classRoot = 0 ∧ contractRoot = 0 then .ok 0
  else if classRoot = 0 then
    match protocolVersion with
    | none => .error .panic
    | some ver =>
      .ok (if ver.lessThan ver0_14_0 then contractRoot else c.poseidonElems stateVersion0
        contractRoot classRoot)
  else .ok (c.poseidonElems stateVersion0 contractRoot classRoot)

/-! ### State objects -/

/-- `stateObject`: a contract that is being changed. -/
structure StateObject where
  contract : StateContract
  dirtyStorage : GoMap Felt Felt
  /-- The storage trie, once it is opened. -/
  storageTrie : Option Trie

def newStateObject (contract : StateContract) : StateObject := ⟨contract, ∅, none⟩

def fromTrie (r : Except TrieError α × Trie) : Except StateError (α × Trie) :=
  match r with
  | (.ok a, t) => .ok (a, t)
  | (.error e, _) => .error (.trie e)

/-- Writing the entries of a map to a trie. -/
def updateTrie (t : Trie) (entries : List (Σ _ : Felt, Felt)) : Except StateError Trie :=
  entries.foldlM (fun t e => do return (← fromTrie (t.update e.1 e.2)).2) t

def StateObject.commit (c : Crypto) (disk : DB) (initRoot addr : Felt) (obj : StateObject) :
    Except StateError (Option NodeSet × StateObject) := do
  let tr ← match obj.storageTrie with
    | some tr => .ok tr
    | none =>
      match disk.contractStorageTrie c initRoot addr with
      | .ok tr => .ok tr
      | .error e => .error (.trie e)
  let tr ← updateTrie tr obj.dirtyStorage.entries
  let ((root, nodes), tr) ← fromTrie tr.commit
  return (nodes, { obj with contract := { obj.contract with storageRoot := root }, storageTrie := some tr })

def StateObject.getStorageRoot (obj : StateObject) : Except StateError (Felt × StateObject) :=
  match obj.storageTrie with
  | none => .ok (obj.contract.storageRoot, obj)
  | some tr => do
    let (root, tr) ← fromTrie tr.hash
    return (root, { obj with contract := { obj.contract with storageRoot := root }, storageTrie := some tr })

/-! ### Merged node sets -/

def mergeNodes (nodes other : Path → Option TrieNode) : Path → Option TrieNode := fun path =>
  match other path with
  | some n => some n
  | none => nodes path

structure MergeNodeSet where
  /-- `OwnerSet`: the nodes of the contract trie. -/
  ownerSet : Path → Option TrieNode
  /-- `ChildSets`: the nodes of the storage tries, by contract. -/
  childSets : Felt → Option (Path → Option TrieNode)

/-- `NewMergeNodeSet(nil)`. -/
def newMergeNodeSet : MergeNodeSet := ⟨fun _ => none, fun _ => none⟩

/-- `MergeNodeSet.Merge`, called unless there are no nodes. -/
def MergeNodeSet.merge (m : MergeNodeSet) (other : Option NodeSet) : MergeNodeSet :=
  match other with
  | none => m
  | some other =>
    if other.owner = 0 then { m with ownerSet := mergeNodes m.ownerSet other.nodes }
    else
      match m.childSets other.owner with
      | some subset =>
        { m with childSets := update m.childSets other.owner (some (mergeNodes subset other.nodes)) }
      | none => { m with childSets := update m.childSets other.owner (some other.nodes) }

/-! ### The state -/

structure State where
  /-- `initRoot`: the root the state was opened at. -/
  initRoot : Felt
  /-- The database, before the batch is written. -/
  disk : DB
  contractTrie : Trie
  classTrie : Trie
  /-- `stateObjects`: the contracts that are being changed; nil marks one to be deleted. -/
  stateObjects : GoMap Felt (Option StateObject)

/-- `stateUpdate`: the changed nodes. -/
structure NodeUpdate where
  classNodes : Option NodeSet
  contractNodes : MergeNodeSet

namespace State

variable (c : Crypto) (disk : DB)

/-- `New` and `StateReader.Commitment`: open the tries at a root, and compute the commitment. -/
def openAt (stateRoot : Felt) (protocolVersion : Option BlockVersion) : Except StateError (Felt × State) := do
  let contractTrie ← match disk.contractTrie c stateRoot with
    | .ok t => .ok t
    | .error e => .error (.trie e)
  let classTrie ← match disk.classTrie c stateRoot with
    | .ok t => .ok t
    | .error e => .error (.trie e)
  let (contractRoot, contractTrie) ← fromTrie contractTrie.hash
  let (classRoot, classTrie) ← fromTrie classTrie.hash
  let comm ← stateCommitment c contractRoot classRoot protocolVersion
  return (comm, ⟨stateRoot, disk, contractTrie, classTrie, ∅⟩)

def verifyComm (stateRoot comm : Felt) (protocolVersion : Option BlockVersion) : Except StateError State := do
  let (curComm, s) ← openAt c disk stateRoot protocolVersion
  if curComm ≠ comm then .error (.commitmentMismatch comm curComm)
  else return s

def classLeaf (casmHash : Felt) : Felt := c.poseidon leafVersion0 casmHash

variable (s : State)

/-- `updateClassTrie`: declared classes whose definition is known, then migrated classes. -/
def updateClassTrie (declaredClasses : GoMap Felt Felt) (classDefs : GoMap Felt ClassDefinition)
    (migratedClasses : GoMap Felt Felt) : Except StateError State := do
  let declared :=
    (declaredClasses.filter fun hash _ => (classDefs.lookup hash).isSome).mapVals fun _ => classLeaf c
  let classTrie ← updateTrie s.classTrie declared.entries
  let classTrie ← updateTrie classTrie (migratedClasses.mapVals fun _ => classLeaf c).entries
  return { s with classTrie := classTrie }

/-- `getStateObject`; a nil object is not looked at. -/
def getStateObject (addr : Felt) : Except StateError StateObject :=
  match s.stateObjects.lookup addr with
  | some (some obj) => .ok obj
  | some none => .error .panic
  | none =>
    match s.disk.contracts addr with
    | none => .error .keyNotFound
    | some contract => .ok (newStateObject contract)

def setObject (addr : Felt) (obj : Option StateObject) : State :=
  { s with stateObjects := s.stateObjects.insert addr obj }

variable (blockNum : ℕ)

/-- The registration of a deployed contract in `Update`. -/
def deployContract (s : State) (addr classHash : Felt) : Except StateError State :=
  if (s.disk.contracts addr).isSome then .error .contractAlreadyDeployed
  else .ok (s.setObject addr (some (newStateObject (newContractDeployed classHash blockNum))))

/-- The registration of deployed contracts in `Update`. -/
def deployContracts (deployed : GoMap Felt Felt) : Except StateError State :=
  deployed.entries.foldlM (fun s e => s.deployContract blockNum e.1 e.2) s

/-- Get a contract's object, or make one, and change it. -/
def updateObject (make : Felt → Option StateObject) (set : α → StateObject → StateObject)
    (s : State) (addr : Felt) (x : α) : Except StateError State :=
  match s.getStateObject addr with
  | .ok obj => .ok (s.setObject addr (some (set x obj)))
  | .error err =>
    match err, make addr with
    | .keyNotFound, some obj => .ok (s.setObject addr (some (set x obj)))
    | _, _ => .error err

def updateObjects (diff : GoMap Felt α) (make : Felt → Option StateObject)
    (set : α → StateObject → StateObject) : Except StateError State :=
  diff.entries.foldlM (fun s e => s.updateObject make set e.1 e.2) s

def updateContractClasses (classes : GoMap Felt Felt) : Except StateError State :=
  s.updateObjects classes (fun _ => none)
    fun classHash obj => { obj with contract := { obj.contract with classHash := classHash } }

def updateContractNonces (nonces : GoMap Felt Felt) : Except StateError State :=
  s.updateObjects nonces (fun _ => none)
    fun nonce obj => { obj with contract := { obj.contract with nonce := nonce } }

/-- `updateContractStorage`: a system contract that does not exist is made. -/
def updateContractStorage (storage : GoMap Felt (GoMap Felt Felt)) : Except StateError State :=
  s.updateObjects storage
    (fun addr => if isSystemContract addr then
      some (newStateObject (newContractDeployed systemContractsClassHash blockNum)) else none)
    fun writes obj => { obj with dirtyStorage := writes }

def updateContracts (replacedClasses nonces : GoMap Felt Felt)
    (storageDiffs : GoMap Felt (GoMap Felt Felt)) : Except StateError State := do
  let s ← s.updateContractClasses replacedClasses
  let s ← s.updateContractNonces nonces
  s.updateContractStorage blockNum storageDiffs

/-! ### Commit -/

/-- The body of the first loop of `commit`: the storage trie of a contract. -/
def commitObject (merged : MergeNodeSet) (addr : Felt) (obj : Option StateObject) :
    Except StateError (State × MergeNodeSet) :=
  match obj with
  | none => .ok (s, merged)
  | some obj => do
    let (nodes, obj) ← obj.commit c s.disk s.initRoot addr
    return (s.setObject addr (some obj), merged.merge nodes)

/-- The first loop of `commit`. -/
def commitObjects : Except StateError (State × MergeNodeSet) :=
  s.stateObjects.entries.foldlM (fun (s, merged) e => s.commitObject c merged e.1 e.2) (s, newMergeNodeSet)

/-- The body of the second loop of `commit`: the leaf of a contract. A system contract without storage is
deleted. -/
def commitContract (addr : Felt) (obj : Option StateObject) : Except StateError State := do
  let comm := match obj with
    | none => 0
    | some obj => obj.contract.commitment c
  let (_, contractTrie) ← fromTrie (s.contractTrie.update addr comm)
  match isSystemContract addr, obj with
  | true, some obj =>
    let (root, obj) ← obj.getStorageRoot
    if root = 0 then
      let (_, contractTrie) ← fromTrie (contractTrie.update addr 0)
      return { s with contractTrie := contractTrie }.setObject addr none
    else return { s with contractTrie := contractTrie }.setObject addr (some obj)
  | _, _ => return { s with contractTrie := contractTrie }

/-- The second loop of `commit`. -/
def commitContracts : Except StateError State :=
  s.stateObjects.entries.foldlM (fun s e => s.commitContract c e.1 e.2) s

/-- `commit`: the new commitment and the changed nodes. -/
def commit (c : Crypto) (s : State) (protocolVersion : Option BlockVersion) :
    Except StateError (Felt × NodeUpdate × State) := do
  let (s, merged) ← s.commitObjects c
  let s ← s.commitContracts c
  let ((classRoot, classNodes), classTrie) ← fromTrie s.classTrie.commit
  let ((contractRoot, contractNodes), contractTrie) ← fromTrie s.contractTrie.commit
  let newComm ← stateCommitment c contractRoot classRoot protocolVersion
  return (newComm, ⟨classNodes, merged.merge contractNodes⟩,
    { s with classTrie := classTrie, contractTrie := contractTrie })

/-! ### Writing -/

variable (db : DB)

/-- `rawdb.Database.Update`. -/
def applyNodes (update : NodeUpdate) : DB :=
  { db with
    classNodes := match update.classNodes with
      | none => db.classNodes
      | some nodes => db.classNodes.apply nodes.nodes
    contractNodes := db.contractNodes.apply update.contractNodes.ownerSet
    storageNodes := fun owner =>
      match update.contractNodes.childSets owner with
      | none => db.storageNodes owner
      | some nodes => (db.storageNodes owner).apply nodes }

/-- `DeleteStorageNodesByPath`: the rows whose key starts with the owner. The zero owner is not part of a
row's key. -/
def deleteStorageNodes (owner : Felt) : DB :=
  if owner = 0 then db else { db with storageNodes := update db.storageNodes owner fun _ => none }

variable (addr : Felt)

def flushObject (obj : Option StateObject) : DB :=
  match obj with
  | none => deleteStorageNodes { db with contracts := update db.contracts addr none } addr
  | some obj => { db with contracts := update db.contracts addr (some obj.contract) }

/-- The class definitions in `flush`; nil marks one to be deleted. -/
def flushClass (blockNum : ℕ) (classHash : Felt) (cls : Option ClassDefinition) : DB :=
  { db with classes := update db.classes classHash (cls.map (⟨blockNum, ·⟩)) }

/-- The loop over the contracts in `flush`. -/
def flushObjects (objs : GoMap Felt (Option StateObject)) : DB :=
  objs.entries.foldl (fun db e => flushObject db e.1 e.2) db

def flushClasses (blockNum : ℕ) (classes : GoMap Felt (Option ClassDefinition)) : DB :=
  classes.entries.foldl (fun db e => flushClass db blockNum e.1 e.2) db

def flush (update : NodeUpdate) (classes : GoMap Felt (Option ClassDefinition)) : DB :=
  flushClasses (flushObjects (applyNodes s.disk update) s.stateObjects) blockNum classes

/-- `WriteNonceHistory` and `DeleteNonceHistory`. -/
def setNonceHistory (blockNum : ℕ) (value : Option Felt) : DB :=
  { db with
    nonceHistory := update db.nonceHistory addr (update (db.nonceHistory addr) blockNum value) }

/-- `WriteClassHashHistory` and `DeleteClassHashHistory`. -/
def setClassHashHistory (blockNum : ℕ) (value : Option Felt) : DB :=
  { db with
    classHashHistory :=
      update db.classHashHistory addr (update (db.classHashHistory addr) blockNum value) }

/-- `WriteStorageHistory` and `DeleteStorageHistory`. -/
def setStorageHistory (key : Felt) (blockNum : ℕ) (value : Option Felt) : DB :=
  { db with
    storageHistory :=
      update db.storageHistory addr
        (update (db.storageHistory addr) key (update (db.storageHistory addr key) blockNum value)) }

/-- `writeHistory`: replaced classes last, so that deploy and replace in one block ends with the replaced
class. -/
def writeHistory (blockNum : ℕ) (diff : StateDiff) : DB :=
  let db := diff.storageDiffs.entries.foldl (fun db e =>
    e.2.entries.foldl (fun db w => setStorageHistory db e.1 w.1 blockNum (some w.2)) db) db
  let db := diff.nonces.entries.foldl (fun db e => setNonceHistory db e.1 blockNum (some e.2)) db
  let db :=
    diff.deployedContracts.entries.foldl (fun db e => setClassHashHistory db e.1 blockNum (some e.2)) db
  diff.replacedClasses.entries.foldl (fun db e => setClassHashHistory db e.1 blockNum (some e.2)) db

def deleteHistory (blockNum : ℕ) (diff : StateDiff) : DB :=
  let db := diff.storageDiffs.entries.foldl (fun db e =>
    e.2.entries.foldl (fun db w => setStorageHistory db e.1 w.1 blockNum none) db) db
  let db := diff.nonces.entries.foldl (fun db e => setNonceHistory db e.1 blockNum none) db
  let db := diff.replacedClasses.entries.foldl (fun db e => setClassHashHistory db e.1 blockNum none) db
  diff.deployedContracts.entries.foldl (fun db e =>
    setClassHashHistory (setNonceHistory db e.1 blockNum none) e.1 blockNum none) db

/-! ### Update and Revert -/

def update (c : Crypto) (disk : DB) (stateRoot : Felt) (header : Header) (update : StateUpdate)
    (declaredClasses : GoMap Felt ClassDefinition) (skipVerifyNewRoot : Bool) : Except StateError DB := do
  let s ← verifyComm c disk stateRoot update.oldRoot header.protocolVersion
  let diff := update.stateDiff
  let dirtyClasses := (declaredClasses.filter fun hash _ => (disk.classes hash).isNone).mapVals fun _ => some
  let s ← s.updateClassTrie c diff.declaredV1Classes declaredClasses diff.migratedClasses
  let s ← s.deployContracts header.number diff.deployedContracts
  let s ← s.updateContracts header.number diff.replacedClasses diff.nonces diff.storageDiffs
  let (newComm, nodes, s) ← s.commit c header.protocolVersion
  if !skipVerifyNewRoot && newComm != update.newRoot then .error (.commitmentMismatch update.newRoot newComm)
  else return writeHistory (s.flush header.number nodes dirtyClasses) header.number diff

/-- The value a slot, nonce or class hash had before a block: `GetReverseStateDiff` reads zero before block
0. -/
def valueBefore (history : ℕ → Option Felt) (blockNum : ℕ) : Felt :=
  if blockNum > 0 then getHistoricalValue history (blockNum - 1) else 0

/-- `GetReverseStateDiff`: the classes to put back. -/
def reverseClasses (blockNum : ℕ) (diff : StateDiff) : GoMap Felt Felt :=
  diff.replacedClasses.mapVals fun addr _ => valueBefore (disk.classHashHistory addr) blockNum

/-- `GetReverseStateDiff`: the nonces to put back. -/
def reverseNonces (blockNum : ℕ) (diff : StateDiff) : GoMap Felt Felt :=
  diff.nonces.mapVals fun addr _ => valueBefore (disk.nonceHistory addr) blockNum

/-- `GetReverseStateDiff`: the storage values to put back. -/
def reverseStorage (blockNum : ℕ) (diff : StateDiff) : GoMap Felt (GoMap Felt Felt) :=
  diff.storageDiffs.mapVals fun addr writes =>
    writes.mapVals fun key _ => valueBefore (disk.storageHistory addr key) blockNum

/-- A declared class in `Revert`: if it was declared at the block it is deleted, and a Sierra class leaves the
trie. -/
def revertClass (s : State) (dirtyClasses : GoMap Felt (Option ClassDefinition)) (hash : Felt) :
    Except StateError (State × GoMap Felt (Option ClassDefinition)) :=
  match s.disk.classes hash with
  | none => .error .keyNotFound
  | some dc =>
    if dc.declaredAt ≠ blockNum then .ok (s, dirtyClasses)
    else if dc.definition.isSierra then do
      let (_, classTrie) ← fromTrie (s.classTrie.update hash 0)
      return ({ s with classTrie := classTrie }, dirtyClasses.insert hash none)
    else .ok (s, dirtyClasses.insert hash none)

/-- The declared classes of a diff in `Revert`. -/
def revertClasses (classHashes : List Felt) :
    Except StateError (State × GoMap Felt (Option ClassDefinition)) :=
  classHashes.foldlM (fun (s, dirtyClasses) hash => revertClass blockNum s dirtyClasses hash) (s, ∅)

/-- A migrated class in `Revert`: the leaf is again that of the first compiled class. -/
def revertMigratedClass (hash : Felt) : Except StateError State :=
  match s.disk.casmMetadata hash with
  | none => .error .keyNotFound
  | some metadata =>
    match metadata.unmigrate with
    | .error err => .error (.unmigrate err)
    | .ok metadata => do
      let (_, classTrie) ← fromTrie (s.classTrie.update hash (classLeaf c metadata.casmHash))
      return { s with classTrie := classTrie }

def revertMigrated (migratedClasses : GoMap Felt Felt) : Except StateError State :=
  migratedClasses.entries.foldlM (fun s e => s.revertMigratedClass c e.1) s

/-- Mark the contracts a block deployed for deletion. -/
def removeDeployed (deployed : GoMap Felt Felt) : State :=
  deployed.entries.foldl (fun s e => s.setObject e.1 none) s

def revert (stateRoot : Felt) (header : Header) (update : StateUpdate) : Except StateError DB := do
  let s ← verifyComm c disk stateRoot update.newRoot header.protocolVersion
  let diff := update.stateDiff
  let (s, dirtyClasses) ← s.revertClasses header.number
    (diff.declaredV0Classes ++ diff.declaredV1Classes.keys)
  let s ← s.revertMigrated c diff.migratedClasses
  let s ← s.updateContracts header.number (reverseClasses disk header.number diff)
    (reverseNonces disk header.number diff)
    (reverseStorage disk header.number diff)
  let s := s.removeDeployed diff.deployedContracts
  let (newComm, nodes, s) ← s.commit c header.protocolVersion
  if newComm ≠ update.oldRoot then .error (.commitmentMismatch update.oldRoot newComm)
  else return deleteHistory (s.flush header.number nodes dirtyClasses) header.number diff

end State

end Juno.CoreState
