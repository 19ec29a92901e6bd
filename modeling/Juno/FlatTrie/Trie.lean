import Juno.Core.Felt

/-!
# The flat trie

`core/trie`: a Patricia trie kept in a key-value store. A node is stored under the
path to its lower end: an edge has no row of its own, it is the distance between a
node's key and its parent's. An inner node's row has its children's keys and a value,
the hash of its two children; the value may be out of date until `Hash` recomputes
the nodes above the ones listed in `dirtyNodes`.

Left out: the fields `LeftHash` and `RightHash` and the children with an empty key,
which only nodes put by proof verification have, and the node and buffer pools. The
two ways to update a node's children, one after the other or concurrently, compute
the same and are one here.
-/

namespace Juno.FlatTrie

open Lib Lib.Patricia

inductive TrieError where
  /-- `db.ErrKeyNotFound`. -/
  | keyNotFound
  /-- The key exceeds the trie's height. -/
  | keyTooLarge
  | panic
  | diverge
  deriving DecidableEq, Repr

structure Node where
  /-- The value of a leaf, or the hash of an inner node's children. -/
  value : Felt
  /-- `Left` and `Right`: the keys of the children of an inner node. -/
  children : Option (Path × Path)
  deriving DecidableEq, Repr

/-- `Node.Hash`: the hash of a node at the end of an edge. -/
def Node.hash (n : Node) (path : Path) (hashFn : HashFn) : Felt :=
  if path.length = 0 then n.value else hashFn n.value (pathFelt path) + Fin.ofNat P path.length

/-- `StorageNode`: a node and its key. -/
structure StorageNode where
  key : Path
  node : Node
  deriving DecidableEq, Repr

/-- `Storage`: the rows of a trie. -/
structure Storage where
  nodes : Path → Option Node
  rootKey : Option Path

/-- `ReadStorage.Get`. -/
def Storage.get (s : Storage) (key : Path) : Except TrieError Node :=
  match s.nodes key with
  | none => .error .keyNotFound
  | some n => .ok n

def Storage.put (s : Storage) (key : Path) (n : Node) : Storage :=
  { s with nodes := Function.update s.nodes key (some n) }

def Storage.delete (s : Storage) (key : Path) : Storage :=
  { s with nodes := Function.update s.nodes key none }

structure Trie where
  height : ℕ
  rootKey : Option Path
  hashFn : HashFn
  storage : Storage
  /-- Keys of nodes above which values may be out of date. -/
  dirtyNodes : List Path
  /-- Whether the root key differs from its row. -/
  rootKeyIsDirty : Bool

/-- `path`: the suffix of a key below its parent's key and the bit that says left or right. -/
def path (key : Path) (parentKey : Option Path) : Path :=
  match parentKey with
  | none => key
  | some parentKey => key.drop (parentKey.length + 1)

/-- The keys of an inner node's children, in its place when a child's key is replaced. -/
def replaceLink (n : Node) (key newKey : Path) : Node :=
  match n.children with
  | none => n
  | some (left, right) =>
    if left = key then { n with children := some (newKey, right) }
      else { n with children := some (left, newKey) }

def siblingKey (children : Path × Path) (key : Path) : Path :=
  if children.1 = key then children.2 else children.1

/-- The inner node above a new leaf and its sibling. -/
def newParent (hashFn : HashFn) (commonKey : Path) (node sibling : StorageNode) : Node :=
  let (left, right) := if bit node.key commonKey.length then (sibling, node) else (node, sibling)
  let leftChildHash := left.node.hash (path left.key (some commonKey)) hashFn
  let rightChildHash := right.node.hash (path right.key (some commonKey)) hashFn
  ⟨hashFn leftChildHash rightChildHash, some (left.key, right.key)⟩

/-- `nodesFromRoot`, from a key on: the nodes on the way to a key. -/
def nodesFrom (s : Storage) (key : Path) :
    ℕ → Option Path → List StorageNode → Except TrieError (List StorageNode)
  | 0, _, _ => .error .diverge
  | _ + 1, none, nodes => .ok nodes
  | fuel + 1, some cur, nodes =>
    if nodes ≠ [] ∧ cur.length = 0 then .ok nodes
    else do
      let node ← s.get cur
      let nodes := nodes ++ [⟨cur, node⟩]
      if cur.length ≥ key.length ∨ equalMSBs key cur = false then return nodes
      else nodesFrom s key fuel (node.children.map fun c => if bit key cur.length then c.2 else c.1) nodes

namespace Trie

def newTrie (storage : Storage) (height : ℕ) (hashFn : HashFn) : Trie :=
  ⟨height, storage.rootKey, hashFn, storage, [], false⟩

variable (t : Trie)

def maxKey : Felt := Fin.ofNat P (2 ^ t.height) - 1

def nodesFromRoot (key : Path) : Except TrieError (List StorageNode) :=
  nodesFrom t.storage key (t.height + 2) t.rootKey []

def get (t : Trie) (key : Felt) : Except TrieError Felt :=
  match t.storage.get (feltToPath t.height key) with
  | .error .keyNotFound => .ok 0
  | .error e => .error e
  | .ok n => .ok n.value

def setRootKey (newRootKey : Option Path) : Trie :=
  { t with rootKey := newRootKey, rootKeyIsDirty := true }

/-- `deleteLast`: delete the last of the nodes; its parent goes with it, and its sibling is linked from
the grandparent. -/
def deleteLast (nodes : List StorageNode) : Except TrieError Trie :=
  match nodes.reverse with
  | [] => .error .panic
  | [last] => .ok ({ t with storage := t.storage.delete last.key }.setRootKey none)
  | last :: parent :: rest =>
    match parent.node.children with
    | none => .error .panic
    | some children =>
      let siblingKey := siblingKey children last.key
      let t := { t with storage := (t.storage.delete last.key).delete parent.key }
      match rest with
      | [] => .ok (t.setRootKey (some siblingKey))
      | grandParent :: _ =>
        .ok { t with
          storage := t.storage.put grandParent.key (replaceLink grandParent.node parent.key siblingKey)
          dirtyNodes := t.dirtyNodes ++ [siblingKey] }

/-- `insertOrUpdateValue`: a new leaf, and a new inner node above it and its sibling, the last of the
nodes. -/
def insertOrUpdateValue (nodeKey : Path) (node : Node) (nodes : List StorageNode) : Except TrieError Trie :=
  match nodes.reverse with
  | [] => .error .panic
  | sibling :: rest =>
    let commonKey := common nodeKey sibling.key
    let t :=
        { t with storage := t.storage.put commonKey (newParent t.hashFn commonKey ⟨nodeKey, node⟩ sibling) }
    let t := match rest with
      | [] => t.setRootKey (some commonKey)
      | siblingParent :: _ =>
        { t with
          storage := t.storage.put siblingParent.key (replaceLink siblingParent.node sibling.key commonKey)
          dirtyNodes := t.dirtyNodes ++ [commonKey] }
    .ok { t with storage := t.storage.put nodeKey node }

/-- `Trie.Put`: the old value, if the call changes anything. -/
def put (t : Trie) (key value : Felt) : Except TrieError (Option Felt) × Trie :=
  if key > t.maxKey then (.error .keyTooLarge, t)
  else
    let nodeKey := feltToPath t.height key
    let node : Node := ⟨value, none⟩
    match if value = 0 then none else t.storage.nodes nodeKey with
    | some existingLeaf =>
      -- an existing leaf is updated without walking down to it
      (.ok (some existingLeaf.value),
        { t with storage := t.storage.put nodeKey node, dirtyNodes := t.dirtyNodes ++ [nodeKey] })
    | none =>
      match t.nodesFromRoot nodeKey with
      | .error e => (.error e, t)
      | .ok nodes =>
        match nodes.getLast? with
        | none =>
          if value = 0 then (.ok none, t)
          else (.ok (some 0), { t with storage := t.storage.put nodeKey node }.setRootKey (some nodeKey))
        | some sibling =>
          if nodeKey = sibling.key then
            match t.deleteLast nodes with
            | .error e => (.error e, t)
            | .ok t => (.ok (some sibling.node.value), t)
          else if value = 0 then (.ok none, t)
          else
            match t.insertOrUpdateValue nodeKey node nodes with
            | .error e => (.error e, t)
            | .ok t => (.ok (some 0), t)

/-- Whether a dirty node lies below a key. -/
def isDirty (dirtyNodes : List Path) (key : Path) : Bool :=
  dirtyNodes.any fun dirtyNode => key.length < dirtyNode.length && equalMSBs key dirtyNode

/-- `updateValueIfDirty`: recompute the value of a node if a dirty node lies below it, after those of its
children. -/
def updateValueIfDirty (height : ℕ) (hashFn : HashFn) (dirtyNodes : List Path) :
    ℕ → Path → Storage → Except TrieError (Node × Storage)
  | 0, _, _ => .error .diverge
  | fuel + 1, key, s => do
    let node ← s.get key
    if key.length = height then return (node, s)
    else if !isDirty dirtyNodes key then return (node, s)
    else
      match node.children with
      | none => .error .panic
      | some (left, right) =>
        let (leftChild, s) ← updateValueIfDirty height hashFn dirtyNodes fuel left s
        let (rightChild, s) ← updateValueIfDirty height hashFn dirtyNodes fuel right s
        let leftHash := leftChild.hash (path left (some key)) hashFn
        let rightHash := rightChild.hash (path right (some key)) hashFn
        let node := { node with value := hashFn leftHash rightHash }
        return (node, s.put key node)

/-- `Trie.Hash`: write the root key, bring the values up to date, and return the root's hash. -/
def hash (t : Trie) : Except TrieError Felt × Trie :=
  let t := if t.rootKeyIsDirty then
    { t with storage := { t.storage with rootKey := t.rootKey }, rootKeyIsDirty := false } else t
  match t.rootKey with
  | none => (.ok 0, { t with dirtyNodes := [] })
  | some rootKey =>
    match updateValueIfDirty t.height t.hashFn t.dirtyNodes (t.height + 1) rootKey t.storage with
    | .error e => (.error e, t)
    | .ok (root, s) =>
      (.ok (root.hash (path rootKey none) t.hashFn), { t with storage := s, dirtyNodes := [] })

end Trie

end Juno.FlatTrie
