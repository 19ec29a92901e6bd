import Juno.Core.Felt
import Mathlib.Data.Finset.Erase
import Mathlib.Data.Finset.Insert

/-!
# Nodes of the node-based trie

The nodes of `core/trie2/trienode`: binary and edge nodes with their flags, hash
nodes that stand for a subtree not yet read, and value nodes. A stored node is a
`Blob`; its three shapes are those `EncodeNode` writes (a bare felt, a binary node,
an edge node), and `decodeNode` reads them back at a given depth.

A Go panic is an error here: `TrieError.panic`.
-/

namespace Juno.Trie2

open Lib

inductive TrieError where
  /-- `ErrCommitted`: the trie has been committed. -/
  | committed
  /-- `MissingNodeError`: the trie has no reader to resolve a node with. -/
  | missingNode (path : Path) (hash : Felt)
  /-- `db.ErrKeyNotFound`. -/
  | keyNotFound
  /-- `DecodeNode` rejects the blob. -/
  | invalidBlob
  | panic
  | diverge
  deriving DecidableEq, Repr

/-- `nodeFlag`: the cached hash of a node, and whether the node was modified. -/
structure NodeFlag where
  hash : Option Felt
  /-- Whether the node differs from what is stored. -/
  dirty : Bool
  deriving DecidableEq, Repr

def newNodeFlag : NodeFlag := ⟨none, true⟩

/-- `trienode.Node`. -/
inductive Node where
  | nil
  | edge (path : Path) (child : Node) (flags : NodeFlag)
  | binary (left right : Node) (flags : NodeFlag)
  /-- `HashNode`. -/
  | hash (h : Felt)
  /-- `ValueNode`. -/
  | value (v : Felt)
  deriving DecidableEq, Repr

namespace Node

def cache : Node → Option Felt × Bool
  | edge _ _ flags => (flags.hash, flags.dirty)
  | binary _ _ flags => (flags.hash, flags.dirty)
  | _ => (none, true)

def isInner : Node → Bool
  | edge _ _ _ => true
  | binary _ _ _ => true
  | _ => false

/-- `Node.Hash`; on the nil interface it panics. -/
def hashOf (hashFn : HashFn) : Node → Except TrieError Felt
  | nil => .error .panic
  | value v => .ok v
  | hash h => .ok h
  | binary left right _ => do
    let leftHash ← left.hashOf hashFn
    let rightHash ← right.hashOf hashFn
    return hashFn leftHash rightHash
  | edge path child _ => do
    let childHash ← child.hashOf hashFn
    return hashFn childHash (pathFelt path) + Fin.ofNat P path.length

end Node

/-! ### Stored nodes -/

inductive Blob where
  /-- 32 bytes: a value, or the hash of a node. -/
  | felt (f : Felt)
  /-- A binary node: the bytes of its children, which are felts in a collapsed node. -/
  | binary (left right : Blob)
  /-- An edge node: the bytes of its child, a felt in a collapsed node, and its path. -/
  | edge (child : Blob) (path : Path)
  deriving DecidableEq, Repr

/-- `EncodeNode`; it panics at a nil child. -/
def encodeNode : Node → Option Blob
  | .nil => none
  | .value v => some (.felt v)
  | .hash h => some (.felt h)
  | .binary left right _ => do return .binary (← encodeNode left) (← encodeNode right)
  | .edge path child _ => do return .edge (← encodeNode child) path

/-- `decodeValueNode` and `decodeHashNode`: a bare felt is a value at full depth, a hash above. -/
def decodeFelt (f : Felt) (pathLen maxPathLen : ℕ) : Except TrieError Node :=
  if pathLen > maxPathLen then .error .invalidBlob
  else if pathLen = maxPathLen then .ok (.value f)
  else .ok (.hash f)

/-- The flags of a decoded node: a zero hash is left unset, and the node is clean. -/
def decodedFlags (hash : Felt) : NodeFlag := ⟨if hash = 0 then none else some hash, false⟩

/-- `DecodeNode`, of the rows of collapsed nodes. A node written inside another is not delimited: the source
cuts its bytes at fixed offsets and may panic or give another node, which is not followed here. -/
def decodeNode (blob : Blob) (hash : Felt) (pathLen maxPathLen : ℕ) : Except TrieError Node :=
  match blob with
  | .felt f => decodeFelt f pathLen maxPathLen
  | .binary (.felt left) (.felt right) =>
    if pathLen > maxPathLen then .error .invalidBlob
    else do
      let l ← decodeFelt left (pathLen + 1) maxPathLen
      let r ← decodeFelt right (pathLen + 1) maxPathLen
      return .binary l r (decodedFlags hash)
  | .edge (.felt child) path =>
    if pathLen > maxPathLen then .error .invalidBlob
    else do
      let c ← decodeFelt child pathLen maxPathLen
      if pathLen + path.length = maxPathLen then
        match c with
        | .hash f => return .edge path (.value f) (decodedFlags hash)
        | _ => .error .panic
      else return .edge path c (decodedFlags hash)
  | _ => .error .invalidBlob

/-- The key of a stored node within a trie: `nodeKeyByPath` less the bucket and the owner. -/
structure NodeKey where
  isLeaf : Bool
  path : Path
  deriving DecidableEq, Repr

/-- The rows of one trie in a path-keyed node database. -/
abbrev NodeStore := NodeKey → Option Blob

/-- `nodeReader`: a store to read nodes from, or none (`NewEmptyNodeReader`). -/
abbrev NodeReader := Option NodeStore

def NodeReader.node (r : NodeReader) (path : Path) (hash : Felt) (isLeaf : Bool) : Except TrieError Blob :=
  match r with
  | none => .error (.missingNode path hash)
  | some store =>
    match store ⟨isLeaf, path⟩ with
    | none => .error .keyNotFound
    | some blob => .ok blob

/-! ### Changed nodes -/

/-- `trienode.TrieNode`: a node of a node set. -/
inductive TrieNode where
  /-- `NonLeafNode`. -/
  | nonLeaf (hash : Felt) (blob : Blob)
  /-- `LeafNode`. -/
  | leaf (hash : Felt) (blob : Blob)
  /-- `DeletedNode`. -/
  | deleted (isLeaf : Bool)
  deriving DecidableEq, Repr

def TrieNode.isLeaf : TrieNode → Bool
  | nonLeaf _ _ => false
  | leaf _ _ => true
  | deleted isLeaf => isLeaf

/-- The felt `SetBytes` reads from a leaf's bytes; of longer bytes nothing reads it. -/
def Blob.toFelt : Blob → Felt
  | felt f => f
  | _ => 0

/-- `TrieNode.Blob`; a deleted node has none. -/
def TrieNode.blob : TrieNode → Option Blob
  | nonLeaf _ blob => some blob
  | leaf _ blob => some blob
  | deleted _ => none

/-- `trienode.NodeSet`: the changed nodes of a trie, by path. -/
structure NodeSet where
  /-- The contract whose storage trie this is, `0` for the other tries. -/
  owner : Felt
  nodes : Path → Option TrieNode

def newNodeSet (owner : Felt) : NodeSet := ⟨owner, fun _ => none⟩

def NodeSet.add (s : NodeSet) (key : Path) (node : TrieNode) : NodeSet :=
  { s with nodes := Function.update s.nodes key (some node) }

/-- Writing the nodes of a node set to the store: `rawdb` writes each node at its path and removes
the deleted ones. -/
def NodeStore.apply (store : NodeStore) (nodes : Path → Option TrieNode) : NodeStore := fun key =>
  match nodes key.path with
  | some n => if n.isLeaf = key.isLeaf then n.blob else store key
  | none => store key

/-! ### The tracer -/

/-- `nodeTracer`: the paths that came into use and the paths that went out of use. -/
structure Tracer where
  inserts : Finset Path
  deletes : Finset Path

def newTracer : Tracer := ⟨∅, ∅⟩

/-- `nodeTracer.onInsert`. -/
def Tracer.onInsert (t : Tracer) (key : Path) : Tracer :=
  if key ∈ t.deletes then { t with deletes := t.deletes.erase key }
  else { t with inserts := insert key t.inserts }

/-- `nodeTracer.onDelete`. -/
def Tracer.onDelete (t : Tracer) (key : Path) : Tracer :=
  if key ∈ t.inserts then { t with inserts := t.inserts.erase key }
  else { t with deletes := insert key t.deletes }

end Juno.Trie2
