import Juno.Trie2.Node

/-!
# The node-based trie

`core/trie2/trie.go`, `hasher.go` and `collector.go`. A trie is a tree of nodes in
memory over a store that is read when a hash node is met; `Commit` returns the
set of nodes that changed.

Paths are bit strings, so `MSBs`, `LSBs`, `Append` and `CommonMSBs` are `take`,
`drop`, `++` and `common`. The recursive functions take fuel: a store that
answers a hash node's path with another hash would make them call themselves for
ever. The parallel paths of the hasher and the collector compute what the
sequential ones do and are not separate; the counters that choose between them
are left out.
-/

namespace Juno.Trie2

open Lib Lib.Patricia

/-- `resolveNode`: read the node at a path. -/
def resolveNode (rd : NodeReader) (height : ℕ) (hn : Option Felt) (path : Path) : Except TrieError Node := do
  let hash := hn.getD 0
  let blob ← rd.node path hash (path.length == height)
  decodeNode blob hash path.length height

/-- `Children[bit]` of a binary node. -/
def child (b : Bool) (left right : Node) : Node := if b then right else left

/-- A binary node with `Children[bit]` replaced. -/
def setChild (b : Bool) (n left right : Node) (flags : NodeFlag) : Node :=
  if b then .binary left n flags else .binary n right flags

/-- The binary node `insert` branches out with: first the child on the side of the old path is set,
then the one on the side of the key. -/
def newBranch (pathBit : Bool) (pathChild : Node) (keyBit : Bool) (keyChild : Node) : Node :=
  match pathBit, keyBit with
  | false, true => .binary pathChild keyChild newNodeFlag
  | true, false => .binary keyChild pathChild newNodeFlag
  | false, false => .binary keyChild .nil newNodeFlag
  | true, true => .binary .nil keyChild newNodeFlag

/-- `Trie.get`: the value, the node with what was resolved on the way, and whether anything was. -/
def get (rd : NodeReader) (height : ℕ) : ℕ → Node → Path → Path → Except TrieError (Option Felt × Node × Bool)
  | 0, _, _, _ => .error .diverge
  | fuel + 1, n, pre, key =>
    match n with
    | .edge path c flags =>
      if !equalMSBs path key then .ok (none, n, false)
      else do
        let (val, c', didResolve) ← get rd height fuel c (pre ++ path) (key.drop path.length)
        return (val, if didResolve then .edge path c' flags else n, didResolve)
    | .binary left right flags => do
      let b := bit key 0
      let (val, c', didResolve) ← get rd height fuel (child b left right) (pre ++ [b]) (key.drop 1)
      return (val, if didResolve then setChild b c' left right flags else n, didResolve)
    | .hash hn => do
      let c ← resolveNode rd height (some hn) pre
      let (val, newNode, _) ← get rd height fuel c pre key
      return (val, newNode, true)
    | .value v => .ok (some v, n, false)
    | .nil => .ok (none, .nil, false)

/-- `Trie.insert`: the new node and whether it changed. The tracer keeps what it recorded even when
the call fails. -/
def insert (rd : NodeReader) (height : ℕ) :
    ℕ → Node → Path → Path → Node → Tracer → Except TrieError (Node × Bool) × Tracer
  | 0, _, _, _, _, tr => (.error .diverge, tr)
  | fuel + 1, n, pre, key, value, tr =>
    if key.length = 0 then
      match n, value with
      | .value v, .value w => (.ok (value, v != w), tr)
      | .value _, _ => (.error .panic, tr)
      | _, _ => (.ok (value, true), tr)
    else
      match n with
      | .nil => (.ok (.edge key value newNodeFlag, true), tr.onInsert pre)
      | .edge path c flags =>
        let m := (common path key).length
        if m = path.length then
          match insert rd height fuel c (pre ++ path) (key.drop m) value tr with
          | (.error e, tr) => (.error e, tr)
          | (.ok (_, false), tr) => (.ok (.edge path c flags, false), tr)
          | (.ok (newNode, true), tr) => (.ok (.edge path newNode newNodeFlag, true), tr)
        else
          -- branch out at the bit where the path and the key differ
          match insert rd height fuel .nil (pre ++ path.take (m + 1)) (path.drop (m + 1)) c tr with
          | (.error e, tr) => (.error e, tr)
          | (.ok (pathChild, _), tr) =>
            match insert rd height fuel .nil (pre ++ key.take (m + 1)) (key.drop (m + 1)) value tr with
            | (.error e, tr) => (.error e, tr)
            | (.ok (keyChild, _), tr) =>
              let branch := newBranch (bit path m) pathChild (bit key m) keyChild
              if m = 0 then (.ok (branch, true), tr)
              else (.ok (.edge (key.take m) branch newNodeFlag, true), tr.onInsert (pre ++ key.take m))
      | .binary left right flags =>
        let b := bit key 0
        match insert rd height fuel (child b left right) (pre ++ [b]) (key.drop 1) value tr with
        | (.error e, tr) => (.error e, tr)
        | (.ok (_, false), tr) => (.ok (.binary left right flags, false), tr)
        | (.ok (newNode, true), tr) => (.ok (setChild b newNode left right newNodeFlag, true), tr)
      | .hash hn =>
        match resolveNode rd height (some hn) pre with
        | .error e => (.error e, tr)
        | .ok c =>
          match insert rd height fuel c pre key value tr with
          | (.error e, tr) => (.error e, tr)
          | (.ok (_, false), tr) => (.ok (c, false), tr)
          | (.ok (newNode, true), tr) => (.ok (newNode, true), tr)
      | .value _ => (.error .panic, tr)

def resolved (rd : NodeReader) (height : ℕ) (n : Node) (path : Path) : Except TrieError Node :=
  match n with
  | .hash hn => resolveNode rd height (some hn) path
  | n => .ok n

/-- The end of `Trie.delete` at a binary node whose child on the side of `b` is gone: it is combined
with its other child `c`, which has been resolved. -/
def collapse (b : Bool) (c : Node) (pre : Path) (tr : Tracer) : Except TrieError (Node × Bool) × Tracer :=
  match c with
  | .edge path c' _ => (.ok (.edge ((!b) :: path) c' newNodeFlag, true), tr.onDelete (pre ++ [!b]))
  | _ => (.ok (.edge [!b] c newNodeFlag, true), tr)

/-- The end of `Trie.delete` at an edge node whose child became `c`. -/
def mergeEdge (path : Path) (c : Node) (pre : Path) (tr : Tracer) : Except TrieError (Node × Bool) × Tracer :=
  match c with
  | .edge path' c' _ => (.ok (.edge (path ++ path') c' newNodeFlag, true), tr.onDelete (pre ++ path))
  | _ => (.ok (.edge path c newNodeFlag, true), tr)

/-- `Trie.delete`: what is left, and whether anything was removed. -/
def delete (rd : NodeReader) (height : ℕ) :
    ℕ → Node → Path → Path → Tracer → Except TrieError (Node × Bool) × Tracer
  | 0, _, _, _, tr => (.error .diverge, tr)
  | fuel + 1, n, pre, key, tr =>
    match n with
    | .nil => (.ok (.nil, false), tr)
    | .edge path c flags =>
      let m := (common path key).length
      if m < path.length then (.ok (.edge path c flags, false), tr)
      else if m = key.length then (.ok (.nil, true), (tr.onDelete pre).onDelete (pre ++ key))
      else
        match delete rd height fuel c (pre ++ key.take path.length) (key.drop path.length) tr with
        | (.error e, tr) => (.error e, tr)
        | (.ok (_, false), tr) => (.ok (.edge path c flags, false), tr)
        | (.ok (c', true), tr) => mergeEdge path c' pre tr
    | .binary left right flags =>
      let b := bit key 0
      match delete rd height fuel (child b left right) (pre ++ key.take 1) (key.drop 1) tr with
      | (.error e, tr) => (.error e, tr)
      | (.ok (_, false), tr) => (.ok (.binary left right flags, false), tr)
      | (.ok (newNode, true), tr) =>
        match newNode with
        | .nil =>
          match resolved rd height (child (!b) left right) (pre ++ [!b]) with
          | .error e => (.error e, tr)
          | .ok c => collapse b c pre tr
        | newNode => (.ok (setChild b newNode left right newNodeFlag, true), tr)
    | .value _ => (.ok (.nil, true), tr.onDelete pre)
    | .hash hn =>
      match resolveNode rd height (some hn) pre with
      | .error e => (.error e, tr)
      | .ok c =>
        match delete rd height fuel c pre key tr with
        | (.error e, tr) => (.error e, tr)
        | (.ok (_, false), tr) => (.ok (c, false), tr)
        | (.ok (newNode, true), tr) => (.ok (newNode, true), tr)

/-! ### Hashing and collecting -/

/-- `hasher.hash`: the hash of a node, as a hash node (or the value node itself), and the node with
the hashes below it cached. -/
def hash (hashFn : HashFn) : Node → Except TrieError (Node × Node)
  | .nil => .error .panic
  | .value v => .ok (.value v, .value v)
  | .hash h => .ok (.hash h, .hash h)
  | .edge path c flags =>
    match flags.hash with
    | some h => .ok (.hash h, .edge path c flags)
    | none => do
      let (collapsed, cached) ← if c.isInner then hash hashFn c else .ok (c, c)
      let h ← (Node.edge path collapsed flags).hashOf hashFn
      return (.hash h, .edge path cached { flags with hash := some h })
  | .binary left right flags =>
    match flags.hash with
    | some h => .ok (.hash h, .binary left right flags)
    | none => do
      let (collapsedL, cachedL) ← if left = .nil then .ok (.value 0, .value 0) else hash hashFn left
      let (collapsedR, cachedR) ← if right = .nil then .ok (.value 0, .value 0) else hash hashFn right
      let h ← (Node.binary collapsedL collapsedR flags).hashOf hashFn
      return (.hash h, .binary cachedL cachedR { flags with hash := some h })

/-- `collector.store`: a node without a cached hash is taken for a value node. -/
def store (nodes : NodeSet) (path : Path) (n : Node) : Except TrieError (Node × NodeSet) :=
  match encodeNode n with
  | none => .error .panic
  | some blob =>
    match n.cache.1 with
    | none => .ok (n, nodes.add path (.leaf blob.toFelt blob))
    | some h => .ok (.hash h, nodes.add path (.nonLeaf h blob))

/-- `collector.collect`: add the dirty nodes to the node set, and collapse the node to its hash. -/
def collect (nodes : NodeSet) (path : Path) : Node → Except TrieError (Node × NodeSet)
  | .nil => .error .panic
  | .hash h => .ok (.hash h, nodes)
  | .value v => store nodes path (.value v)
  | .edge p c flags =>
    match flags.hash, flags.dirty with
    | some h, false => .ok (.hash h, nodes)
    | _, _ => do
      let (c, nodes) ← collect nodes (path ++ p) c
      store nodes path (.edge p c flags)
  | .binary left right flags =>
    match flags.hash, flags.dirty with
    | some h, false => .ok (.hash h, nodes)
    | _, _ => do
      let (left, nodes) ← collect nodes (path ++ [false]) left
      let (right, nodes) ← collect nodes (path ++ [true]) right
      store nodes path (.binary left right flags)

/-! ### The trie -/

structure Trie where
  height : ℕ
  /-- The contract whose storage trie this is, `0` for the other tries. -/
  owner : Felt
  root : Node
  hashFn : HashFn
  nodeReader : NodeReader
  /-- Whether the trie was committed, after which it is unusable. -/
  committed : Bool
  nodeTracer : Tracer

namespace Trie

variable (t : Trie)

/-- Enough for any key: at each bit one node is met, resolved first if need be. -/
def fuel : ℕ := 2 * t.height + 2

def newEmpty (height : ℕ) (hashFn : HashFn) : Trie :=
  ⟨height, 0, .nil, hashFn, none, false, newTracer⟩

/-- `New`: the root is read from the store, unless the state commitment is zero. -/
def new (owner stateComm : Felt) (height : ℕ) (hashFn : HashFn) (store : NodeStore) : Except TrieError Trie :=
  let t : Trie := ⟨height, owner, .nil, hashFn, some store, false, newTracer⟩
  if stateComm = 0 then .ok t
  else
    match resolveNode t.nodeReader height none [] with
    | .ok root => .ok { t with root := root }
    | .error .keyNotFound => .ok t
    | .error e => .error e

def get (t : Trie) (key : Felt) : Except TrieError Felt × Trie :=
  if t.committed then (.error .committed, t)
  else
    match Trie2.get t.nodeReader t.height t.fuel t.root [] (feltToPath t.height key) with
    | .error e => (.error e, t)
    | .ok (val, root, didResolve) => (.ok (val.getD 0), if didResolve then { t with root := root } else t)

def delete (t : Trie) (key : Felt) : Except TrieError Unit × Trie :=
  if t.committed then (.error .committed, t)
  else
    match Trie2.delete t.nodeReader t.height t.fuel t.root [] (feltToPath t.height key) t.nodeTracer with
    | (.error e, tr) => (.error e, { t with nodeTracer := tr })
    | (.ok (n, _), tr) => (.ok (), { t with root := n, nodeTracer := tr })

/-- `Trie.Update`: a zero value deletes the key. -/
def update (key value : Felt) : Except TrieError Unit × Trie :=
  if t.committed then (.error .committed, t)
  else if value = 0 then t.delete key
  else
    match Trie2.insert t.nodeReader t.height t.fuel t.root [] (feltToPath t.height key) (.value value)
        t.nodeTracer with
    | (.error e, tr) => (.error e, { t with nodeTracer := tr })
    | (.ok (n, _), tr) => (.ok (), { t with root := n, nodeTracer := tr })

/-- `Trie.Hash`: the root must hash to a hash node, or the type assertion panics. -/
def hash (t : Trie) : Except TrieError Felt × Trie :=
  if t.root = .nil then (.ok 0, t)
  else
    match Trie2.hash t.hashFn t.root with
    | .error e => (.error e, t)
    | .ok (.hash h, cached) => (.ok h, { t with root := cached })
    | .ok (_, cached) => (.error .panic, { t with root := cached })

/-- The nodes `Commit` marks as deleted. -/
def deletedSet : NodeSet :=
  ⟨t.owner,
    fun path => if path ∈ t.nodeTracer.deletes then some (.deleted (path.length == t.height)) else none⟩

/-- `Trie.Commit`: the root hash, and the changed nodes if there are any. -/
def commit : Except TrieError (Felt × Option NodeSet) × Trie :=
  if t.root = .nil then
    (.ok (0, if t.nodeTracer.deletes = ∅ then none else some t.deletedSet), { t with committed := true })
  else
    match t.hash with
    | (.error e, t) => (.error e, { t with committed := true })
    | (.ok rootHash, t) =>
      match t.root.cache with
      | (some h, false) => (.ok (rootHash, none), { t with root := .hash h, committed := true })
      | (none, false) => (.ok (rootHash, none), { t with root := .nil, committed := true })
      | (_, true) =>
        match collect t.deletedSet [] t.root with
        | .ok (.hash h, nodes) => (.ok (rootHash, some nodes), { t with root := .hash h, committed := true })
        | .ok (_, _) => (.error .panic, { t with committed := true })
        | .error e => (.error e, { t with committed := true })

end Trie

end Juno.Trie2
