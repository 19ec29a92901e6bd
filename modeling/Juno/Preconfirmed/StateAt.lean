import Juno.CoreState.Revert
import Juno.Preconfirmed.Run
import Juno.Statebackend.Overlay
import Mathlib

/-!
# Reading the state of pre-confirmed blocks

`PreConfirmedStateAt` and `PreConfirmedStateBeforeIndexAt` merge the diffs of the chain up to a block, or up
to a transaction of it, and read them over the state at the head (`core/pending`).

## The model

* `PendingState` — `pending.State`, its diff in memory and its head the state at a block of the database.
* `BlockOf` — the block that is stored for an entry of the chain.

The main result is `preConfirmedState_agrees_iff`.
-/

namespace Juno.Preconfirmed

open Lib CoreState Statebackend Storage List StateHistory DiffValue DiffObject Except

variable {W Z S H T Y : Type} {A : Adapter W Z S H T Y} {maps : Maps} {diff : DiffValue}
  {bs : List Block} {blockNumber start : ℕ} {q : Query}

/-! ### The readers -/

structure PendingState where
  stateDiff : DiffObject
  newClasses : Classes
  /-- The database of `head`. -/
  db : DB
  headBlock : ℕ
  blockNumber : ℕ

namespace PendingState

variable (maps : Maps) (p : PendingState)

def contractClassHash (addr : Felt) : Except StateError Felt :=
  match p.stateDiff.replacedClasses.lookup addr with
  | some classHash => .ok classHash
  | none =>
    match p.stateDiff.deployedContracts.lookup addr with
    | some classHash => .ok classHash
    | none => StateHistory.contractClassHash p.db p.headBlock addr

def contractNonce (addr : Felt) : Except StateError Felt :=
  match p.stateDiff.nonces.lookup addr with
  | some nonce => .ok nonce
  | none =>
    match p.stateDiff.deployedContracts.lookup addr with
    | some _ => .ok 0
    | none => StateHistory.contractNonce p.db p.headBlock addr

def slot (addr key : Felt) : Option Felt :=
  match p.stateDiff.storageDiffs.lookup addr with
  | some diffs => (maps.read diffs).lookup key
  | none => none

def contractStorage (addr key : Felt) : Except StateError Felt :=
  match p.slot maps addr key with
  | some value => .ok value
  | none =>
    match p.stateDiff.deployedContracts.lookup addr with
    | some _ => .ok 0
    | none => StateHistory.contractStorage p.db p.headBlock addr key

def contractStorageLastUpdatedBlock (addr key : Felt) : ℕ :=
  match p.slot maps addr key with
  | some _ => p.blockNumber
  | none =>
    match p.stateDiff.deployedContracts.lookup addr with
    | some _ => 0
    | none => StateHistory.contractStorageLastUpdatedBlock p.db p.headBlock addr key

def classAt (classHash : Felt) : Except StateError DeclaredClass :=
  match p.newClasses.lookup classHash with
  | some cls => .ok ⟨0, cls⟩
  | none => StateHistory.classAt p.db p.headBlock classHash

def compiledClassHash (classHash : Felt) : Except StateError Felt :=
  match p.stateDiff.declaredV1Classes.lookup classHash with
  | some casmHash => .ok casmHash
  | none => StateHistory.compiledClassHash p.db p.headBlock classHash

def compiledClassHashV2 (classHash : Felt) : Except StateError Felt :=
  match p.stateDiff.migratedClasses.lookup classHash with
  | some casmHash => .ok casmHash
  | none => StateHistory.compiledClassHashV2 p.db classHash

def query : Query → Except StateError Answer
  | .contractClassHash addr => (p.contractClassHash addr).map .felt
  | .contractNonce addr => (p.contractNonce addr).map .felt
  | .contractStorage addr key => (p.contractStorage maps addr key).map .felt
  | .contractStorageLastUpdatedBlock addr key =>
    .ok (.block (p.contractStorageLastUpdatedBlock maps addr key))
  | .classDefinition classHash =>
    (p.classAt classHash).map fun declaredClass => .definition declaredClass.definition
  | .compiledClassHash classHash => (p.compiledClassHash classHash).map .felt
  | .compiledClassHashV2 classHash => (p.compiledClassHashV2 classHash).map .felt

def overlay : Overlay :=
  ⟨p.stateDiff.value maps, fun classHash => p.newClasses.lookup classHash, p.db, p.headBlock, p.blockNumber⟩

theorem slot_eq (addr key : Felt) : (p.stateDiff.value maps).slot addr key = p.slot maps addr key := by
  change ((p.stateDiff.storageDiffs.lookup addr).map fun q k => (maps.read q).lookup k).bind (· key) = _
  rw [slot]
  cases p.stateDiff.storageDiffs.lookup addr with
  | none => rfl
  | some q => rfl

theorem query_eq (q : Query) : p.query maps q = (p.overlay maps).query q := by
  cases q with
  | contractClassHash addr =>
    change _ =
      orHead (((p.stateDiff.replacedClasses.lookup addr).or (p.stateDiff.deployedContracts.lookup addr)).map
      .felt) _
    rw [query, contractClassHash]
    cases p.stateDiff.replacedClasses.lookup addr <;> cases p.stateDiff.deployedContracts.lookup addr <;> rfl
  | contractNonce addr =>
    change _ = orHead (((p.stateDiff.nonces.lookup addr).or
      ((p.stateDiff.deployedContracts.lookup addr).map fun _ => 0)).map .felt) _
    rw [query, contractNonce]
    cases p.stateDiff.nonces.lookup addr <;> cases p.stateDiff.deployedContracts.lookup addr <;> rfl
  | contractStorage addr key =>
    change _ = orHead ((((p.stateDiff.value maps).slot addr key).or
      ((p.stateDiff.deployedContracts.lookup addr).map fun _ => 0)).map .felt) _
    rw [query, contractStorage, slot_eq]
    cases p.slot maps addr key <;> cases p.stateDiff.deployedContracts.lookup addr <;> rfl
  | contractStorageLastUpdatedBlock addr key =>
    change _ = orHead (((((p.stateDiff.value maps).slot addr key).map fun _ => p.blockNumber).or
      ((p.stateDiff.deployedContracts.lookup addr).map fun _ => 0)).map .block) _
    rw [query, contractStorageLastUpdatedBlock, slot_eq]
    cases p.slot maps addr key <;> cases p.stateDiff.deployedContracts.lookup addr <;> rfl
  | classDefinition hash =>
    change _ = orHead ((p.newClasses.lookup hash).map .definition) _
    rw [query, classAt]
    cases p.newClasses.lookup hash <;> rfl
  | compiledClassHash hash =>
    change _ = orHead ((p.stateDiff.declaredV1Classes.lookup hash).map .felt) _
    rw [query, compiledClassHash]
    cases p.stateDiff.declaredV1Classes.lookup hash <;> rfl
  | compiledClassHashV2 hash =>
    change _ = orHead ((p.stateDiff.migratedClasses.lookup hash).map .felt) _
    rw [query, compiledClassHashV2]
    cases p.stateDiff.migratedClasses.lookup hash <;> rfl

end PendingState

/-! ### The state of a chain -/

/-- What the two functions can fail with. -/
inductive PendingError where
  /-- `ErrPreConfirmedNotFound`. -/
  | notFound
  /-- `ErrTransactionIndexOutOfBounds`. -/
  | indexOutOfBounds
  /-- `pre-confirmed chain invariant broken`. -/
  | gap
  /-- There is no state below block 0. -/
  | baseState
  deriving DecidableEq

def oldestFirst (nodes : List (Node H T Y)) (c : ChainReader) : List (Node H T Y) :=
  (newestFirst nodes c.head c.length).reverse

def mergeClassesInto (dst src : Classes) : Classes := if src.entries.length = 0 then dst else dst.copyFrom src

structure Layers where
  maps : Maps
  stateDiff : DiffObject
  newClasses : Classes

def Layers.add (l : Layers) (n : Node H T Y) : Layers :=
  let r := merge l.maps l.stateDiff n.value.stateDiff
  ⟨r.1, r.2, mergeClassesInto l.newClasses n.value.newClasses⟩

/-- The loop of `PreConfirmedStateAt`. -/
def layerUpTo (blockNumber : ℕ) : Layers → List (Node H T Y) → Layers
  | l, [] => l
  | l, n :: ns => if n.value.header.number = blockNumber then l.add n else layerUpTo blockNumber (l.add n) ns

/-- The loop of `PreConfirmedStateBeforeIndexAt`: the blocks below, and the target. -/
def layerBelow (blockNumber : ℕ) : Layers → List (Node H T Y) → Layers × Option (Node H T Y)
  | l, [] => (l, none)
  | l, n :: ns =>
    if n.value.header.number = blockNumber then (l, some n) else layerBelow blockNumber (l.add n) ns

/-- `baseState`: the block whose state is below the chain. -/
def baseState (nodes : List (Node H T Y)) (c : ChainReader) : Except PendingError ℕ :=
  if oldestPreConf nodes c = 0 then .error .baseState else .ok (oldestPreConf nodes c - 1)

def preConfirmedStateAt (maps : Maps) (nodes : List (Node H T Y)) (c : ChainReader) (blockNumber : ℕ)
    (db : DB) : Except PendingError (Maps × PendingState) :=
  if !contains nodes c blockNumber then .error .notFound
  else do
    let base ← baseState nodes c
    let l := layerUpTo blockNumber ⟨maps, .empty, ∅⟩ (oldestFirst nodes c)
    .ok (l.maps, ⟨l.stateDiff, l.newClasses, db, base, blockNumber⟩)

def preConfirmedStateBeforeIndexAt (maps : Maps) (nodes : List (Node H T Y)) (c : ChainReader)
    (blockNumber index : ℕ) (db : DB) : Except PendingError (Maps × PendingState) :=
  if !contains nodes c blockNumber then .error .notFound
  else
    let l := layerBelow blockNumber ⟨maps, .empty, ∅⟩ (oldestFirst nodes c)
    match l.2 with
    | none => .error .gap
    | some target =>
      if index > target.value.transactions.length then .error .indexOutOfBounds
      else do
        let base ← baseState nodes c
        let r := mergeDiffs (l.1.maps, l.1.stateDiff) (target.value.transactionStateDiffs.take index)
        .ok (r.1, ⟨r.2, mergeClassesInto l.1.newClasses target.value.newClasses, db, base, blockNumber⟩)

/-! ### The loops -/

variable {ns : List (Node H T Y)}

def Numbered (start : ℕ) (ns : List (Node H T Y)) : Prop :=
  ∀ (i : ℕ) n, ns[i]? = some n → n.value.header.number = start + i

theorem Numbered.tail {n : Node H T Y} (h : Numbered start (n :: ns)) :
    n.value.header.number = start ∧ Numbered (start + 1) ns := by
  refine ⟨h 0 n rfl, fun i m hm => ?_⟩
  rw [h (i + 1) m hm]
  omega

def Layers.addAll (l : Layers) (ns : List (Node H T Y)) : Layers := ns.foldl Layers.add l

theorem layers_eq (h : Numbered start ns) (hle : start ≤ blockNumber)
    (hlt : blockNumber < start + ns.length) (l : Layers) :
    layerUpTo blockNumber l ns = l.addAll (ns.take (blockNumber - start + 1)) ∧
      layerBelow blockNumber l ns = (l.addAll (ns.take (blockNumber - start)), ns[blockNumber - start]?) := by
  induction ns generalizing start l with
  | nil =>
    rw [length_nil] at hlt
    omega
  | cons n ns ih =>
    obtain ⟨hn, htail⟩ := h.tail
    rw [length_cons] at hlt
    rw [layerUpTo, layerBelow, hn]
    split_ifs with heq
    · rw [heq, Nat.sub_self]
      exact ⟨rfl, rfl⟩
    · have hsub : blockNumber - start = (blockNumber - (start + 1)) + 1 := by omega
      obtain ⟨hupTo, hbelow⟩ := ih htail (by omega) (by omega) (l.add n)
      rw [hupTo, hbelow, hsub]
      exact ⟨rfl, rfl⟩

theorem addAll_diffs (l : Layers) (ns : List (Node H T Y)) :
    ((l.addAll ns).maps, (l.addAll ns).stateDiff) = mergeDiffs (l.maps, l.stateDiff)
      (ns.map fun n => n.value.stateDiff) := by
  induction ns generalizing l with
  | nil => rfl
  | cons n ns ih => exact ih (l.add n)

theorem lookup_mergeClassesInto (dst src : Classes) (hash : Felt) :
    (mergeClassesInto dst src).lookup hash = (src.lookup hash).or (dst.lookup hash) := by
  rw [mergeClassesInto]
  split_ifs with hzero
  · have hnone : src.lookup hash = none := by
      rw [AList.lookup, length_eq_zero_iff.mp hzero]
      rfl
    rw [hnone, Option.none_or]
  · rw [GoMap.lookup_copyFrom]

/-! ### The blocks that are stored -/

structure BlockOf (maps : Maps) (n : Node H T Y) (b : Block) : Prop where
  number : b.header.number = n.value.header.number
  diff : b.diff.value = n.value.stateDiff.value maps
  /-- It comes with its class definitions. -/
  classes : ∀ hash, b.declaredClasses.lookup hash = n.value.newClasses.lookup hash

theorem merged_blocksOf (h : List.Forall₂ (BlockOf maps) ns bs) :
    merged bs = mergeAll (ns.map fun n => n.value.stateDiff.value maps) := by
  rw [merged]
  congr 1
  induction h with
  | nil => rfl
  | cons hb _ ih => rw [map_cons, map_cons, ih, hb.diff]

theorem addAll_classes (h : List.Forall₂ (BlockOf maps) ns bs) (l : Layers) (hash : Felt) :
    (l.addAll ns).newClasses.lookup hash =
      (latest (fun b => b.declaredClasses.lookup hash) bs).or (l.newClasses.lookup hash) := by
  have hfold : ∀ (bs : List Block) (acc : Option ClassDefinition),
      bs.foldl (fun acc b => (b.declaredClasses.lookup hash).or acc) acc =
        (latest (fun b => b.declaredClasses.lookup hash) bs).or acc := by
    intro bs
    induction bs using reverseRecOn with
    | nil => exact fun acc => rfl
    | append_singleton bs b ih =>
      intro acc
      rw [foldl_append, ih, latest_concat, Option.or_assoc]
      rfl
  rw [← hfold]
  clear hfold
  induction h generalizing l with
  | nil => rfl
  | @cons n b ns bs hb _ ih =>
    rw [foldl_cons, hb.classes, ← lookup_mergeClassesInto]
    exact ih (l.add n)

/-! ### Snapshots -/

/-- A snapshot above block `m` that contains block `n`. -/
structure Above (A : Adapter W Z S H T Y) (t : Told W Z S H) (s : Storage H T Y) (c : ChainReader)
    (m n : ℕ) : Prop where
  numbered : Numbered (m + 1) (oldestFirst s.nodes c)
  lower : m + 1 ≤ n
  upper : n < m + 1 + (oldestFirst s.nodes c).length
  base : baseState s.nodes c = .ok m
  good : ∀ node ∈ oldestFirst s.nodes c, NodeGood A s.maps t.source node

variable {t : Told W Z S H}

theorem contains_iff {nodes : List (Node H T Y)} {c : ChainReader} :
    contains nodes c blockNumber = true ↔
      0 < c.length ∧ oldestPreConf nodes c ≤ blockNumber ∧ blockNumber ≤ tip nodes c := by
  rw [contains, Bool.and_eq_true, Bool.and_eq_true, decide_eq_true_iff, decide_eq_true_iff,
    decide_eq_true_iff, and_assoc]

theorem Inv.above {s : Storage H T Y} (h : Inv A t s) {m n : ℕ}
    (hn : contains s.nodes (s.snapshotForBlock (m + 1)) n = true) :
    Above A t s (s.snapshotForBlock (m + 1)) m n := by
  rw [snapshotForBlock] at hn ⊢
  cases hinner : s.inner with
  | none =>
    rw [hinner] at hn
    exact absurd hn Bool.false_ne_true
  | some c =>
    rw [hinner] at hn
    simp only at hn ⊢
    obtain ⟨ns, hstored⟩ := h c hinner
    split_ifs at hn ⊢ with hc
    · have htip : tip s.nodes ⟨c.head, tip s.nodes c - (m + 1) + 1⟩ = tip s.nodes c := rfl
      have hlen' : (⟨c.head, tip s.nodes c - (m + 1) + 1⟩ : ChainReader).length =
          tip s.nodes c - (m + 1) + 1 := rfl
      rw [contains_iff, oldestPreConf] at hn hc
      rw [htip, hlen'] at hn
      obtain ⟨hpos, hle, hge⟩ := hc
      obtain ⟨-, hn₁, hn₂⟩ := hn
      have hlen := hstored.length
      have hk : tip s.nodes c - (m + 1) + 1 ≤ ns.length := by omega
      have holdest : oldestFirst s.nodes ⟨c.head, tip s.nodes c - (m + 1) + 1⟩ =
          (ns.take (tip s.nodes c - (m + 1) + 1)).reverse := by
        rw [oldestFirst, hstored.path.newestFirst]
      have hlength : (oldestFirst s.nodes ⟨c.head, tip s.nodes c - (m + 1) + 1⟩).length =
          tip s.nodes c - (m + 1) + 1 := by
        rw [holdest, length_reverse, length_take, Nat.min_eq_left hk]
      refine ⟨fun i node hnode => ?_, by omega, by omega, ?_, fun node hnode => ?_⟩
      · have hi : i < tip s.nodes c - (m + 1) + 1 := by
          rw [← hlength]
          exact (List.getElem?_eq_some_iff.mp hnode).1
        rw [holdest, getElem?_reverse (by rw [length_take, Nat.min_eq_left hk]; exact hi), length_take,
          Nat.min_eq_left hk, getElem?_take_of_lt (by omega)] at hnode
        have hnum : node.value.header.number + _ = tip s.nodes c := hstored.numbers _ node hnode
        omega
      · rw [baseState, oldestPreConf, htip, hlen', if_neg (by omega)]
        refine congrArg ok ?_
        omega
      · rw [holdest, mem_reverse] at hnode
        exact hstored.good node (mem_of_mem_take hnode)
    · exact absurd hn Bool.false_ne_true

theorem addAll_value (ns : List (Node H T Y)) (hns : ∀ n ∈ ns, NodeGood A maps t.source n) :
    Merged maps empty (((⟨maps, .empty, ∅⟩ : Layers).addAll ns).maps,
      ((⟨maps, .empty, ∅⟩ : Layers).addAll ns).stateDiff)
      (mergeAll (ns.map fun n => n.value.stateDiff.value maps)) := by
  have halloc : ∀ d ∈ ns.map (fun n => n.value.stateDiff), d.Allocated maps := by
    intro d hd
    obtain ⟨n, hn, rfl⟩ := mem_map.mp hd
    obtain ⟨source, -, hgood⟩ := (hns n hn).value
    exact hgood.stateDiff
  have hmerged := mergeDiffs_merged (Owns.empty maps) (d := empty) halloc fun _ _ p _ hp => points_empty p hp
  rw [value_empty, empty_merge, map_map] at hmerged
  rw [addAll_diffs]
  exact hmerged

/-! ### Agreement -/

section

variable (c : Crypto) (s : Storage H T Y) (r : ChainReader) (db : DB) (m n : ℕ)

/-- The state at block `n` of a snapshot above block `m` can be read, and a query returns what it returns
after the blocks up to `n` are stored, exactly if it fits. -/
def StateAtAgrees : Prop :=
  ∃ p, preConfirmedStateAt s.maps s.nodes r n db = .ok p ∧
    ∀ bs db', List.Forall₂ (BlockOf s.maps) ((oldestFirst s.nodes r).take (n - m)) bs →
      storeAll c (m + 1) bs db = .ok db' →
      ∀ q, p.2.query p.1 q = query db' n q ↔ Fits db m bs db' q

/-- The state before transaction `i` of block `n` can be read, and a query about a contract returns what it
returns after the blocks below `n` are stored and a block with the diffs of the first `i` transactions of `n`,
exactly if it fits. -/
def StateBeforeIndexAgrees : Prop :=
  ∃ target, (oldestFirst s.nodes r)[n - (m + 1)]? = some target ∧ ∀ i ≤ target.value.transactions.length,
    ∃ p, preConfirmedStateBeforeIndexAt s.maps s.nodes r n i db = .ok p ∧
      ∀ bs b db', List.Forall₂ (BlockOf s.maps) ((oldestFirst s.nodes r).take (n - (m + 1))) bs →
        b.diff.value = mergeAll ((target.value.transactionStateDiffs.take i).map (value s.maps)) →
        storeAll c (m + 1) (bs ++ [b]) db = .ok db' →
        ∀ q, q.isContract = true → (p.2.query p.1 q = query db' n q ↔ Fits db m (bs ++ [b]) db' q)

/-- The state before the first transaction of a block is that of the block below, as far as the values of the
contracts go, and the one after the last transaction is that of the block. -/
def IndexEndsAgree : Prop :=
  ∃ target p₀ p₁ p, (oldestFirst s.nodes r)[n - (m + 1)]? = some target ∧
    preConfirmedStateBeforeIndexAt s.maps s.nodes r n 0 db = .ok p₀ ∧
    preConfirmedStateBeforeIndexAt s.maps s.nodes r n target.value.transactions.length db = .ok p₁ ∧
    preConfirmedStateAt s.maps s.nodes r n db = .ok p ∧
    (∀ q, q.isContract = true → p₁.2.query p₁.1 q = p.2.query p.1 q) ∧
    ∀ q, q.isContractValue = true → (n = m + 1 → p₀.2.query p₀.1 q = query db m q) ∧
      ∀ p', preConfirmedStateAt s.maps s.nodes r (n - 1) db = .ok p' → p₀.2.query p₀.1 q = p'.2.query p'.1 q

end

variable {s : Storage H T Y} {r : ChainReader} {db : DB} {m n : ℕ}

theorem Above.lower_of_contains (h : Above A t s r m n) (hn : contains s.nodes r (n - 1) = true) :
    Above A t s r m (n - 1) := by
  have hbase := h.base
  have hupper := h.upper
  have hle := (contains_iff.mp hn).2.1
  rw [baseState] at hbase
  split_ifs at hbase with hzero
  have hm := ok.inj hbase
  exact { h with lower := by omega, upper := by omega }

structure Reads (p : Maps × PendingState) (diff : DiffValue) (db : DB) (m n : ℕ) : Prop where
  stateDiff : p.2.stateDiff.value p.1 = diff
  db : p.2.db = db
  headBlock : p.2.headBlock = m
  blockNumber : p.2.blockNumber = n

/-- A query about a contract does not look at the classes, and looks at the number of the block only for the
block of a slot. -/
theorem Reads.query_contract {p : Maps × PendingState} (h : Reads p diff db m n) {o : Overlay}
    (hdiff : o.stateDiff = diff) (hdb : o.db = db) (hhead : o.headBlock = m) (hq : q.isContract = true)
    (hnum : o.blockNumber = n ∨ q.isContractValue = true) : p.2.query p.1 q = o.query q := by
  obtain ⟨maps, d, cls, db', head, num⟩ := p
  obtain ⟨d', cls', db'', head', num'⟩ := o
  obtain ⟨rfl, rfl, rfl, rfl⟩ := h
  simp only at hdiff hdb hhead hnum
  subst hdiff hdb hhead
  rw [PendingState.query_eq]
  cases q with
  | contractClassHash | contractNonce | contractStorage => rfl
  | contractStorageLastUpdatedBlock =>
    obtain rfl := hnum.resolve_right Bool.false_ne_true
    rfl
  | classDefinition | compiledClassHash | compiledClassHashV2 => exact absurd hq Bool.false_ne_true

theorem Reads.query_eq {p p' : Maps × PendingState} {n' : ℕ} (h : Reads p diff db m n)
    (h' : Reads p' diff db m n') (hq : q.isContract = true)
    (hnum : n' = n ∨ q.isContractValue = true) : p.2.query p.1 q = p'.2.query p'.1 q := by
  obtain ⟨hdiff, hdb, hhead, rfl⟩ := h'
  rw [PendingState.query_eq p'.1]
  exact h.query_contract hdiff hdb hhead hq hnum

def diffOf (maps : Maps) (ns : List (Node H T Y)) : DiffValue :=
  mergeAll (ns.map fun n => n.value.stateDiff.value maps)

theorem stateAt_reads (h : Above A t s r m n) (hn : contains s.nodes r n = true) (db : DB) :
    ∃ p, preConfirmedStateAt s.maps s.nodes r n db = .ok p ∧
      Reads p (diffOf s.maps ((oldestFirst s.nodes r).take (n - m))) db m n ∧
      p.2.newClasses =
        ((⟨s.maps, .empty, ∅⟩ : Layers).addAll ((oldestFirst s.nodes r).take (n - m))).newClasses := by
  have hloop := (layers_eq h.numbered h.lower h.upper ⟨s.maps, .empty, ∅⟩).1
  rw [Nat.sub_add_eq, Nat.sub_add_cancel (Nat.sub_pos_of_lt h.lower)] at hloop
  have hmerged := addAll_value ((oldestFirst s.nodes r).take (n - m)) fun node hnode =>
    h.good node (mem_of_mem_take hnode)
  generalize (⟨s.maps, .empty, ∅⟩ : Layers).addAll ((oldestFirst s.nodes r).take (n - m)) = l at hloop hmerged
  refine ⟨(l.maps, ⟨l.stateDiff, l.newClasses, db, m, n⟩), ?_, ⟨hmerged.value, rfl, rfl, rfl⟩, rfl⟩
  rw [preConfirmedStateAt, hn, Bool.not_true, if_neg Bool.false_ne_true, h.base, ok_bind, hloop]

theorem stateAt_agrees (c : Crypto) (h : Above A t s r m n) (hn : contains s.nodes r n = true)
    (hb : Below (m + 1) db) : StateAtAgrees c s r db m n := by
  obtain ⟨p, hp, hreads, hclasses⟩ := stateAt_reads h hn db
  refine ⟨p, hp, fun bs db' hbs hs q => ?_⟩
  have hupper := h.upper
  have hlower := h.lower
  have hlen : bs.length = n - m := by
    rw [← hbs.length_eq, length_take, Nat.min_eq_left (by omega)]
  have hn' : m + bs.length = n := by omega
  have hoverlay : p.2.overlay p.1 = overlayOf db m bs := by
    rw [PendingState.overlay, overlayOf, merged_blocksOf hbs, hn', hreads.stateDiff, hreads.db,
      hreads.headBlock,
      hreads.blockNumber, hclasses, diffOf]
    congr 1
    funext hash
    exact (addAll_classes hbs _ hash).trans Option.or_none
  rw [PendingState.query_eq, hoverlay, ← hn']
  exact Overlay.query_iff hb hs q

variable {target : Node H T Y} (htarget : (oldestFirst s.nodes r)[n - (m + 1)]? = some target)
include htarget

theorem stateBeforeIndex_reads (h : Above A t s r m n) (hn : contains s.nodes r n = true) (db : DB) {i : ℕ}
    (hi : i ≤ target.value.transactions.length) :
    ∃ p, preConfirmedStateBeforeIndexAt s.maps s.nodes r n i db = .ok p ∧
      Reads p ((diffOf s.maps ((oldestFirst s.nodes r).take (n - (m + 1)))).merge
        (mergeAll ((target.value.transactionStateDiffs.take i).map (value s.maps)))) db m n := by
  obtain ⟨source, -, hgood⟩ := (h.good target (mem_of_getElem? htarget)).value
  have hloop := (layers_eq h.numbered h.lower h.upper ⟨s.maps, .empty, ∅⟩).2
  rw [htarget] at hloop
  have hmerged := addAll_value ((oldestFirst s.nodes r).take (n - (m + 1))) fun node hnode =>
    h.good node (mem_of_mem_take hnode)
  generalize (⟨s.maps, .empty, ∅⟩ : Layers).addAll ((oldestFirst s.nodes r).take (n - (m + 1))) = l
    at hloop hmerged
  -- the diffs of the transactions were there before the blocks were merged
  have halloc : ∀ d ∈ target.value.transactionStateDiffs.take i, d.Allocated s.maps := fun d hd =>
    hgood.transactionStateDiffs d (mem_of_mem_take hd)
  have hsep : ∀ d ∈ target.value.transactionStateDiffs.take i, ∀ p, Points d.storageDiffs p →
      ¬ Points l.stateDiff.storageDiffs p := by
    intro d hd p hp hp'
    rcases hmerged.points p hp' with hp' | hp'
    · exact points_empty p hp'
    · exact absurd (halloc d hd p hp) (Nat.not_lt.mpr hp')
  have hkept : Kept s.maps l.maps fun _ => False :=
    ⟨hmerged.kept.length, fun p hp _ => hmerged.kept.same p hp (points_empty p)⟩
  have htx := mergeDiffs_merged hmerged.owns (fun d hd => (halloc d hd).mono hmerged.kept.length) hsep
  have hmergedValue : l.stateDiff.value l.maps = _ := hmerged.value
  rw [map_value_kept hkept halloc fun _ _ _ _ hf => hf, hmergedValue] at htx
  generalize hp : mergeDiffs (l.maps, l.stateDiff) (target.value.transactionStateDiffs.take i) = p at htx
  refine ⟨(p.1, ⟨p.2, mergeClassesInto l.newClasses target.value.newClasses, db, m, n⟩), ?_, htx.value,
    rfl, rfl, rfl⟩
  rw [preConfirmedStateBeforeIndexAt, hn, Bool.not_true, if_neg Bool.false_ne_true]
  simp only [hloop]
  rw [if_neg (Nat.not_lt.mpr hi), h.base, ok_bind, hp]

theorem stateBeforeIndex_agrees (c : Crypto) (h : Above A t s r m n) (hn : contains s.nodes r n = true)
    (hb : Below (m + 1) db) : StateBeforeIndexAgrees c s r db m n := by
  refine ⟨target, htarget, fun i hi => ?_⟩
  obtain ⟨p, hp, hreads⟩ := stateBeforeIndex_reads htarget h hn db hi
  refine ⟨p, hp, fun bs b db' hbs hdiff hs q hq => ?_⟩
  have hupper := h.upper
  have hlower := h.lower
  have hlen : bs.length = n - (m + 1) := by
    rw [← hbs.length_eq, length_take, Nat.min_eq_left (by omega)]
  have hn' : m + (bs ++ [b]).length = n := by
    rw [length_append, length_singleton]
    omega
  have hcongr : p.2.query p.1 q = (overlayOf db m (bs ++ [b])).query q := by
    refine hreads.query_contract ?_ rfl rfl hq (.inl hn')
    rw [overlayOf, merged_concat, merged_blocksOf hbs, hdiff]
    rfl
  rw [hcongr, ← Overlay.query_iff hb hs q, hn']

theorem stateDiff_take_length (h : Above A t s r m n) : (mergeAll ((target.value.transactionStateDiffs.take
    target.value.transactions.length).map (value s.maps))) = target.value.stateDiff.value s.maps := by
  have hsound := (h.good target (mem_of_getElem? htarget)).sound
  rw [← hsound.stateDiffs, take_length, hsound.merged]

theorem indexEnds_agree (h : Above A t s r m n) (hn : contains s.nodes r n = true) (db : DB) :
    IndexEndsAgree s r db m n := by
  obtain ⟨p₀, hp₀, hreads₀⟩ := stateBeforeIndex_reads htarget h hn db (Nat.zero_le _)
  obtain ⟨p₁, hp₁, hreads₁⟩ := stateBeforeIndex_reads htarget h hn db le_rfl
  obtain ⟨p, hp, hreads, -⟩ := stateAt_reads h hn db
  have hlower := h.lower
  rw [take_zero, map_nil, mergeAll, foldl_nil, merge_empty] at hreads₀
  -- the last of the blocks up to `n` is the target
  rw [show n - m =
    n - (m + 1) + 1 by omega, take_add_one, htarget, diffOf, map_append, Option.toList_some, map_singleton,
    mergeAll_concat, ← stateDiff_take_length htarget h] at hreads
  refine ⟨target, p₀, p₁, p, htarget, hp₀, hp₁, hp, fun q hq => hreads₁.query_eq hreads hq (.inl rfl),
    fun q hq => ⟨?_, ?_⟩⟩
  · rintro rfl
    rw [Nat.sub_self, take_zero] at hreads₀
    rw [hreads₀.query_contract (o := ⟨.empty, fun _ => none, db, m, m + 1⟩) rfl rfl rfl
      (Query.isContract_of_value hq)
      (.inr hq)]
    cases q with
    | contractClassHash | contractNonce | contractStorage => rfl
    | contractStorageLastUpdatedBlock | classDefinition | compiledClassHash | compiledClassHashV2 => cases hq
  · intro p' hp'
    have hn' : contains s.nodes r (n - 1) = true := by
      by_contra hne
      rw [preConfirmedStateAt, if_pos (by rw [Bool.eq_false_iff.mpr hne]; rfl)] at hp'
      cases hp'
    obtain ⟨p'', hp'', hreads', -⟩ := stateAt_reads (h.lower_of_contains hn') hn' db
    obtain rfl : p'' = p' := ok.inj (hp''.symm.trans hp')
    rw [show n - 1 - m = n - (m + 1) by omega] at hreads'
    exact hreads₀.query_eq hreads' (Query.isContract_of_value hq) (.inr hq)

omit htarget

/-- **The state of pre-confirmed blocks.** For every head state, every chain of pre-confirmed blocks above it
and every block of the chain, a query returns what the state database returns after the blocks are stored,
exactly if it fits; so does a query about a contract before any transaction of the block, and at the ends of
the block the states are those of the blocks. -/
theorem preConfirmedState_agrees_iff (c : Crypto) (A : Adapter W Z S H T Y) (calls : List (Call W Z S H))
    {stored : List Block} {db : DB} {m n : ℕ} (hstored : storeAll c 0 stored DB.empty = .ok db)
    (hhead : stored.length = m + 1)
    (hn : contains (new.run A calls).nodes ((new.run A calls).snapshotForBlock (m + 1)) n = true) :
    StateAtAgrees c (new.run A calls) ((new.run A calls).snapshotForBlock (m + 1)) db m n ∧
      StateBeforeIndexAgrees c (new.run A calls) ((new.run A calls).snapshotForBlock (m + 1)) db m n ∧
      IndexEndsAgree (new.run A calls) ((new.run A calls).snapshotForBlock (m + 1)) db m n := by
  have habove := (inv_new.run calls).1.above hn
  have hlower := habove.lower
  have hupper := habove.upper
  obtain ⟨target, htarget⟩ : ∃ target, (oldestFirst (new.run A calls).nodes
      ((new.run A calls).snapshotForBlock (m + 1)))[n - (m + 1)]? = some target :=
        ⟨_, getElem?_eq_getElem (by omega)⟩
  have hbelow : Below (m + 1) db := by
    have := storeAll_below below_empty hstored
    rwa [Nat.zero_add, hhead] at this
  exact ⟨stateAt_agrees c habove hn hbelow, stateBeforeIndex_agrees htarget c habove hn hbelow,
    indexEnds_agree htarget habove hn db⟩

/-! ### A chain of two blocks -/

/-- Block 1 writes a slot of the contract that the first block deployed, and declares a class. -/
def slotBlock : Block where
  header := ⟨1, some ver0_14_1⟩
  update := ⟨1, 1,
    { StateDiff.empty with
      storageDiffs := AList.singleton 5 (AList.singleton 3 6)
      declaredV1Classes := AList.singleton 12 13 }⟩
  declaredClasses := AList.singleton 12 (.sierra [2] 13)

def migratingBlock : Block where
  header := ⟨2, some ver0_14_1⟩
  update := ⟨1, 1, { StateDiff.empty with migratedClasses := AList.singleton 8 7 }⟩
  declaredClasses := ∅

/-- The feeder gateway tells a block of one transaction. -/
def tellBlock (blockIdentifier : String) (b : Block) : Call Unit Unit StateDiff Unit :=
  .applyUpdate (.block ⟨blockIdentifier, [()], [⟨[], ()⟩], [b.diff], ()⟩) b.header.number 0 1
    b.declaredClasses

def tellTwo :
    List (Call Unit Unit StateDiff Unit) := [tellBlock "0x1" slotBlock, tellBlock "0x2" migratingBlock]

theorem NodeGood.blockOf_told {told : ℕ → Option (PreConfirmedBlock Unit Unit StateDiff Unit)}
    {n : Node Unit Unit Unit} (h : NodeGood plainAdapter maps told n) {blockIdentifier : String}
    {b : Block} (htold : told n.number = some ⟨blockIdentifier, [()], [⟨[], ()⟩], [b.diff], ()⟩)
    (hnumber : b.header.number = n.number) (hclasses : n.value.newClasses = b.declaredClasses) :
    BlockOf maps n b := by
  obtain ⟨source, hsource, hgood⟩ := h.value
  obtain rfl := Option.some.inj (htold.symm.trans hsource)
  obtain ⟨ps, hps, hvalue⟩ := hgood.made
  obtain rfl := ok.inj hps
  have hdiff : n.value.stateDiff.value maps = mergeAll [b.diff.value] :=
    congrArg PreConfirmedValue.stateDiff hvalue
  refine ⟨hnumber, ?_, fun hash => by rw [hclasses]⟩
  rw [hdiff, mergeAll_cons]
  exact (merge_empty _).symm

theorem tellTwo_blocks : Forall₂ (BlockOf (new.run plainAdapter tellTwo).maps)
    ((oldestFirst (new.run plainAdapter tellTwo).nodes
      ((new.run plainAdapter tellTwo).snapshotForBlock 1)).take 2)
    [slotBlock, migratingBlock] := by
  have hn : contains (new.run plainAdapter tellTwo).nodes
      ((new.run plainAdapter tellTwo).snapshotForBlock 1) 2 = true := by decide +kernel
  have hgood := ((inv_new.run tellTwo).1.above (m := 0) hn).good
  exact .cons ((hgood _ (mem_of_getElem? (rfl : _[0]? = some _))).blockOf_told (b := slotBlock) rfl rfl rfl)
    (.cons ((hgood _ (mem_of_getElem? (rfl : _[1]? = some _))).blockOf_told (b := migratingBlock) rfl rfl rfl)
      .nil)

/-- The chain of the two blocks over the first one: the values of the contracts at block 2 are those that are
stored with the blocks, and after the transaction of block 2 they are those at block 2. -/
theorem preConfirmedState_agrees_two :
    ∃ db db' p p₁, storeAll constCrypto 0 [firstBlock] DB.empty = .ok db ∧
      storeAll constCrypto 1 [slotBlock, migratingBlock] db = .ok db' ∧
      preConfirmedStateAt (new.run plainAdapter tellTwo).maps (new.run plainAdapter tellTwo).nodes
        ((new.run plainAdapter tellTwo).snapshotForBlock 1) 2 db = .ok p ∧
      preConfirmedStateBeforeIndexAt (new.run plainAdapter tellTwo).maps (new.run plainAdapter tellTwo).nodes
        ((new.run plainAdapter tellTwo).snapshotForBlock 1) 2 1 db = .ok p₁ ∧
      query db' 2 (.contractStorage 5 3) = .ok (.felt 6) ∧
      ∀ addr key, isSystemContract addr = false →
        p.2.query p.1 (.contractStorage addr key) = query db' 2 (.contractStorage addr key) ∧
        p₁.2.query p₁.1 (.contractStorage addr key) = p.2.query p.1 (.contractStorage addr key) := by
  have hrun : (do
      let db ← storeAll constCrypto 0 [firstBlock] DB.empty
      let db' ← storeAll constCrypto 1 [slotBlock, migratingBlock] db
      return query db' 2 (.contractStorage 5 3)) = .ok (.ok (.felt 6)) := by decide +kernel
  have hn : contains (new.run plainAdapter tellTwo).nodes
      ((new.run plainAdapter tellTwo).snapshotForBlock 1) 2 = true := by decide +kernel
  obtain ⟨db, hstored, hrun⟩ := bind_eq_ok.mp hrun
  obtain ⟨db', hstored', hread⟩ := bind_eq_ok.mp hrun
  obtain ⟨⟨p, hp, hagrees⟩, -, target, p₀, p₁, p', htarget, -, hp₁, hp', hend, -⟩ :=
    preConfirmedState_agrees_iff constCrypto plainAdapter tellTwo (m := 0) hstored rfl hn
  obtain rfl : p = p' := ok.inj (hp.symm.trans hp')
  obtain rfl := Option.some.inj htarget
  refine ⟨db, db', p, p₁, hstored, hstored', hp, hp₁, ok.inj hread, fun addr key haddr => ⟨?_, hend _ rfl⟩⟩
  refine (hagrees _ db' tellTwo_blocks hstored' _).mpr fun hsys => ?_
  rw [haddr] at hsys
  cases hsys

/-- The three queries that go wrong: the block of the slot, the hash of version 2 of the class declared in the
chain, and the compiled class of the class migrated in it. -/
def wrongQueries : List Query :=
  [.contractStorageLastUpdatedBlock 5 3, .compiledClassHashV2 12, .compiledClassHash 8]

/-- At block 2 of the chain the slot is said to be updated in block 2, the class that block 1 declared has no
hash of version 2, and the class that block 2 migrated still has the hash of version 1; after the blocks are
stored, the state database says block 1, 13 and 7. -/
theorem preConfirmedState_disagrees :
    ∃ db db' p, storeAll constCrypto 0 [firstBlock] DB.empty = .ok db ∧
      storeAll constCrypto 1 [slotBlock, migratingBlock] db = .ok db' ∧
      preConfirmedStateAt (new.run plainAdapter tellTwo).maps (new.run plainAdapter tellTwo).nodes
        ((new.run plainAdapter tellTwo).snapshotForBlock 1) 2 db = .ok p ∧
      wrongQueries.map (p.2.query p.1) = [.ok (.block 2), .error .keyNotFound, .ok (.felt 6)] ∧
      wrongQueries.map (query db' 2) = [.ok (.block 1), .ok (.felt 13), .ok (.felt 7)] := by
  have hrun : (do
      let db ← (storeAll constCrypto 0 [firstBlock] DB.empty).toOption
      let db' ← (storeAll constCrypto 1 [slotBlock, migratingBlock] db).toOption
      let p ← (preConfirmedStateAt (new.run plainAdapter tellTwo).maps (new.run plainAdapter tellTwo).nodes
        ((new.run plainAdapter tellTwo).snapshotForBlock 1) 2 db).toOption
      return (wrongQueries.map (p.2.query p.1), wrongQueries.map (query db' 2))) =
      some ([.ok (.block 2), .error .keyNotFound, .ok (.felt 6)],
        [.ok (.block 1), .ok (.felt 13), .ok (.felt 7)]) := by
    decide +kernel
  obtain ⟨db, hdb, hrun⟩ := Option.bind_eq_some_iff.mp hrun
  obtain ⟨db', hdb', hrun⟩ := Option.bind_eq_some_iff.mp hrun
  obtain ⟨p, hp, hrun⟩ := Option.bind_eq_some_iff.mp hrun
  have hok : ∀ {ε α : Type} {x : Except ε α} {a : α}, x.toOption = some a → x = .ok a := by
    intro ε α x a hx
    cases x with
    | error e => cases hx
    | ok b => exact congrArg ok (Option.some.inj hx)
  obtain ⟨hover, hstate⟩ := Prod.ext_iff.mp (Option.some.inj hrun)
  exact ⟨db, db', p, hok hdb, hok hdb', hok hp, hover, hstate⟩

end Juno.Preconfirmed
