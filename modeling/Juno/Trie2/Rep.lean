import Juno.Lib.Except
import Juno.Trie2.Trie
import Juno.Core.TrieSpec

/-!
# What a trie in memory represents

A node in memory, over the rows of a store, represents a Patricia tree: a hash node
stands for a subtree whose rows are all in the store, and an inner node carries
flags that must not lie, for a cached hash is used without looking below and a clean
node is not written again.

The rows that count are the *live* ones: `nodeTracer` has a set of paths to delete at
the next commit, and a row at such a path is as good as gone.

`resolveNode_stored`: a stored subtree is read back as a node that represents it.
`get_rep`: **`Trie.get` returns what the tree stores**, and what it resolves on the
way changes nothing. Both hold for every tree and every state of resolution.

The parameter `nz` says whether stored hashes are known not to be zero: a resolved
node with hash zero has no cached hash, which `Commit` takes for a value node.
-/

namespace Juno.Trie2

open Lib Lib.Patricia List Tracer BitTree

/-- The bytes of the row of a node. -/
def blobOf (H : HashFn) : BitTree Felt → Blob
  | .leaf v => .felt v
  | .binary l r => .binary (.felt (Patricia.hash (hasher H) l)) (.felt (Patricia.hash (hasher H) r))
  | .edge p c => .edge (.felt (Patricia.hash (hasher H) c)) p

def rowAt (rd : NodeReader) (height : ℕ) (q : Path) : Option Blob :=
  match rd with
  | none => none
  | some S => S ⟨q.length == height, q⟩

/-! ### Live rows -/

variable {R : Path → Option Blob}

/-- The rows `R` less those that are to be deleted. -/
def Tracer.live (tr : Tracer) (R : Path → Option Blob) (q : Path) : Option Blob :=
  if q ∈ tr.deletes then none else R q

/-- The recorded insertions are at paths without a row. -/
def Tracer.Ok (tr : Tracer) (R : Path → Option Blob) : Prop := ∀ q ∈ tr.inserts, R q = none

variable {tr : Tracer} {q : Path} {b : Blob}

theorem Tracer.live_eq_some (h : tr.live R q = some b) : R q = some b := by
  unfold live at h
  split_ifs at h
  exact h

variable (R)

theorem Tracer.ok_newTracer : newTracer.Ok R := by simp [Tracer.Ok, newTracer]

@[simp] theorem Tracer.live_newTracer : newTracer.live R = R := by
  funext q
  simp [live, newTracer]

variable {R}

theorem Tracer.Ok.live_onDelete (h : tr.Ok R) (k : Path) :
    (tr.onDelete k).live R = Function.update (tr.live R) k none := by
  funext q
  unfold onDelete live
  by_cases hq : q = k
  · subst hq
    by_cases hk : q ∈ tr.inserts
    · simp [hk, h q hk]
    · simp [hk]
  · split_ifs <;> simp_all

theorem Tracer.Ok.onDelete (h : tr.Ok R) (k : Path) : (tr.onDelete k).Ok R := by
  intro q hq
  unfold Tracer.onDelete at hq
  split_ifs at hq with hk
  · exact h q (Finset.mem_of_mem_erase hq)
  · exact h q hq

theorem Tracer.live_onInsert_ne (tr : Tracer) (R : Path → Option Blob) {k : Path} (hq : q ≠ k) :
    (tr.onInsert k).live R q = tr.live R q := by
  unfold onInsert live
  split_ifs <;> simp_all

theorem Tracer.Ok.onInsert (h : tr.Ok R) {k : Path} (hk : tr.live R k = none) : (tr.onInsert k).Ok R := by
  intro q hq
  unfold Tracer.onInsert at hq
  split_ifs at hq with hd
  · exact h q hq
  · rcases Finset.mem_insert.mp hq with rfl | hq
    · simpa [live, hd] using hk
    · exact h q hq

/-! ### Nodes and trees -/

def Node.Cached (n : Node) : Prop := n.isInner = true → n.cache.1.isSome = true

def Node.Resolved : Node → Prop
  | .hash _ => False
  | _ => True

def isLeafTree : BitTree Felt → Bool
  | .leaf _ => true
  | _ => false

section

variable (H : HashFn) (nz : Prop) (E : Path → Option Blob)

/-- The rows below a path are those of the tree. -/
structure Stored (pre : Path) (t : BitTree Felt) : Prop where
  row : ∀ q, E (pre ++ q) = (nodeAt t q).map (blobOf H)
  ne_zero : nz → ∀ q u, nodeAt t q = some u → Patricia.hash (hasher H) u ≠ 0

/-- The flags of an inner node tell the truth. -/
structure FlagsOk (pre : Path) (t : BitTree Felt) (flags : NodeFlag) (childrenCached : Prop) : Prop where
  hash_eq : ∀ x, flags.hash = some x → x = Patricia.hash (hasher H) t
  /-- A modified node is hashed only after its children. -/
  cached : nz → flags.hash.isSome = true → flags.dirty = true → childrenCached
  stored : flags.dirty = false → Stored H nz E pre t

/-- **A node represents a tree** at a path. -/
inductive Rep : Path → Node → BitTree Felt → Prop
  | value (pre : Path) (v : Felt) : Rep pre (.value v) (.leaf v)
  /-- A hash node stands for a stored subtree. -/
  | hash {pre : Path} {t : BitTree Felt} (hl : isLeafTree t = false) (hs : Stored H nz E pre t) :
      Rep pre (.hash (Patricia.hash (hasher H) t)) t
  | edge {pre p : Path} {c : Node} {t : BitTree Felt} {flags : NodeFlag} (hc : Rep (pre ++ p) c t)
      (hf : FlagsOk H nz E pre (.edge p t) flags c.Cached) : Rep pre (.edge p c flags) (.edge p t)
  | binary {pre : Path} {l r : Node} {t u : BitTree Felt} {flags : NodeFlag} (hl : Rep (pre ++ [false]) l t)
      (hr : Rep (pre ++ [true]) r u) (hf : FlagsOk H nz E pre (.binary t u) flags (l.Cached ∧ r.Cached)) :
      Rep pre (.binary l r flags) (.binary t u)

end

variable {H : HashFn} {nz : Prop} {E E' : Path → Option Blob} {pre : Path} {t : BitTree Felt}

theorem Stored.congr (h : Stored H nz E pre t) (hE : ∀ q, pre <+: q → E' q = E q) : Stored H nz E' pre t :=
  ⟨fun q => (hE _ (prefix_append pre q)).trans (h.row q), h.ne_zero⟩

theorem Stored.side {l r : BitTree Felt} (h : Stored H nz E pre (.binary l r)) (b : Bool) :
    Stored H nz E (pre ++ [b]) (side b l r) := by
  constructor
  · intro q
    simpa using h.row (b :: q)
  · intro hz q u hu
    exact h.ne_zero hz (b :: q) u (by simpa using hu)

theorem Stored.edge {p : Path} {c : BitTree Felt} (hp : p ≠ []) (h : Stored H nz E pre (.edge p c)) :
    Stored H nz E (pre ++ p) c := by
  constructor
  · intro q
    rw [append_assoc, h.row, nodeAt_edge_append hp]
  · intro hz q u hu
    exact h.ne_zero hz (p ++ q) u (by rwa [nodeAt_edge_append hp])

variable {flags : NodeFlag} {cc : Prop}

theorem FlagsOk.congr (h : FlagsOk H nz E pre t flags cc) (hE : ∀ q, pre <+: q → E' q = E q) :
    FlagsOk H nz E' pre t flags cc :=
  ⟨h.hash_eq, h.cached, fun hd => (h.stored hd).congr hE⟩

theorem FlagsOk.imp {cc' : Prop} (h : FlagsOk H nz E pre t flags cc) (hc : nz → cc → cc') :
    FlagsOk H nz E pre t flags cc' :=
  ⟨h.hash_eq, fun hz hs hd => hc hz (h.cached hz hs hd), h.stored⟩

theorem flagsOk_new (t : BitTree Felt) (cc : Prop) : FlagsOk H nz E pre t newNodeFlag cc :=
  ⟨by simp [newNodeFlag], by simp [newNodeFlag], by simp [newNodeFlag]⟩

variable {n : Node}

/-- **Only the rows below its path matter** to what a node represents. -/
theorem Rep.congr (h : Rep H nz E pre n t) (hE : ∀ q, pre <+: q → E' q = E q) : Rep H nz E' pre n t := by
  induction h with
  | value pre v => exact .value pre v
  | hash hl hs => exact .hash hl (hs.congr hE)
  | edge hc hf ih => exact .edge (ih fun q hq => hE q ((prefix_append _ _).trans hq)) (hf.congr hE)
  | binary hl hr hf ihl ihr =>
    refine .binary (ihl fun q hq => ?_) (ihr fun q hq => ?_) (hf.congr hE)
    · exact hE q ((prefix_append _ _).trans hq)
    · exact hE q ((prefix_append _ _).trans hq)

theorem Rep.ne_nil (h : Rep H nz E pre n t) : n ≠ .nil := by
  cases h <;> simp

theorem rep_setChild {b : Bool} {l r : Node} {u : BitTree Felt}
    (hother : Rep H nz E (pre ++ [!b]) (child (!b) l r) u) (hn : Rep H nz E (pre ++ [b]) n t)
    (hf : FlagsOk H nz E pre (fork b t u) flags (n.Cached ∧ (child (!b) l r).Cached)) :
    Rep H nz E pre (setChild b n l r flags) (fork b t u) := by
  cases b
  · exact .binary hn hother hf
  · exact .binary hother hn (hf.imp fun _ => And.symm)

variable {m : ℕ}

theorem isLeafTree_iff (h : Canonical t m) : isLeafTree t = true ↔ m = 0 := by
  cases t with
  | leaf v => simp [isLeafTree, h.1]
  | binary l r =>
    obtain ⟨k, rfl, -⟩ := h
    simp [isLeafTree]
  | edge p c =>
    obtain ⟨hp, -, k, rfl, -⟩ := h
    have := length_pos_iff.mpr hp
    simp only [isLeafTree, Bool.false_eq_true, false_iff]
    omega

/-! ### Resolving -/

variable {rd : NodeReader} {height : ℕ}

theorem rowAt_node (h : rowAt rd height q = some b) (x : Felt) :
    rd.node q x (q.length == height) = .ok b := by
  cases rd with
  | none => simp [rowAt] at h
  | some S => simp only [rowAt] at h; simp [NodeReader.node, h]

/-- A stored child is decoded as a value at full depth, and as a hash node above. -/
theorem decodeFelt_stored (hs : Stored H nz E pre t) (ht : Canonical t m) (hm : pre.length + m = height) :
    ∃ n, decodeFelt (Patricia.hash (hasher H) t) pre.length height = .ok n ∧ Rep H nz E pre n t ∧
      n.isInner = false ∧ (0 < m → n = .hash (Patricia.hash (hasher H) t)) := by
  by_cases h0 : m = 0
  · subst h0
    obtain ⟨v, -, rfl⟩ := ht.eq_leaf
    refine ⟨.value v, ?_, .value pre v, rfl, by omega⟩
    simp [decodeFelt, Patricia.hash, show pre.length = height by omega]
  · have hl : isLeafTree t = false := by
      rw [← Bool.not_eq_true, isLeafTree_iff ht]
      exact h0
    refine ⟨_, ?_, .hash hl hs, rfl, fun _ => rfl⟩
    simp [decodeFelt, show ¬ pre.length > height by omega, show ¬ pre.length = height by omega]

theorem flagsOk_decoded (hs : Stored H nz E pre t) {x : Felt} (hx : x ≠ 0 → x = Patricia.hash (hasher H) t)
    (cc : Prop) : FlagsOk H nz E pre t (decodedFlags x) cc := by
  refine ⟨fun y hy => ?_, fun _ _ hd => ?_, fun _ => hs⟩
  · simp only [decodedFlags] at hy
    split_ifs at hy with h0
    cases hy
    exact hx h0
  · simp [decodedFlags] at hd

/-- **A stored subtree is read back**: the node at its path represents it, and has its hash cached if
one was given. -/
theorem resolveNode_stored (hE : ∀ q b, E q = some b → rowAt rd height q = some b)
    (hs : Stored H nz E pre t) (ht : Canonical t m) (hm : pre.length + m = height)
    (hn : Option Felt) (hx : ∀ x, hn = some x → x = Patricia.hash (hasher H) t) :
    ∃ n, resolveNode rd height hn pre = .ok n ∧ Rep H nz E pre n t ∧ n.Resolved ∧
      (n.isInner = true → n.cache.2 = false) ∧ (hn.getD 0 ≠ 0 → n.Cached) := by
  have hrow : rowAt rd height pre = some (blobOf H t) := hE _ _ (by simpa using hs.row [])
  have hx0 : hn.getD 0 ≠ 0 → hn.getD 0 = Patricia.hash (hasher H) t := by
    cases hn with
    | none => simp
    | some x => exact fun _ => hx x rfl
  have hcached : ∀ n : Node, hn.getD 0 ≠ 0 → n.cache.1 = (decodedFlags (hn.getD 0)).hash → n.Cached := by
    intro n h0 hc _
    simp [hc, decodedFlags, h0]
  simp only [resolveNode, rowAt_node hrow, ok_bind]
  cases t with
  | leaf v =>
    refine ⟨.value v, ?_, .value pre v, trivial,
      by simp [Node.isInner], fun _ => by simp [Node.Cached, Node.isInner]⟩
    simp [blobOf, decodeNode, decodeFelt, show pre.length = height by have := ht.1; omega]
  | binary l r =>
    obtain ⟨k, rfl, hl, hr⟩ := ht
    obtain ⟨nl, hnl, hrl, -, -⟩ := decodeFelt_stored (hs.side false) hl
      (show (pre ++ [false]).length + k = height by simp; omega)
    obtain ⟨nr, hnr, hrr, -, -⟩ := decodeFelt_stored (hs.side true) hr
      (show (pre ++ [true]).length + k = height by simp; omega)
    refine ⟨.binary nl nr (decodedFlags (hn.getD 0)), ?_, .binary hrl hrr (flagsOk_decoded hs hx0 _), trivial,
      fun _ => rfl, fun h0 => hcached _ h0 rfl⟩
    simp only [length_append, length_singleton, side_false, side_true] at hnl hnr
    simp [blobOf, decodeNode, hnl, hnr, show ¬ pre.length > height by omega]
  | edge p c =>
    obtain ⟨hp, -, k, rfl, hc⟩ := id ht
    have hlen := length_pos_iff.mpr hp
    obtain ⟨nc, hnc, hrc, -, hhash⟩ := decodeFelt_stored (hs.edge hp) hc
      (show (pre ++ p).length + k = height by simp; omega)
    refine ⟨.edge p nc (decodedFlags (hn.getD 0)), ?_, .edge hrc (flagsOk_decoded hs hx0 _), trivial,
      fun _ => rfl, fun h0 => hcached _ h0 rfl⟩
    have hd : decodeFelt (Patricia.hash (hasher H) c) pre.length height =
        .ok (.hash (Patricia.hash (hasher H) c)) := by
      simp [decodeFelt, show ¬ pre.length > height by omega, show ¬ pre.length = height by omega]
    by_cases hk : k = 0
    · subst hk
      obtain ⟨v, -, rfl⟩ := hc.eq_leaf
      cases hrc with
      | hash hl => simp [isLeafTree] at hl
      | value =>
        simp only [Patricia.hash] at hd
        simp [blobOf, decodeNode, Patricia.hash, hd, show ¬ pre.length > height by omega,
          show pre.length + p.length = height by omega]
    · obtain rfl := hhash (by omega)
      simp [blobOf, decodeNode, hd, show ¬ pre.length > height by omega,
        show ¬ pre.length + p.length = height by omega]

/-! ### Reading -/

/-- The fuel an operation needs at a node of a tree of height `m`. -/
def cost (n : Node) (m : ℕ) : ℕ :=
  match n with
  | .hash _ => 2 * m + 2
  | _ => 2 * m + 1

theorem cost_le (n : Node) (m : ℕ) : cost n m ≤ 2 * m + 2 := by
  cases n <;> simp [cost]

/-- `get` answers as the tree does and keeps what the node represents. -/
def GetOk (H : HashFn) (nz : Prop) (E : Path → Option Blob) (rd : NodeReader) (height : ℕ) (t : BitTree Felt)
    (pre : Path) (n : Node) (key : Path) (fuel : ℕ) : Prop :=
  ∃ val n' d, get rd height fuel n pre key = .ok (val, n', d) ∧ val.getD 0 = Patricia.get t key ∧
    Rep H nz E pre n' t ∧ (nz → n.Cached → n'.Cached) ∧ (n.Resolved → n'.Resolved ∧ n'.cache = n.cache)

/-- **Going down along a key**: what holds where a key ends, or leaves an edge, holds at a node if it holds at
the child that the key goes to, and at a hash node if it holds at the node it is resolved to. -/
structure Descent (H : HashFn) (nz : Prop) (E : Path → Option Blob) (rd : NodeReader) (height : ℕ)
    (P : BitTree Felt → Path → Node → Path → ℕ → Prop) : Prop where
  leaf : ∀ pre v fuel, P (.leaf v) pre (.value v) [] (fuel + 1)
  hash : ∀ {t pre c key fuel}, key ≠ [] →
    resolveNode rd height (some (Patricia.hash (hasher H) t)) pre = .ok c →
    c.Resolved → (nz → c.Cached) → P t pre c key fuel →
      P t pre (.hash (Patricia.hash (hasher H) t)) key (fuel + 1)
  binary : ∀ {l r pre nl nr flags b key fuel m}, Canonical l m → Canonical r m →
    pre.length + (m + 1) = height →
    Rep H nz E (pre ++ [false]) nl l → Rep H nz E (pre ++ [true]) nr r →
    FlagsOk H nz E pre (.binary l r) flags (nl.Cached ∧ nr.Cached) →
    P (BitTree.side b l r) (pre ++ [b]) (child b nl nr) key fuel →
    P (.binary l r) pre (.binary nl nr flags) (b :: key) (fuel + 1)
  edge : ∀ {p c pre nc flags key fuel m}, p ≠ [] → c.isEdge = false → Canonical c m → key.length = m →
    Rep H nz E (pre ++ p) nc c → FlagsOk H nz E pre (.edge p c) flags nc.Cached →
    P c (pre ++ p) nc key fuel → P (.edge p c) pre (.edge p nc flags) (p ++ key) (fuel + 1)
  off : ∀ {p b k key c pre nc flags fuel}, c.isEdge = false → Rep H nz E (pre ++ (p ++ b :: k)) nc c →
    FlagsOk H nz E pre (.edge (p ++ b :: k) c) flags nc.Cached →
    P (.edge (p ++ b :: k) c) pre (.edge (p ++ b :: k) nc flags) (p ++ (!b) :: key) (fuel + 2)

variable {P : BitTree Felt → Path → Node → Path → ℕ → Prop} {key : Path} {fuel : ℕ}

theorem Descent.of_resolved (h : Descent H nz E rd height P)
    (hE : ∀ q b, E q = some b → rowAt rd height q = some b) (hrep : Rep H nz E pre n t)
    (ht : Canonical t m) (hm : pre.length + m = height) (hk : key.length = m)
    (hP : ∀ n fuel, n.Resolved → Rep H nz E pre n t → 2 * m + 1 ≤ fuel → P t pre n key fuel)
    (hfuel : cost n m ≤ fuel) : P t pre n key fuel := by
  cases hrep with
  | hash hl hs =>
    obtain ⟨fuel, rfl⟩ := Nat.exists_eq_succ_of_ne_zero (show fuel ≠ 0 by simp [cost] at hfuel; omega)
    obtain ⟨c, hc, hrep, hres, -, hcached⟩ := resolveNode_stored hE hs ht hm
      (some (Patricia.hash (hasher H) t)) (by simp)
    refine h.hash ?_ hc hres (fun hz => hcached (hs.ne_zero hz [] t (nodeAt_nil t)))
      (hP c fuel hres hrep (by simp [cost] at hfuel; omega))
    rintro rfl
    rw [(isLeafTree_iff ht).mpr hk.symm] at hl
    cases hl
  | value => exact hP _ _ trivial (.value _ _) hfuel
  | edge hc hf => exact hP _ _ trivial (.edge hc hf) hfuel
  | binary hl hr hf => exact hP _ _ trivial (.binary hl hr hf) hfuel

theorem Descent.rep (h : Descent H nz E rd height P) (hE : ∀ q b, E q = some b → rowAt rd height q = some b)
    (hrep : Rep H nz E pre n t) (ht : Canonical t m) (hm : pre.length + m = height) (hk : key.length = m)
    (hfuel : cost n m ≤ fuel) : P t pre n key fuel := by
  induction t generalizing pre n m key fuel with
  | leaf v =>
    obtain ⟨rfl, -⟩ := ht
    obtain rfl := length_eq_zero_iff.mp hk
    cases hrep with
    | hash hl => simp [isLeafTree] at hl
    | value =>
      obtain ⟨fuel, rfl⟩ := Nat.exists_eq_succ_of_ne_zero (show fuel ≠ 0 by simp [cost] at hfuel; omega)
      exact h.leaf pre v fuel
  | binary l r ihl ihr =>
    refine h.of_resolved hE hrep ht hm hk (fun n fuel hres hrep hfuel => ?_) hfuel
    obtain ⟨k, rfl, hl, hr⟩ := ht
    obtain ⟨b, key, rfl⟩ := exists_cons_of_length_eq_add_one hk
    obtain ⟨fuel, rfl⟩ := Nat.exists_eq_succ_of_ne_zero (show fuel ≠ 0 by omega)
    cases hrep with
    | hash => exact hres.elim
    | binary hnl hnr hf =>
      simp only [length_cons, Nat.add_right_cancel_iff] at hk
      refine h.binary hl hr hm hnl hnr hf ?_
      cases b
      · exact ihl hnl hl (by simp; omega) hk ((cost_le _ _).trans (by omega))
      · exact ihr hnr hr (by simp; omega) hk ((cost_le _ _).trans (by omega))
  | edge p c ih =>
    refine h.of_resolved hE hrep ht hm hk (fun n fuel hres hrep hfuel => ?_) hfuel
    obtain ⟨hp, hce, k, rfl, hc⟩ := ht
    have hlen := length_pos_iff.mpr hp
    obtain ⟨fuel, rfl⟩ := Nat.exists_eq_add_of_le' (show 2 ≤ fuel by omega)
    cases hrep with
    | hash => exact hres.elim
    | edge hnc hf =>
      rcases edge_key_cases (p := p) (k := key) (by omega) with ⟨key, rfl⟩ | ⟨q, b, p', k', rfl, rfl⟩
      · have hk' : key.length = k := by simpa using hk
        refine h.edge hp hce hc hk' hnc hf (ih hnc hc (by simp; omega) hk' ((cost_le _ _).trans ?_))
        omega
      · exact h.off hce hnc hf

theorem get_descent : Descent H nz E rd height (GetOk H nz E rd height) where
  leaf pre v fuel := ⟨some v, .value v, false, rfl, rfl, .value _ _, fun _ h => h, fun _ => ⟨trivial, rfl⟩⟩
  hash := by
    rintro t pre c key fuel - hc - hcached ⟨val, n', d, hget, hval, hrep', hc', -⟩
    refine ⟨val, n', true, ?_, hval, hrep', fun hz _ => hc' hz (hcached hz), False.elim⟩
    simp [get, hc, hget]
  binary := by
    rintro l r pre nl nr flags b key fuel m - - - hnl hnr hf ⟨val, n', d, hget, hval, hrep', hc', -⟩
    refine ⟨val, if d then setChild b n' nl nr flags else .binary nl nr flags, d, ?_,
      by simpa using hval, ?_, ?_, ?_⟩
    · simp [get, bit, hget]
    · split_ifs
      · have hf' : FlagsOk H nz E pre (binary l r) flags (n'.Cached ∧ (child (!b) nl nr).Cached) := by
          refine hf.imp fun hz hc => ⟨hc' hz ?_, ?_⟩ <;> cases b
          exacts [hc.1, hc.2, hc.2, hc.1]
        rw [← fork_side b l r] at hf' ⊢
        exact rep_setChild (by cases b <;> assumption) hrep' hf'
      · exact .binary hnl hnr hf
    · intro _ hc
      split_ifs
      · cases b <;> exact hc
      · exact hc
    · intro _
      split_ifs
      · cases b <;> exact ⟨trivial, rfl⟩
      · exact ⟨trivial, rfl⟩
  edge := by
    rintro p c pre nc flags key fuel m - - - - hnc hf ⟨val, n', d, hget, hval, hrep', hc', -⟩
    refine ⟨val, if d then .edge p n' flags else .edge p nc flags, d, ?_, ?_, ?_, ?_, ?_⟩
    · simp [get, equalMSBs_append, hget]
    · rw [hval, get_edge_append]
    · split_ifs
      · exact .edge hrep' (hf.imp hc')
      · exact .edge hnc hf
    · intro _ hc
      split_ifs <;> exact hc
    · intro _
      split_ifs <;> exact ⟨trivial, rfl⟩
  off := by
    intro p b k key c pre nc flags fuel _ hnc hf
    refine ⟨none, .edge (p ++ b :: k) nc flags, false, ?_, ?_, .edge hnc hf, fun _ h => h,
      fun _ => ⟨trivial, rfl⟩⟩
    · simp [get, equalMSBs_split]
    · rw [get_edge_off]
      · rfl
      · simp

/-- **`Trie.get` returns what the tree stores** at the key. -/
theorem get_rep (hE : ∀ q b, E q = some b → rowAt rd height q = some b) (hrep : Rep H nz E pre n t)
    (ht : Canonical t m) (hm : pre.length + m = height) (hk : key.length = m)
    (hfuel : cost n m ≤ fuel) : GetOk H nz E rd height t pre n key fuel :=
  get_descent.rep hE hrep ht hm hk hfuel

end Juno.Trie2
