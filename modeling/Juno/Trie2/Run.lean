import Juno.Trie2.Commit

/-!
# Runs of the node-based trie

What any sequence of calls on a `trie2.Trie` answers, and what `Commit` leaves in the
store. The specification of a call is on a map from keys to values: a write
changes it at its key, `Get` reads it and `Hash` is its commitment.

The main results are `calls_newEmpty_iff` and `commit_represents`.
-/

namespace Juno.Trie2

open Lib Lib.Patricia Tracer Trie Function

/-! ### Calls -/

def Trie.call (t : Trie) : TrieOp → Except TrieError (Option Felt) × Trie
  | .update key value => ((t.update key value).1.map fun _ => none, (t.update key value).2)
  | .delete key => ((t.delete key).1.map fun _ => none, (t.delete key).2)
  | .get key => ((t.get key).1.map some, (t.get key).2)
  | .hash => (t.hash.1.map some, t.hash.2)

def Trie.calls : Trie → List TrieOp → List (Except TrieError (Option Felt)) × Trie
  | t, [] => ([], t)
  | t, op :: ops => ((t.call op).1 :: ((t.call op).2.calls ops).1, ((t.call op).2.calls ops).2)

/-! ### The invariant -/

/-- **The trie holds the tree**: what every call keeps, from the opening of the trie to its commit. -/
structure Models (nz : Prop) (height : ℕ) (H : HashFn) (rd : NodeReader) (owner : Felt) (t : Trie)
    (tree : Option (BitTree Felt)) : Prop where
  committed : t.committed = false
  height_eq : t.height = height
  hashFn_eq : t.hashFn = H
  reader_eq : t.nodeReader = rd
  owner_eq : t.owner = owner
  canonical : Canonical? tree height
  ok : t.nodeTracer.Ok (rowAt rd height)
  rep : Rep? H nz (t.nodeTracer.live (rowAt rd height)) [] t.root tree
  vacant : Vacant (t.nodeTracer.live (rowAt rd height)) [] tree
  resolved : t.root.Resolved
  clean : t.root.cache.2 = false → t.nodeTracer.deletes = ∅

variable {nz : Prop} {height : ℕ} {H : HashFn} {rd : NodeReader} {owner : Felt} {t : Trie}
  {tree : Option (BitTree Felt)}

open Trie

variable {tree' : Option (BitTree Felt)} {u : BitTree Felt}

section

variable (h : Models nz height H rd owner t tree)
include h

theorem Models.get_ok (key : Felt) :
    ∃ t', t.get key = (.ok (get? tree (feltToPath height key)), t') ∧
      Models nz height H rd owner t' tree := by
  have hlen := length_feltToPath height key
  obtain ⟨hcm, rfl, rfl, rfl, rfl, hcan, hok, hrep, hv, hres, hclean⟩ := id h
  cases tree with
  | none =>
    have hroot : t.root = .nil := hrep
    refine ⟨t, ?_, h⟩
    simp [Trie.get, hcm, hroot, Trie.fuel, Trie2.get]
  | some u =>
    obtain ⟨val, n', d, hget, hval, hrep', -, hcache⟩ := get_rep (fun _ _ => live_eq_some)
      (show Rep _ _ _ [] _ _ from hrep) hcan (by simp) hlen
        (show cost t.root t.height ≤ t.fuel from cost_le _ _)
    refine ⟨if d then { t with root := n' } else t, ?_, ?_⟩
    · simp [Trie.get, hcm, hget, hval]
    · split_ifs
      · obtain ⟨hres', hcache⟩ := hcache hres
        exact ⟨hcm, rfl, rfl, rfl, rfl, hcan, hok, hrep', hv, hres', fun hc => hclean (hcache ▸ hc)⟩
      · exact h

theorem Models.of_written {tr' : Tracer} {n' : Node}
    (hw : Written H nz (rowAt rd height) t.nodeTracer tr' [] n' tree') (hcan : Canonical? tree' height)
    (hres : n'.Resolved) (hclean : n'.cache.2 = false → tr'.deletes = ∅) :
    Models nz height H rd owner { t with root := n', nodeTracer := tr' } tree' :=
  ⟨h.committed, h.height_eq, h.hashFn_eq, h.reader_eq, h.owner_eq, hcan, hw.ok, hw.rep,
    hw.vacant, hres, hclean⟩

theorem Models.of_wrote {r : Except TrieError (Node × Bool) × Tracer}
    (hw : Wrote H nz (rowAt rd height) t.nodeTracer u [] t.root tree' r) (hcan : Canonical? tree' height) :
    ∃ n' d tr', r = (.ok (n', d), tr') ∧
      Models nz height H rd owner { t with root := n', nodeTracer := tr' } tree' := by
  obtain ⟨n', d, tr', hr, hw, hd, hd'⟩ := hw
  refine ⟨n', d, tr', hr, ?_⟩
  cases d with
  | true => exact h.of_written hw hcan (hd' rfl).2 fun hc => by simp [(hd' rfl).1] at hc
  | false =>
    obtain ⟨rfl, -, hn⟩ := hd rfl
    obtain rfl := hn h.resolved
    exact h.of_written hw hcan h.resolved h.clean

theorem Models.delete_ok (key : Felt) :
    ∃ t', t.delete key = (.ok (), t') ∧
      Models nz height H rd owner t' (tree.bind (Patricia.delete · (feltToPath height key))) := by
  have hlen := length_feltToPath height key
  obtain ⟨hcm, rfl, rfl, rfl, rfl, hcan, hok, hrep, hv, hres, hclean⟩ := id h
  cases tree with
  | none =>
    have hroot : t.root = .nil := hrep
    refine ⟨{ t with root := .nil }, ?_, ?_⟩
    · simp [Trie.delete, hcm, hroot, Trie.fuel, Trie2.delete]
    · rw [← hroot]
      exact h
  | some u =>
    have hwrote := delete_rep (show Rep _ _ _ [] _ _ from hrep) hv hok hcan (by simp) hlen
      (show cost t.root t.height ≤ t.fuel from cost_le _ _)
    obtain ⟨n', d, tr', hdel, hm⟩ := h.of_wrote hwrote (delete_canonical hcan hlen)
    exact ⟨_, by simp [Trie.delete, hcm, hdel], hm⟩

end

variable {tr : Tracer}

theorem written_attach {R : Path → Option Blob} {pre key : Path} {v : Felt} (hok : tr.Ok R)
    (hv : Vacant (tr.live R) pre none) :
    Written H nz R tr (tr.mark key pre) pre (attach key (.value v))
      (some (BitTree.prepend key (.leaf v))) := by
  refine ⟨hok.mark
    fun _ => by simpa using hv [] rfl, fun q hq => live_mark ?_, rep_attach (.value _ _) rfl, ?_⟩
  · rintro - rfl
    exact hq (List.prefix_refl _)
  · intro q hq
    rw [live_mark]
    · exact hv q rfl
    · intro _ hqp
      obtain rfl : q = [] := by simpa using hqp
      simp at hq

theorem Models.update_ok (h : Models nz height H rd owner t tree) (key value : Felt) :
    ∃ t', t.update key value = (.ok (), t') ∧
      Models nz height H rd owner t' (Patricia.update tree (feltToPath height key) value) := by
  have hlen := length_feltToPath height key
  have hcm := h.committed
  by_cases h0 : value = 0
  · obtain ⟨t', ht', hm⟩ := h.delete_ok key
    exact ⟨t', by simp [Trie.update, hcm, h0, ht'], by simpa [Patricia.update, h0] using hm⟩
  · have hcan' := insert?_canonical h.canonical hlen h0
    rw [Patricia.update, if_neg h0]
    obtain ⟨-, rfl, rfl, rfl, rfl, hcan, hok, hrep, hv, hres, hclean⟩ := id h
    cases tree with
    | none =>
      have hroot : t.root = .nil := hrep
      refine ⟨_, ?_, h.of_written (written_attach (v := value) hok hv) hcan' ?_ ?_⟩
      · simp [Trie.update, hcm, h0, hroot, Trie.fuel, insert_nil]
      · unfold attach
        split_ifs <;> trivial
      · unfold attach
        split_ifs <;> simp [Node.cache, newNodeFlag]
    | some u =>
      have hwrote := insert_rep (v := value) (show Rep _ _ _ [] _ _ from hrep) hv hok hcan (by simp) hlen
        (show cost t.root t.height ≤ t.fuel from cost_le _ _)
      obtain ⟨n', d, tr', hins, hm⟩ := h.of_wrote hwrote hcan'
      exact ⟨_, by simp [Trie.update, hcm, h0, hins], hm⟩

/-- `Hash` computes the hash of the tree and caches it; at height 0 it panics, unless the tree is empty. -/
theorem Models.hash_ok (h : Models nz height H rd owner t tree) :
    ∃ t', t.hash = (if height = 0 ∧ tree ≠ none then .error .panic else .ok (hash? (hasher H) tree), t') ∧
      Models nz height H rd owner t' tree ∧ t'.nodeTracer = t.nodeTracer ∧ t'.root.Cached := by
  obtain ⟨hcm, rfl, rfl, rfl, rfl, hcan, hok, hrep, hv, hres, hclean⟩ := id h
  cases tree with
  | none =>
    have hroot : t.root = .nil := hrep
    refine ⟨t, ?_, h, rfl, ?_⟩
    · simp [Trie.hash, hroot, hash?]
    · simp [hroot, Node.Cached, Node.isInner]
  | some u =>
    obtain ⟨n', hn', hrep', hcached, hres', hcache⟩ := hash_rep hrep
    have h' : Models nz t.height t.hashFn t.nodeReader t.owner { t with root := n' } (some u) :=
      ⟨hcm, rfl, rfl, rfl, rfl, hcan, hok, hrep', hv, hres' hres, fun hc => hclean (hcache ▸ hc)⟩
    refine ⟨{ t with root := n' }, ?_, h', rfl, hcached⟩
    have hleaf := isLeafTree_iff hcan
    by_cases h0 : t.height = 0
    · obtain ⟨v, -, rfl⟩ := Canonical.eq_leaf (h0 ▸ hcan)
      simp only [Trie.hash, hrep.ne_nil, if_false, hn', h0]
      rfl
    · rw [collapsedOf_of_not_leaf (by rw [← Bool.not_eq_true, hleaf]; exact h0)] at hn'
      simp [Trie.hash, hrep.ne_nil, hn', h0, hash?]

/-! ### Runs -/

variable {m : Felt → Felt}

/-- **The trie holds the map.** -/
def Holds (nz : Prop) (height : ℕ) (H : HashFn) (rd : NodeReader) (owner : Felt) (t : Trie)
    (m : Felt → Felt) :
    Prop :=
  Models nz height H rd owner t (canon height (onPaths m))

def Panics (height : ℕ) (m : Felt → Felt) (op : TrieOp) : Prop :=
  op = .hash ∧ height = 0 ∧ ¬ EmptyMap height m

variable {k : Felt}

section

variable (hh : height ≤ 251)
include hh

theorem panics_hash : Panics height m .hash ↔ height = 0 ∧ canon height (onPaths m) ≠ none := by
  simp [Panics, canon_eq_none_iff_emptyMap hh]

section

variable (h : Holds nz height H rd owner t m)
include h

theorem Holds.hash_root (hp : ¬ Panics height m .hash) : t.hash.1 = .ok (mapRoot H height m) := by
  obtain ⟨t', ht', -⟩ := Models.hash_ok h
  rw [ht', if_neg (mt (panics_hash hh).mpr hp)]
  rfl

theorem Holds.hash_panic (hp : Panics height m .hash) : t.hash.1 = .error .panic := by
  obtain ⟨t', ht', -⟩ := Models.hash_ok h
  rw [ht', if_pos ((panics_hash hh).mp hp)]

theorem Holds.get (hk : k.val < 2 ^ height) : (t.get k).1 = .ok (m k) := by
  obtain ⟨t', ht', -⟩ := Models.get_ok h k
  rw [ht', get?_canon height _ _ (length_feltToPath height k), onPaths_feltToPath hh m hk]

theorem Holds.update (hk : k.val < 2 ^ height) (v : Felt) :
    ∃ t', t.update k v = (.ok (), t') ∧ Holds nz height H rd owner t' (update m k v) := by
  obtain ⟨t', ht', hm⟩ := Models.update_ok h k v
  rw [update_canon hh m hk] at hm
  exact ⟨t', ht', hm⟩

theorem Holds.hash (hp : ¬ Panics height m .hash) :
    ∃ t', t.hash = (.ok (mapRoot H height m), t') ∧ Holds nz height H rd owner t' m := by
  obtain ⟨t', ht', hm, -⟩ := Models.hash_ok h
  have hroot := h.hash_root hh hp
  rw [ht'] at hroot
  refine ⟨t', ht'.trans (Prod.ext hroot rfl), hm⟩

/-- **One call** answers as specified, unless it panics, and the trie then holds the new map. -/
theorem Holds.call {op : TrieOp} (hop : op.InRange height = true) :
    Holds nz height H rd owner (t.call op).2 (op.write m) ∧
      (¬ Panics height m op → (t.call op).1 = .ok (op.answer H height m)) ∧
      (Panics height m op → (t.call op).1 = .error .panic) := by
  cases op with
  | update k v =>
    have hk : k.val < 2 ^ height := by simpa [TrieOp.InRange] using hop
    obtain ⟨t', ht', hm⟩ := h.update hh hk v
    rw [Trie.call, ht']
    exact ⟨hm, fun _ => rfl, fun hp => by simp [Panics] at hp⟩
  | delete k =>
    have hk : k.val < 2 ^ height := by simpa [TrieOp.InRange] using hop
    obtain ⟨t', ht', hm⟩ := Models.delete_ok h k
    have hdel : (canon height (onPaths m)).bind (Patricia.delete · (feltToPath height k)) =
        canon height (onPaths (Function.update m k 0)) := by
      rw [← update_canon hh m hk, Patricia.update, if_pos rfl]
    rw [hdel] at hm
    rw [Trie.call, ht']
    exact ⟨hm, fun _ => rfl, fun hp => by simp [Panics] at hp⟩
  | get k =>
    have hk : k.val < 2 ^ height := by simpa [TrieOp.InRange] using hop
    obtain ⟨t', ht', hm⟩ := Models.get_ok h k
    rw [get?_canon height _ _ (length_feltToPath height k), onPaths_feltToPath hh m hk] at ht'
    rw [Trie.call, ht']
    exact ⟨hm, fun _ => rfl, fun hp => by simp [Panics] at hp⟩
  | hash =>
    obtain ⟨t', ht', hm, -⟩ := Models.hash_ok h
    rw [Trie.call, ht', panics_hash hh]
    refine ⟨hm, fun hp => ?_, fun hp => ?_⟩
    · rw [if_neg hp]
      rfl
    · rw [if_pos hp]
      rfl

end

end

def NoPanic (height : ℕ) : (Felt → Felt) → List TrieOp → Prop
  | _, [] => True
  | m, op :: ops => ¬ Panics height m op ∧ NoPanic height (op.write m) ops

variable {ops : List TrieOp}

/-- **Every sequence of calls** leaves the trie with the map the calls wrote. -/
theorem Holds.calls (hh : height ≤ 251) : ∀ {t : Trie} {m : Felt → Felt},
    Holds nz height H rd owner t m → (∀ op ∈ ops, op.InRange height = true) →
      Holds nz height H rd owner (t.calls ops).2 (ops.foldl TrieOp.write m) := by
  induction ops with
  | nil => exact fun h _ => h
  | cons op ops ih =>
    intro t m h hops
    exact ih (h.call hh (hops op (by simp))).1 fun op' hop' => hops op' (by simp [hop'])

/-- **The answers are the specified ones exactly when no call panics.** -/
theorem Holds.calls_answers (hh : height ≤ 251) : ∀ {t : Trie} {m : Felt → Felt},
    Holds nz height H rd owner t m → (∀ op ∈ ops, op.InRange height = true) →
      ((t.calls ops).1 = (answers H height m ops).map .ok ↔ NoPanic height m ops) := by
  induction ops with
  | nil => exact fun _ _ => by simp [Trie.calls, answers, NoPanic]
  | cons op ops ih =>
    intro t m h hops
    obtain ⟨hnext, hok, hpanic⟩ := h.call hh (hops op (by simp))
    have hrest := ih hnext fun op' hop' => hops op' (by simp [hop'])
    simp only [Trie.calls, answers, List.map_cons, List.cons.injEq, NoPanic, hrest]
    refine and_congr_left fun _ => ⟨fun hans hp => ?_, hok⟩
    rw [hpanic hp] at hans
    cases hans

/-! ### From the empty trie -/

theorem holds_newEmpty (hh : height ≤ 251) : Holds nz height H none 0 (newEmpty height H) fun _ => 0 := by
  have hnone : canon height (onPaths fun _ => 0) = none := (canon_eq_none_iff_emptyMap hh).mpr fun _ _ => rfl
  rw [Holds, hnone]
  exact ⟨rfl, rfl, rfl, rfl, rfl, trivial, ok_newTracer _, rfl, fun q _ => by simp [newEmpty, rowAt], trivial,
    fun _ => rfl⟩

/-- No call panics: the height is not zero, or `Hash` is only called on an empty map. -/
theorem noPanic_iff : ∀ {m : Felt → Felt}, NoPanic height m ops ↔
    (0 < height ∨ ∀ before after, ops = before ++ TrieOp.hash :: after →
      EmptyMap height (before.foldl TrieOp.write m)) := by
  induction ops with
  | nil => simp [NoPanic]
  | cons op ops ih =>
    intro m
    rw [NoPanic, ih, Panics]
    by_cases h0 : 0 < height
    · simp [h0, show height ≠ 0 by omega]
    · obtain rfl : height = 0 := by omega
      simp only [true_and, not_and, not_not, lt_self_iff_false, false_or]
      constructor
      · rintro ⟨hop, hops⟩ before after hsplit
        cases before with
        | nil =>
          obtain ⟨rfl, -⟩ : op = .hash ∧ ops = after := by simpa using hsplit
          exact hop rfl
        | cons a before =>
          obtain ⟨rfl, rfl⟩ : op = a ∧ ops = before ++ .hash :: after := by simpa using hsplit
          exact hops before after rfl
      · intro h
        refine ⟨?_, fun before after hsplit => ?_⟩
        · rintro rfl
          exact h [] ops rfl
        · exact h (op :: before) after (by rw [hsplit, List.cons_append])

/-- Two tries that hold the same map have the same root. -/
theorem Holds.hash_eq {m' : Felt → Felt} {t' : Trie} (hh : height ≤ 251)
    (h : Holds nz height H rd owner t m) (h' : Holds nz height H rd owner t' m')
    (hmm : ∀ k : Felt, k.val < 2 ^ height → m k = m' k) : t.hash.1 = t'.hash.1 := by
  have hcanon : canon height (onPaths m) = canon height (onPaths m') := by
    refine (canon_canonical height (onPaths m)).eq_canon fun p hp => ?_
    rw [get?_canon height _ p hp]
    exact hmm _ (pathFelt_lt hh hp)
  obtain ⟨u, hu, -⟩ := Models.hash_ok h
  obtain ⟨u', hu', -⟩ := Models.hash_ok h'
  rw [hu, hu', hcanon]

/-- **Every sequence of calls on an empty trie** answers as the map does, exactly when the height is not
zero or `Hash` is only called on an empty map; and the root after the calls depends on the map they wrote,
not on how they wrote it. -/
theorem calls_newEmpty_iff (height : ℕ) (hh : height ≤ 251) (H : HashFn) (ops : List TrieOp)
    (hops : ∀ op ∈ ops, op.InRange height = true) :
    (((Trie.newEmpty height H).calls ops).1 = (answers H height (fun _ => 0) ops).map .ok ↔
      (0 < height ∨ ∀ before after, ops = before ++ TrieOp.hash :: after →
        EmptyMap height (before.foldl TrieOp.write fun _ => 0))) ∧
    ∀ ops' : List TrieOp, (∀ op ∈ ops', op.InRange height = true) →
      (∀ k : Felt, k.val < 2 ^ height →
        ops.foldl TrieOp.write (fun _ => 0) k = ops'.foldl TrieOp.write (fun _ => 0) k) →
      ((Trie.newEmpty height H).calls ops).2.hash.1 = ((Trie.newEmpty height H).calls ops').2.hash.1 := by
  have hempty : Holds True height H none 0 (newEmpty height H) fun _ => 0 := holds_newEmpty hh
  refine ⟨?_, fun ops' hops' hmm => ?_⟩
  · rw [hempty.calls_answers hh hops, noPanic_iff]
  · exact (hempty.calls hh hops).hash_eq hh (hempty.calls hh hops') hmm

theorem calls_newEmpty_two :
    ((Trie.newEmpty 2 fun a b => a + 2 * b).calls [.update 1 5, .update 2 7, .hash, .delete 1, .get 2]).1 =
      (answers (fun a b => a + 2 * b) 2 (fun _ => 0) [.update 1 5, .update 2 7, .hash, .delete 1, .get 2]).map
        .ok :=
  (calls_newEmpty_iff 2 (by decide) _ _ (by decide)).1.mpr (.inl (by decide))

/-- At height 0 the root is a value node, and `Hash` panics on it. -/
theorem calls_newEmpty_zero :
    ((Trie.newEmpty 0 fun a b => a + 2 * b).calls [.update 0 1, .hash]).1 = [.ok none, .error .panic] ∧
      (answers (fun a b => a + 2 * b) 0 (fun _ => 0) [.update 0 1, .hash]).map Except.ok ≠
        ((Trie.newEmpty 0 fun a b => a + 2 * b).calls [.update 0 1, .hash]).1 := by
  decide +kernel

/-! ### Commit -/

variable {S : NodeStore} {ns : Path → Option TrieNode}

/-- **The store represents the map**: a row for each node of its tree, leaves included, and no other. -/
def Represents (height : ℕ) (H : HashFn) (S : NodeStore) (m : Felt → Felt) : Prop :=
  ∀ key : NodeKey, S key = if key.isLeaf = (key.path.length == height) then
    (nodeAt? (canon height (onPaths m)) key.path).map (blobOf H) else none

def storeOf (height : ℕ) (H : HashFn) (m : Felt → Felt) : NodeStore := fun key =>
  if key.isLeaf = (key.path.length == height)
    then (nodeAt? (canon height (onPaths m)) key.path).map (blobOf H) else none

theorem represents_storeOf (height : ℕ) (H : HashFn) (m : Felt → Felt) :
    Represents height H (storeOf height H m) m :=
  fun _ => rfl

/-- A store represents at most one map, up to keys out of range. -/
theorem Represents.eq_storeOf (h : Represents height H S m) : S = storeOf height H m :=
  funext h

/-- The store after a commit: the node set, if there is one, is written to it. -/
def NodeStore.commit (S : NodeStore) : Option NodeSet → NodeStore
  | none => S
  | some ns => S.apply ns.nodes

/-- No node of the tree of the map hashes to zero. -/
def NonzeroHashes (height : ℕ) (H : HashFn) (m : Felt → Felt) : Prop :=
  ∀ q u, nodeAt? (canon height (onPaths m)) q = some u → Patricia.hash (hasher H) u ≠ 0

/-- Under a constant hash function no node hashes to zero: a leaf is not zero, a branch is one, and an edge
one more than its length. -/
theorem nonzeroHashes_one (hh : height ≤ 251) (m : Felt → Felt) : NonzeroHashes height (fun _ _ => 1) m := by
  intro q u hu
  have hcan := canon_canonical height (onPaths m)
  generalize canon height (onPaths m) = t at hu hcan
  cases t with
  | none => simp at hu
  | some t =>
    obtain ⟨k, hk, hcu⟩ := nodeAt_canonical hcan hu
    cases u with
    | leaf v => exact hcu.2
    | binary l r => exact (by decide : (1 : Felt) ≠ 0)
    | edge p c =>
      obtain ⟨-, -, k', hk', -⟩ := hcu
      have hP : 252 < P := by decide
      have hlen : (Fin.ofNat P p.length).val = p.length := by rw [Fin.val_ofNat, Nat.mod_eq_of_lt (by omega)]
      have hone : ((1 : Felt) + Fin.ofNat P p.length).val = 1 + p.length := by
        rw [Fin.val_add, hlen, show (1 : Felt).val = 1 from rfl, Nat.mod_eq_of_lt (by omega)]
      refine Fin.ne_of_val_ne (hone.trans_ne ?_)
      exact Nat.add_comm 1 p.length ▸ Nat.succ_ne_zero p.length

theorem Represents.rowAt (h : Represents height H S m) (q : Path) :
    rowAt (some S) height q = (nodeAt? (canon height (onPaths m)) q).map (blobOf H) := by
  rw [Trie2.rowAt, h, if_pos rfl]

variable {comm : Felt}

/-- **Opening a trie** over a store that represents a map. -/
theorem new_holds (nz : Prop) (owner : Felt) (hh : height ≤ 251) (hS : Represents height H S m)
    (hcomm : comm = 0 → EmptyMap height m) (hnz : nz → NonzeroHashes height H m) :
    ∃ t, new owner comm height H S = .ok t ∧ Holds nz height H (some S) owner t m := by
  have hrow := hS.rowAt
  have hcan := canon_canonical height (onPaths m)
  have hempty := canon_eq_none_iff_emptyMap hh (m := m)
  unfold Holds
  unfold NonzeroHashes at hnz
  generalize canon height (onPaths m) = tree at *
  have hvac : Vacant (Trie2.rowAt (some S) height) [] tree := fun q hq => by simp [hrow, hq]
  cases tree with
  | none =>
    refine ⟨⟨height, owner, .nil, H, some S, false, newTracer⟩, ?_, ⟨rfl, rfl, rfl, rfl, rfl, trivial,
      ok_newTracer _, rfl, by simpa using hvac, trivial, fun _ => rfl⟩⟩
    have hroot : S ⟨0 == height, []⟩ = none := by simpa [Trie2.rowAt] using hrow []
    unfold new
    split_ifs
    · rfl
    · simp [resolveNode, NodeReader.node, hroot]
  | some u =>
    have hs : Stored H nz (Trie2.rowAt (some S) height) [] u :=
      ⟨by simpa using hrow, fun hz => by simpa using hnz hz⟩
    obtain ⟨n, hn, hrep, hres, hd, -⟩ := resolveNode_stored (fun _ _ => id) hs hcan (by simp) none (by simp)
    refine ⟨⟨height, owner, n, H, some S, false, newTracer⟩, ?_, ⟨rfl, rfl, rfl, rfl, rfl, hcan,
      ok_newTracer _, by simpa [Rep?] using hrep, by simpa using hvac, hres, fun _ => rfl⟩⟩
    unfold new
    rw [if_neg fun h0 => by simpa using hempty.mpr (hcomm h0)]
    simp [hn]

theorem Tracer.live_of_empty (h : tr.deletes = ∅) (R : Path → Option Blob) : tr.live R = R := by
  funext q
  simp [live, h]

/-- A store represents a map as soon as its rows at the paths are right, if the others are vacant. -/
theorem represents_of_rowAt
    (hrow : ∀ q, rowAt (some S) height q = (nodeAt? (canon height (onPaths m)) q).map (blobOf H))
    (hother : ∀ key : NodeKey, key.isLeaf ≠ (key.path.length == height) → S key = none) :
    Represents height H S m := by
  intro key
  split_ifs with hkey
  · rw [← hrow, rowAt, ← hkey]
  · exact hother key hkey

theorem rowAt_apply_deletedSet (hheight : t.height = height) (q : Path) (hns : ns q = t.deletedSet.nodes q) :
    rowAt (some (S.apply ns)) height q = t.nodeTracer.live (rowAt (some S) height) q := by
  simp only [rowAt, NodeStore.apply, hns, deletedSet, hheight, live]
  by_cases hq : q ∈ t.nodeTracer.deletes
  · simp [hq, TrieNode.isLeaf, TrieNode.blob]
  · simp [hq]

theorem rowAt_apply_rowOf {q : Path} {k : ℕ} (hu : Canonical u k) (hk : height = q.length + k)
    (hns : ns q = some (rowOf H u)) : rowAt (some (S.apply ns)) height q = some (blobOf H u) := by
  have hleaf : isLeafTree u = (q.length == height) := by
    rw [Bool.eq_iff_iff, isLeafTree_iff hu, beq_iff_eq]
    omega
  simp [rowAt, NodeStore.apply, hns, hleaf]

theorem apply_other {key : NodeKey} (h : ∀ n, ns key.path = some n → n.isLeaf = (key.path.length == height))
    (hkey : key.isLeaf ≠ (key.path.length == height)) : S.apply ns key = S key := by
  unfold NodeStore.apply
  cases hn : ns key.path with
  | none => rfl
  | some n => simp [h n hn, Ne.symm hkey]

/-- What `Commit` returns and leaves in the store, row by row. -/
theorem commit_rows (hz : nz) (h : Models nz height H (some S) owner t tree)
    (hpanic : ¬ (height = 0 ∧ tree ≠ none))
    (hdeleted : ∀ (key : NodeKey) n, t.deletedSet.nodes key.path = some n →
      n.isLeaf = (key.path.length == height)) :
    ∃ ns t', t.commit = (.ok (hash? (hasher H) tree, ns), t') ∧ (∀ n ∈ ns, n.owner = owner) ∧
      (∀ q, rowAt (some (S.commit ns)) height q = (nodeAt? tree q).map (blobOf H)) ∧
      (∀ key : NodeKey, key.isLeaf ≠ (key.path.length == height) → S.commit ns key = S key) ∧
      t'.hash.1 = .ok (hash? (hasher H) tree) := by
  cases tree with
  | none =>
    have hroot : t.root = .nil := h.rep
    have hlive : ∀ q, t.nodeTracer.live (rowAt (some S) height) q = none := fun q => h.vacant q rfl
    by_cases hd : t.nodeTracer.deletes = ∅
    · refine ⟨none, _,
        by simp only [commit, hroot, hd, if_true]; rfl, by simp, fun q => ?_, fun _ _ => rfl, rfl⟩
      rw [live_of_empty hd] at hlive
      exact hlive q
    · refine ⟨some t.deletedSet, _, by simp only [commit, hroot, hd, if_true, if_false]; rfl, ?_, fun q => ?_,
        fun key hkey => apply_other (hdeleted key) hkey, rfl⟩
      · simpa [deletedSet] using h.owner_eq
      · exact (rowAt_apply_deletedSet h.height_eq q rfl).trans (hlive q)
  | some u =>
    obtain ⟨t₁, hhash, h₁, htr, hcached⟩ := h.hash_ok
    rw [if_neg hpanic] at hhash
    have hleaf : isLeafTree u = false := by
      rw [← Bool.not_eq_true, isLeafTree_iff h.canonical]
      exact fun h0 => hpanic ⟨h0, by simp⟩
    obtain ⟨hx, hstored⟩ := Rep.cache_eq h₁.rep h₁.resolved hleaf hcached
    have hne : t.root ≠ .nil := Rep.ne_nil h.rep
    cases hd : t₁.root.cache.2 with
    | false =>
      have hcache : t₁.root.cache = (some (Patricia.hash (hasher H) u), false) := Prod.ext hx hd
      refine ⟨none, _,
        by simp only [commit, hne, if_false, hhash, hcache]; rfl, by simp, fun q => ?_, fun _ _ => rfl,
        rfl⟩
      have hrow := (hstored hd).row q
      rwa [live_of_empty (h₁.clean hd)] at hrow
    | true =>
      have hcache : t₁.root.cache = (some (Patricia.hash (hasher H) u), true) := Prod.ext hx hd
      obtain ⟨ns, hcol, how, hrows⟩ := collect_rep hz h₁.rep t₁.deletedSet h₁.canonical hcached
      rw [collapsedOf_of_not_leaf hleaf] at hcol
      have hsame : t₁.deletedSet.nodes = t.deletedSet.nodes := by
        simp [deletedSet, htr, h.height_eq, h₁.height_eq]
      refine ⟨some ns, _, by simp only [commit, hne, if_false, hhash, hcache, hcol]; rfl,
        by simpa [deletedSet, h₁.owner_eq] using how, fun q => ?_, fun key hkey => ?_, rfl⟩
      · rcases hrows q with ⟨hq, hE⟩ | ⟨s, v, rfl, hv, hq⟩
        · rw [NodeStore.commit, rowAt_apply_deletedSet h₁.height_eq q hq, nodeAt?_some]
          cases hv : nodeAt u q with
          | none => exact h₁.vacant q hv
          | some v => exact hE q v rfl hv
        · obtain ⟨k, hk, hvk⟩ := nodeAt_canonical h.canonical hv
          rw [NodeStore.commit, rowAt_apply_rowOf hvk hk hq, nodeAt?_some, hv, Option.map_some]
      · refine apply_other (fun n hn => ?_) hkey
        rcases hrows key.path with ⟨hq, -⟩ | ⟨s, v, hs, hv, hq⟩
        · rw [hq, hsame] at hn
          exact hdeleted key n hn
        · obtain ⟨k, hk, hvk⟩ := nodeAt_canonical h.canonical hv
          rw [hq, Option.some.injEq] at hn
          rw [← hn, isLeaf_rowOf, Bool.eq_iff_iff, isLeafTree_iff hvk, hs, beq_iff_eq, List.nil_append]
          omega

/-- **Commit** of a trie over a store: the root is the map's, and the store represents the map. -/
theorem Holds.commit {m₀ : Felt → Felt} (hz : nz) (hh : height ≤ 251) (hS : Represents height H S m₀)
    (h : Holds nz height H (some S) owner t m) (hpanic : ¬ Panics height m .hash) :
    ∃ ns t', t.commit = (.ok (mapRoot H height m, ns), t') ∧ (∀ n ∈ ns, n.owner = owner) ∧
      Represents height H (S.commit ns) m ∧ t'.hash.1 = .ok (mapRoot H height m) := by
  have hother : ∀ key : NodeKey, key.isLeaf ≠ (key.path.length == height) → S key = none :=
    fun key hkey => by rw [hS, if_neg hkey]
  have hdeleted : ∀ (key : NodeKey) n, t.deletedSet.nodes key.path = some n →
      n.isLeaf = (key.path.length == height) := by
    intro key n hn
    simp only [deletedSet, h.height_eq] at hn
    split_ifs at hn
    cases hn
    rfl
  unfold Holds at h
  unfold mapRoot commitment
  obtain ⟨ns, t', hcommit, howner, hrow, hkeys, hhash⟩ :=
    commit_rows hz h (mt (panics_hash hh).mpr hpanic) hdeleted
  refine ⟨ns, t', hcommit, howner, represents_of_rowAt hrow fun key hkey => ?_, hhash⟩
  exact (hkeys key hkey).trans (hother key hkey)

/-- The leaf row of a key holds the key's value, and is there only if the value is not zero. -/
theorem Represents.leaf_row (hh : height ≤ 251) (h : Represents height H S m) (hk : k.val < 2 ^ height) :
    S ⟨true, feltToPath height k⟩ = if m k = 0 then none else some (.felt (m k)) := by
  have hlen := length_feltToPath height k
  rw [h, if_pos (by simp), nodeAt?_key (canon_canonical height _) hlen, get?_canon height _ _ hlen,
    onPaths_feltToPath hh m hk]
  split_ifs <;> rfl

theorem reopen_reads (hh : height ≤ 251) (hS : Represents height H S m)
    (hcomm : comm = 0 → EmptyMap height m) (hpanic : ¬ Panics height m .hash) :
    ∃ t, new owner comm height H S = .ok t ∧ t.hash.1 = .ok (mapRoot H height m) ∧
      ∀ k : Felt, k.val < 2 ^ height → (t.get k).1 = .ok (m k) := by
  obtain ⟨t, ht, hold⟩ := new_holds False owner hh hS hcomm False.elim
  exact ⟨t, ht, hold.hash_root hh hpanic, fun k hk => hold.get hh hk⟩

/-- **A commit keeps the store right.** Over a store that represents a map, any sequence of calls followed by
`Commit` leaves a store that represents the map the calls wrote: reopening it gives the same answers and the
root that was returned, and the leaf rows are the values. It is enough that the height is not zero (or `Hash`
and `Commit` only see empty maps), and that no stored node hashes to zero. -/
theorem commit_represents (height : ℕ) (hh : height ≤ 251) (H : HashFn) (owner comm : Felt) (S : NodeStore)
    (m : Felt → Felt) (hS : Represents height H S m) (hcomm : comm = 0 → EmptyMap height m)
    (ops : List TrieOp) (hops : ∀ op ∈ ops, op.InRange height = true)
    (hzero : 0 < height ∨ ∀ before after, ops ++ [TrieOp.hash] = before ++ TrieOp.hash :: after →
      EmptyMap height (before.foldl TrieOp.write m))
    (hnz : NonzeroHashes height H m) :
    ∃ t, Trie.new owner comm height H S = .ok t ∧
      (t.calls ops).1 = (answers H height m ops).map .ok ∧
      ∃ ns t', (t.calls ops).2.commit = (.ok (mapRoot H height (ops.foldl TrieOp.write m), ns), t') ∧
        (∀ n ∈ ns, n.owner = owner) ∧
        Represents height H (S.commit ns) (ops.foldl TrieOp.write m) ∧
        (∀ k : Felt, k.val < 2 ^ height → S.commit ns ⟨true, feltToPath height k⟩ =
          if ops.foldl TrieOp.write m k = 0 then none else some (.felt (ops.foldl TrieOp.write m k))) ∧
        ∀ comm' : Felt, (comm' = 0 → EmptyMap height (ops.foldl TrieOp.write m)) →
          ∃ t'', Trie.new owner comm' height H (S.commit ns) = .ok t'' ∧
            t''.hash.1 = .ok (mapRoot H height (ops.foldl TrieOp.write m)) ∧
            ∀ k : Felt, k.val < 2 ^ height → (t''.get k).1 = .ok (ops.foldl TrieOp.write m k) := by
  have hpanic : ¬ Panics height (ops.foldl TrieOp.write m) .hash := by
    rintro ⟨-, h0, hne⟩
    exact hne ((hzero.resolve_left (by omega)) ops [] rfl)
  obtain ⟨t, ht, hold⟩ := new_holds True owner hh hS hcomm fun _ => hnz
  obtain ⟨ns, t', hcommit, howner, hrep, -⟩ := (hold.calls hh hops).commit trivial hh hS hpanic
  refine ⟨t, ht,
    (hold.calls_answers hh hops).mpr (noPanic_iff.mpr (hzero.imp_right fun h before after hsplit => ?_)), ns,
    t', hcommit, howner, hrep, fun k hk => hrep.leaf_row hh hk,
      fun comm' hcomm' => reopen_reads hh hrep hcomm' hpanic⟩
  exact h before (after ++ [.hash]) (by rw [hsplit, List.append_assoc, List.cons_append])

/-- The commit of a trie of height 2 that holds one key, after another was written. -/
theorem commit_represents_two :
    ∃ t ns t', Trie.new 7 1 2 (fun _ _ => 1) (storeOf 2 (fun _ _ => 1) (Function.update (fun _ => 0) 1 5)) =
      .ok t ∧
      (t.calls [.update 2 7, .hash, .get 1]).2.commit = (.ok (1, ns), t') ∧
      Represents 2 (fun _ _ => 1) ((storeOf 2 (fun _ _ => 1) (Function.update (fun _ => 0) 1 5)).commit ns)
        (Function.update (Function.update (fun _ => 0) 1 5) 2 7) := by
  have hnz : NonzeroHashes 2 (fun _ _ => 1) (update (fun _ => 0) 1 5) := by
    intro q u hu
    have hc : canon 2 (onPaths (update (fun _ => 0) 1 5)) = some (.edge [false, true] (.leaf 5)) := by
      decide +kernel
    rw [hc, nodeAt?_some] at hu
    rcases nodeAt_edge_cases (p := [false, true]) (by simp) (.leaf (5 : Felt)) q
      with ⟨-, h⟩ | ⟨q', -, h⟩ | ⟨-, -, h⟩
    · rw [h] at hu
      cases hu
      decide +kernel
    · rw [h] at hu
      cases q' with
      | nil =>
        cases hu
        decide +kernel
      | cons b q' => cases hu
    · rw [h] at hu
      cases hu
  obtain ⟨t, ht, -, ns, t', hc, -, hr, -⟩ := commit_represents 2 (by decide) (fun _ _ => 1) 7 1 _ _
    (represents_storeOf 2 _ (update (fun _ => 0) 1 5)) (fun h => absurd h (by decide +kernel)) [.update 2 7,
      .hash, .get 1]
    (by decide +kernel) (.inl (by decide)) hnz
  exact ⟨t, ns, t', ht, hc, hr⟩

/-- At height 0 the commit of a non-empty trie panics. And above, when a stored branch hashes to zero, reading
it back after `Hash` leaves it without a cached hash below a modified node, and the commit writes it as a
leaf. -/
theorem commit_not_represents :
    (∃ t, Trie.new 7 1 0 (fun _ _ => 1) (storeOf 0 (fun _ _ => 1) fun _ => 1) = .ok t ∧
      t.commit.1 = .error .panic) ∧
      ∃ t ns t', Trie.new 7 1 2 (fun _ _ => 0) (storeOf 2 (fun _ _ => 0) (Function.update (fun _ => 1) 3 0)) =
        .ok t ∧
        (t.calls [.update 3 1, .hash, .get 0]).2.commit = (.ok (0, some ns), t') ∧
        ¬ Represents 2 (fun _ _ => 0)
          ((storeOf 2 (fun _ _ => 0) (Function.update (fun _ => 1) 3 0)).commit (some ns))
          fun _ => 1 := by
  refine ⟨⟨_, rfl, rfl⟩, _, _, _, rfl, rfl, fun h => ?_⟩
  exact absurd (h ⟨true, [false]⟩) (by decide +kernel)

end Juno.Trie2
