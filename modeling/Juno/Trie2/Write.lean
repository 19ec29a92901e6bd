import Juno.Trie2.Rep

/-!
# Writing to the node-based trie

`Trie.insert` and `Trie.delete` against the tree operations of `Lib.Patricia`. A
write at a node replaces the tree the node represents, moves no live row outside
the node's path, and keeps two facts the next commit relies on: a path where the
tree has no node has no live row (`Vacant`), and an insertion is only recorded where
no row is (`Tracer.Ok`).

`insert_rep` and `delete_rep`: **a write succeeds and the new node represents the
tree with the key written**, for every tree and every state of resolution; a write
that reports no change leaves the tracer and the tree alone, and one that reports a
change returns a dirty node.
-/

namespace Juno.Trie2

open Lib Lib.Patricia List BitTree Tracer

variable {v : Felt} {key k q m : Path} {fuel : ℕ}

def Vacant (E : Path → Option Blob) (pre : Path) (t : Option (BitTree Felt)) : Prop :=
  ∀ q, nodeAt? t q = none → E (pre ++ q) = none

/-- What a node represents, where nil is the empty tree. -/
def Rep? (H : HashFn) (nz : Prop) (E : Path → Option Blob) (pre : Path) (n : Node) :
    Option (BitTree Felt) → Prop
  | none => n = .nil
  | some t => Rep H nz E pre n t

/-- **What a write leaves behind** at a path: the tracer went from `tr` to `tr'`, and the node `n` is what
is now there. -/
structure Written (H : HashFn) (nz : Prop) (R : Path → Option Blob) (tr tr' : Tracer) (pre : Path) (n : Node)
    (t : Option (BitTree Felt)) : Prop where
  ok : tr'.Ok R
  frame : ∀ q, ¬ pre <+: q → tr'.live R q = tr.live R q
  rep : Rep? H nz (tr'.live R) pre n t
  vacant : Vacant (tr'.live R) pre t

variable {H : HashFn} {nz : Prop} {R : Path → Option Blob} {tr tr' : Tracer} {pre : Path}
  {rd : NodeReader} {height : ℕ}

theorem not_prefix_of_append {p : Path} (r : Path) (h : ¬ p <+: q) : ¬ p ++ r <+: q :=
  fun hr => h ((prefix_append p r).trans hr)

variable {E : Path → Option Blob}

theorem Vacant.side {l r : BitTree Felt} (h : Vacant E pre (some (.binary l r))) (b : Bool) :
    Vacant E (pre ++ [b]) (some (side b l r)) := by
  intro q hq
  simpa using h (b :: q) (by simpa using hq)

variable {p : Path} {c : BitTree Felt}

theorem Vacant.edge (hp : p ≠ []) (h : Vacant E pre (some (.edge p c))) : Vacant E (pre ++ p) (some c) := by
  intro q hq
  rw [append_assoc]
  exact h (p ++ q) (by rwa [nodeAt?_some, nodeAt_edge_append hp])

theorem vacant_edge (hp : p ≠ []) (hc : Vacant E (pre ++ p) (some c))
    (hoff : ∀ q, q ≠ [] → ¬ p <+: q → E (pre ++ q) = none) : Vacant E pre (some (.edge p c)) := by
  intro q hq
  rcases nodeAt_edge_cases hp c q with ⟨rfl, h⟩ | ⟨q', rfl, h⟩ | ⟨h0, h1, -⟩
  · rw [nodeAt?_some, h] at hq
    cases hq
  · rw [← append_assoc]
    exact hc q' (by rwa [nodeAt?_some, h] at hq)
  · exact hoff q h0 h1

variable {n : Node}

theorem Written.edge {t t' : BitTree Felt} (hp : p ≠ []) (hv : Vacant (tr.live R) pre (some (.edge p t)))
    (h : Written H nz R tr tr' (pre ++ p) n (some t')) :
    Written H nz R tr tr' pre (.edge p n newNodeFlag) (some (.edge p t')) where
  ok := h.ok
  frame q hq := h.frame q (not_prefix_of_append p hq)
  rep := .edge h.rep (flagsOk_new _ _)
  vacant := by
    refine vacant_edge hp h.vacant fun q h0 hq => ?_
    rw [h.frame _ (by rwa [prefix_append_right_inj])]
    exact hv q (nodeAt_edge_off h0 hq t)

variable {b : Bool} {u : BitTree Felt}

theorem Written.setChild {l r : Node} {t t' : BitTree Felt}
    (hother : Rep H nz (tr.live R) (pre ++ [!b]) (child (!b) l r) (side (!b) t u))
    (hv : Vacant (tr.live R) pre (some (.binary t u))) (h : Written H nz R tr tr' (pre ++ [b]) n (some t')) :
    Written H nz R tr tr' pre (setChild b n l r newNodeFlag) (some (fork b t' (side (!b) t u))) where
  ok := h.ok
  frame q hq := h.frame q (not_prefix_of_append [b] hq)
  rep := by
    refine rep_setChild (hother.congr fun q hq => h.frame q fun hb => ?_) h.rep (flagsOk_new _ _)
    obtain ⟨q, rfl⟩ := hq
    simp at hb
  vacant := by
    intro q hq
    cases q with
    | nil => simp at hq
    | cons a q =>
      by_cases hab : a = b
      · subst hab
        simpa using h.vacant q (by cases a <;> simpa [fork] using hq)
      · obtain rfl : a = !b := by cases a <;> cases b <;> simp_all
        rw [h.frame _ (by simp)]
        exact hv ((!b) :: q) (by cases b <;> simpa [fork] using hq)

/-! ### Insertion -/

variable {t : BitTree Felt}

/-- Hang a node below a string of bits. -/
def attach (p : Path) (n : Node) : Node := if p = [] then n else .edge p n newNodeFlag

/-- Record a new node at `k`, if there is an edge with path `p` below which to put it. -/
def Tracer.mark (tr : Tracer) (p k : Path) : Tracer := if p = [] then tr else tr.onInsert k

theorem Tracer.Ok.mark (h : tr.Ok R) (hk : p ≠ [] → tr.live R k = none) : (tr.mark p k).Ok R := by
  unfold Tracer.mark
  split_ifs with hp
  · exact h
  · exact h.onInsert (hk hp)

theorem Tracer.live_mark (hq : p ≠ [] → q ≠ k) : (tr.mark p k).live R q = tr.live R q := by
  unfold mark
  split_ifs with hp
  · rfl
  · exact tr.live_onInsert_ne R (hq hp)

theorem insert_nil (fuel : ℕ) (pre key : Path) (value : Node) (tr : Tracer) :
    insert rd height (fuel + 1) .nil pre key value tr = (.ok (attach key value, true), tr.mark key pre) := by
  cases key with
  | nil | cons => simp [insert, attach, mark]

/-- The tracer after an edge was split: the lower part of the edge, the new edge and the branch. -/
def Tracer.markSplit (tr : Tracer) (pre m : Path) (b : Bool) (p k : Path) : Tracer :=
  ((tr.mark p (pre ++ (m ++ [b]))).mark k (pre ++ (m ++ [!b]))).mark m (pre ++ m)

theorem insert_split (fuel : ℕ) (pre m p k : Path) (b : Bool) (n value : Node) (flags : NodeFlag)
    (tr : Tracer) :
    insert rd height (fuel + 1 + 1) (.edge (m ++ b :: p) n flags) pre (m ++ (!b) :: k) value tr =
      (.ok (attach m (newBranch b (attach p n) (!b) (attach k value)), true), tr.markSplit pre m b p k) := by
  have htake : ∀ (a : Bool) (r : Path), (m ++ a :: r).take (m.length + 1) = m ++ [a] := fun a r => by
    simp [take_append]
  have hdrop : ∀ (a : Bool) (r : Path), (m ++ a :: r).drop (m.length + 1) = r := fun a r => by
    simp [drop_append]
  have hbit : ∀ (a : Bool) (r : Path), bit (m ++ a :: r) m.length = a := fun a r => by simp [bit]
  rw [insert, if_neg (by simp)]
  simp only [common_append_cons_not, htake, hdrop, hbit, insert_nil]
  rw [if_neg (by simp)]
  unfold attach markSplit mark
  by_cases hm : m = []
  · simp [hm]
  · simp [hm]

theorem rep_attach (h : Rep H nz E (pre ++ p) n t) (ht : t.isEdge = false) :
    Rep H nz E pre (attach p n) (prepend p t) := by
  unfold attach
  split_ifs with hp
  · subst hp
    simpa using h
  · rw [prepend_of_not_edge hp ht]
    exact .edge h (flagsOk_new _ _)

theorem rep_newBranch {x y : Node} (hx : Rep H nz E (pre ++ [b]) x t)
    (hy : Rep H nz E (pre ++ [!b]) y u) : Rep H nz E pre (newBranch b x (!b) y) (fork b t u) := by
  cases b
  · exact .binary hx hy (flagsOk_new _ _)
  · exact .binary hy hx (flagsOk_new _ _)

theorem Tracer.live_markSplit (h1 : p ≠ [] → q ≠ m ++ [b]) (h2 : k ≠ [] → q ≠ m ++ [!b])
    (h3 : m ≠ [] → q ≠ m) :
    (tr.markSplit pre m b p k).live R (pre ++ q) = tr.live R (pre ++ q) := by
  unfold markSplit
  rw [live_mark (by simpa using h3), live_mark (by simpa using h2), live_mark (by simpa using h1)]

theorem Tracer.Ok.markSplit (h : tr.Ok R) (hv : Vacant (tr.live R) pre (some (.edge (m ++ b :: p) c))) :
    (tr.markSplit pre m b p k).Ok R := by
  refine ((h.mark fun hp => ?_).mark fun _ => ?_).mark fun hm => ?_
  · refine hv _ (nodeAt_edge_off (by simp) ?_ c)
    simpa [prefix_append_right_inj] using hp
  · rw [live_mark (by simp)]
    exact hv _ (nodeAt_edge_off (by simp) (by simp) c)
  · rw [live_mark (by simp), live_mark (by simp)]
    refine hv _ (nodeAt_edge_off hm (fun hpre => ?_) c)
    have := hpre.length_le
    simp only [length_append, length_cons] at this
    omega

theorem written_split (hok : tr.Ok R) (hn : Rep H nz (tr.live R) (pre ++ (m ++ b :: p)) n c)
    (hc : c.isEdge = false) (hv : Vacant (tr.live R) pre (some (.edge (m ++ b :: p) c))) :
    Written H nz R tr (tr.markSplit pre m b p k) pre
      (attach m (newBranch b (attach p n) (!b) (attach k (.value v))))
      (some (prepend m (fork b (prepend p c) (prepend k (.leaf v))))) where
  ok := hok.markSplit hv
  frame q hq := by
    unfold markSplit
    rw [live_mark, live_mark, live_mark] <;>
    · rintro - rfl
      exact hq (prefix_append _ _)
  rep := by
    refine rep_attach (rep_newBranch (rep_attach ?_ hc) (rep_attach (.value _ _) rfl)) (by simp)
    simp only [append_assoc, singleton_append]
    refine hn.congr fun q hq => ?_
    obtain ⟨q, rfl⟩ := hq
    rw [append_assoc]
    refine live_markSplit (fun hp => ?_) (fun _ => ?_) (fun _ => ?_)
    · simpa using fun h => absurd h hp
    · simp
    · simp
  vacant := by
    intro q hq
    have hbranch : ∀ q', nodeAt (prepend m (fork b (prepend p c) (prepend k (.leaf v)))) (m ++ q') =
        nodeAt (fork b (prepend p c) (prepend k (.leaf v))) q' :=
      fun q' => nodeAt_prepend_append (.inl (by simp))
    rw [nodeAt?_some] at hq
    rw [live_markSplit]
    · refine hv q ?_
      rcases nodeAt_edge_cases (p := m ++ b :: p) (by simp) c q with ⟨rfl, h⟩ | ⟨q', rfl, h⟩ | ⟨-, -, h⟩
      · simp at hq
      · rw [append_assoc, hbranch] at hq
        rw [nodeAt?_some, h, ← nodeAt_prepend_append (p := p) (.inl hc)]
        cases b <;> simpa [fork] using hq
      · exact h
    · rintro - rfl
      rw [hbranch] at hq
      cases b <;> simp [fork] at hq
    · rintro - rfl
      rw [hbranch] at hq
      cases b <;> simp [fork] at hq
    · rintro - rfl
      have := hbranch []
      rw [append_nil, hq] at this
      simp at this

theorem Written.refl {t : Option (BitTree Felt)} (hok : tr.Ok R) (hrep : Rep? H nz (tr.live R) pre n t)
    (hv : Vacant (tr.live R) pre t) : Written H nz R tr tr pre n t :=
  ⟨hok, fun _ _ => rfl, hrep, hv⟩

/-- **What a write gives**: it succeeds with a node that represents `u`; the flag says whether anything
changed. -/
def Wrote (H : HashFn) (nz : Prop) (R : Path → Option Blob) (tr : Tracer) (t : BitTree Felt) (pre : Path)
    (n : Node) (u : Option (BitTree Felt)) (r : Except TrieError (Node × Bool) × Tracer) : Prop :=
  ∃ n' d tr', r = (.ok (n', d), tr') ∧ Written H nz R tr tr' pre n' u ∧
    (d = false → tr' = tr ∧ u = some t ∧ (n.Resolved → n' = n)) ∧ (d = true → n'.cache.2 = true ∧ n'.Resolved)

section

variable {u : Option (BitTree Felt)} {r r' : Except TrieError (Node × Bool) × Tracer}

theorem Wrote.same (hok : tr.Ok R) (hrep : Rep H nz (tr.live R) pre n t)
    (hv : Vacant (tr.live R) pre (some t)) (hu : u = some t) (hr : r = (.ok (n, false), tr)) :
    Wrote H nz R tr t pre n u r := by
  subst hu
  exact ⟨n, false, tr, hr, .refl hok hrep hv, fun _ => ⟨rfl, rfl, fun _ => rfl⟩, by simp⟩

theorem Wrote.changed {n' : Node} (hw : Written H nz R tr tr' pre n' u) (hn : n'.cache.2 = true ∧ n'.Resolved)
    (hr : r = (.ok (n', true), tr')) : Wrote H nz R tr t pre n u r :=
  ⟨n', true, tr', hr, hw, by simp, fun _ => hn⟩

/-- Writing at a hash node is writing at the node it stands for. -/
theorem Wrote.hash {c : Node} {x : Felt} (h : Wrote H nz R tr t pre c u r) (hres : c.Resolved)
    (hchanged : ∀ n' tr', r = (.ok (n', true), tr') → r' = r)
    (hsame : ∀ n' tr', r = (.ok (n', false), tr') → r' = (.ok (c, false), tr')) :
    Wrote H nz R tr t pre (.hash x) u r' := by
  obtain ⟨n', d, tr', hr, hw, hd, hd'⟩ := h
  cases d with
  | true => exact .changed hw (hd' rfl) ((hchanged n' tr' hr).trans hr)
  | false =>
    obtain ⟨rfl, hu, hn'⟩ := hd rfl
    obtain rfl := hn' hres
    exact ⟨n', false, tr', hsame n' tr' hr, hw, fun _ => ⟨rfl, hu, False.elim⟩, by simp⟩

end

theorem insert_descent (hok : tr.Ok (rowAt rd height)) :
    Descent H nz (tr.live (rowAt rd height)) rd height fun t pre n key fuel =>
      Vacant (tr.live (rowAt rd height)) pre (some t) → Wrote H nz (rowAt rd height) tr t pre n
        (some (Patricia.insert v t key)) (insert rd height fuel n pre key (.value v) tr) where
  leaf pre w fuel hv := by
    refine ⟨.value v, w != v, tr, rfl, .refl hok (.value _ _) fun q hq => hv q ?_, fun hd => ?_,
      fun _ => ⟨rfl, trivial⟩⟩
    · cases q <;> simp_all [Patricia.insert]
    · simp_all [Patricia.insert]
  hash := by
    intro t pre c key fuel hk hc hres _ ih hv
    exact (ih hv).hash hres (fun _ _ hins => by simp [insert, hk, hc, hins])
      fun _ _ hins => by simp [insert, hk, hc, hins]
  binary := by
    intro l r pre nl nr flags b key fuel m _ _ _ hnl hnr hf ih hv
    obtain ⟨n', d, tr', hins, hw, hd, -⟩ := ih (hv.side b)
    rw [insert_binary_cons]
    cases d with
    | true =>
      refine .changed (Written.setChild (by cases b <;> assumption) hv hw)
        (by cases b <;> exact ⟨rfl, trivial⟩) ?_
      simp [insert, bit, hins]
    | false =>
      obtain ⟨rfl, ht', -⟩ := hd rfl
      refine .same hok (.binary hnl hnr hf) hv ?_ ?_
      · rw [Option.some.inj ht', fork_side]
      · simp [insert, bit, hins]
  edge := by
    intro p c pre nc flags key fuel m hp _ _ _ hnc hf ih hv
    obtain ⟨n', d, tr', hins, hw, hd, -⟩ := ih (hv.edge hp)
    rw [insert_edge_append]
    cases d with
    | true =>
      refine .changed (hw.edge hp hv) ⟨rfl, trivial⟩ ?_
      simp [insert, hp, common_append, hins]
    | false =>
      obtain ⟨rfl, ht', -⟩ := hd rfl
      refine .same hok (.edge hnc hf) hv ?_ ?_
      · rw [Option.some.inj ht']
      · simp [insert, hp, common_append, hins]
  off := by
    intro p b k key c pre nc flags fuel hce hnc _ hv
    rw [insert_edge_split]
    refine .changed (written_split hok hnc hce hv) ?_ (insert_split fuel pre p k key b nc _ flags tr)
    unfold attach
    cases b <;> split_ifs <;> exact ⟨rfl, trivial⟩

theorem insert_rep {m : ℕ} (hrep : Rep H nz (tr.live (rowAt rd height)) pre n t)
    (hv : Vacant (tr.live (rowAt rd height)) pre (some t)) (hok : tr.Ok (rowAt rd height))
    (ht : Canonical t m) (hm : pre.length + m = height) (hk : key.length = m) (hfuel : cost n m ≤ fuel) :
    Wrote H nz (rowAt rd height) tr t pre n (some (Patricia.insert v t key))
      (insert rd height fuel n pre key (.value v) tr) :=
  (insert_descent hok).rep (fun _ _ => live_eq_some) hrep ht hm hk hfuel hv

/-! ### Deletion -/

theorem Written.of_frame {tr₀ : Tracer} {t : Option (BitTree Felt)} (h : Written H nz R tr tr' pre n t)
    (hf : ∀ q, ¬ pre <+: q → tr.live R q = tr₀.live R q) : Written H nz R tr₀ tr' pre n t :=
  ⟨h.ok, fun q hq => (h.frame q hq).trans (hf q hq), h.rep, h.vacant⟩

theorem Tracer.Ok.live_onDelete_eq_none (h : tr.Ok R) (k : Path) (hq : q ≠ k → tr.live R q = none) :
    (tr.onDelete k).live R q = none := by
  rw [h.live_onDelete, Function.update_apply]
  split_ifs with hk
  · rfl
  · exact hq hk

theorem Tracer.Ok.live_onDelete_ne (h : tr.Ok R) (hq : q ≠ k) : (tr.onDelete k).live R q = tr.live R q := by
  rw [h.live_onDelete, Function.update_of_ne hq]

/-- **Merging an edge with what is left below it**: two edges become one, and the lower one's path is
recorded as deleted. -/
theorem mergeEdge_written {c : Node} {k : ℕ} (hp : p ≠ []) (hu : Canonical u k) (hok : tr.Ok R)
    (hc : Rep H nz (tr.live R) (pre ++ p) c u) (hres : c.Resolved)
    (hv : Vacant (tr.live R) (pre ++ p) (some u))
    (hoff : ∀ q, q ≠ [] → ¬ p <+: q → tr.live R (pre ++ q) = none) :
    ∃ n' tr', mergeEdge p c pre tr = (.ok (n', true), tr') ∧
      Written H nz R tr tr' pre n' (some (prepend p u)) ∧ n'.cache.2 = true ∧ n'.Resolved := by
  have hplain : u.isEdge = false → Written H nz R tr tr pre (.edge p c newNodeFlag) (some (prepend p u)) := by
    intro he
    rw [prepend_of_not_edge hp he]
    exact .refl hok (.edge hc (flagsOk_new _ _)) (vacant_edge hp hv hoff)
  cases hc with
  | hash => exact hres.elim
  | value | binary => exact ⟨_, _, rfl, hplain rfl, rfl, trivial⟩
  | @edge _ p' c' u' flags hc' hf =>
    obtain ⟨hp', -⟩ := hu
    refine ⟨.edge (p ++ p') c' newNodeFlag, tr.onDelete (pre ++ p), rfl, ?_, rfl, trivial⟩
    rw [prepend_edge]
    refine ⟨hok.onDelete _, fun q hq => hok.live_onDelete_ne ?_, .edge ?_ (flagsOk_new _ _),
      vacant_edge ?_ ?_ ?_⟩
    · rintro rfl
      exact hq (prefix_append _ _)
    · rw [← append_assoc]
      refine hc'.congr fun q hq => hok.live_onDelete_ne ?_
      rintro rfl
      have := hq.length_le
      simp only [length_append] at this
      exact hp' (length_eq_zero_iff.mp (by omega))
    · simp [hp]
    · intro q hq
      refine hok.live_onDelete_eq_none _ fun _ => ?_
      rw [← append_assoc]
      exact hv.edge hp' q hq
    · intro q h0 hq
      refine hok.live_onDelete_eq_none _ fun hne => ?_
      by_cases hpq : p <+: q
      · obtain ⟨q, rfl⟩ := hpq
        rw [prefix_append_right_inj] at hq
        rw [← append_assoc]
        exact hv q (nodeAt_edge_off (by rintro rfl; simp at hne) hq _)
      · exact hoff q h0 hpq

theorem collapse_eq_mergeEdge (b : Bool) (c : Node) (pre : Path) (tr : Tracer) :
    collapse b c pre tr = mergeEdge [!b] c pre tr := by
  cases c <;> rfl

theorem resolved_rep {k : ℕ} (h : Rep H nz (tr.live (rowAt rd height)) pre n t) (ht : Canonical t k)
    (hm : pre.length + k = height) :
    ∃ c, resolved rd height n pre = .ok c ∧ c.Resolved ∧ Rep H nz (tr.live (rowAt rd height)) pre c t := by
  cases h with
  | hash hl hs =>
    obtain ⟨c, hc, hrep, hres, -, -⟩ := resolveNode_stored (fun _ _ => live_eq_some) hs ht hm
      (some (Patricia.hash (hasher H) t)) (by simp)
    exact ⟨c, hc, hres, hrep⟩
  | value => exact ⟨_, rfl, trivial, .value _ _⟩
  | edge hc hf => exact ⟨_, rfl, trivial, .edge hc hf⟩
  | binary hl hr hf => exact ⟨_, rfl, trivial, .binary hl hr hf⟩

/-- The branch whose child on the side of `b` is gone: the other child is resolved if need be, and the
branch becomes an edge to it. -/
theorem delete_binary_nil {k : ℕ} {l r : Node} (flags : NodeFlag)
    (hdel : delete rd height fuel (child b l r) (pre ++ [b]) key tr = (.ok (.nil, true), tr'))
    (hu : Canonical u k) (hm : (pre ++ [!b]).length + k = height) (hok : tr'.Ok (rowAt rd height))
    (hother : Rep H nz (tr'.live (rowAt rd height)) (pre ++ [!b]) (child (!b) l r) u)
    (hv : Vacant (tr'.live (rowAt rd height)) (pre ++ [!b]) (some u))
    (hgone : ∀ q, tr'.live (rowAt rd height) (pre ++ b :: q) = none) :
    ∃ n' tr'', delete rd height (fuel + 1) (.binary l r flags) pre (b :: key) tr = (.ok (n', true), tr'') ∧
      Written H nz (rowAt rd height) tr' tr'' pre n' (some (prepend [!b] u)) ∧ n'.cache.2 = true ∧
        n'.Resolved := by
  obtain ⟨c, hc, hres, hrep⟩ := resolved_rep hother hu hm
  have hoff : ∀ q, q ≠ [] → ¬ [!b] <+: q → tr'.live (rowAt rd height) (pre ++ q) = none := by
    intro q h0 hq
    obtain ⟨a, q, rfl⟩ := exists_cons_of_ne_nil h0
    obtain rfl : a = b := by cases a <;> cases b <;> simp_all
    exact hgone q
  obtain ⟨n', tr'', hmerge, hw⟩ := mergeEdge_written (by simp) hu hok hrep hres hv hoff
  refine ⟨n', tr'', ?_, hw⟩
  rw [← hmerge, ← collapse_eq_mergeEdge]
  simp [delete, bit, hdel, hc]

theorem delete_ne_none {m : ℕ} (hc : Canonical c m) (he : c.isEdge = false) (hk : k.length = m)
    (h0 : k ≠ []) : ∃ c', Patricia.delete c k = some c' := by
  obtain ⟨b, k, rfl⟩ := exists_cons_of_ne_nil h0
  cases c with
  | leaf v =>
    obtain ⟨rfl, -⟩ := hc
    simp at hk
  | edge p c => simp [isEdge] at he
  | binary l r => exact ⟨_, delete_binary_cons l r b k⟩

theorem written_nil (hp : p ≠ []) (hok : tr.Ok R) (hv : Vacant (tr.live R) pre (some (.edge p (.leaf v)))) :
    Written H nz R tr ((tr.onDelete pre).onDelete (pre ++ p)) pre .nil none := by
  have hok' := hok.onDelete pre
  refine ⟨hok'.onDelete _, fun q hq => ?_, rfl, fun q _ => ?_⟩
  · rw [hok'.live_onDelete_ne, hok.live_onDelete_ne]
    · rintro rfl
      exact hq (prefix_refl _)
    · rintro rfl
      exact hq (prefix_append _ _)
  · refine hok'.live_onDelete_eq_none _ fun hqp => hok.live_onDelete_eq_none _ fun hq0 => hv q ?_
    rcases nodeAt_edge_cases hp (.leaf v) q with ⟨rfl, -⟩ | ⟨q', rfl, h⟩ | ⟨-, -, h⟩
    · simp at hq0
    · rw [nodeAt?_some, h]
      obtain ⟨b, q, rfl⟩ := exists_cons_of_ne_nil (show q' ≠ [] by rintro rfl; simp at hqp)
      rfl
    · exact h

theorem delete_edge_child (fuel : ℕ) (pre : Path) {flags : NodeFlag} (h0 : key ≠ []) :
    delete rd height (fuel + 1) (.edge p n flags) pre (p ++ key) tr =
      match delete rd height fuel n (pre ++ p) key tr with
      | (.error e, tr) => (.error e, tr)
      | (.ok (_, false), tr) => (.ok (.edge p n flags, false), tr)
      | (.ok (c, true), tr) => mergeEdge p c pre tr := by
  rcases hd : delete rd height fuel n (pre ++ p) key tr with ⟨e | ⟨c, d⟩, tr'⟩
  · simp [delete, common_append, h0, hd]
  · cases d <;> simp [delete, common_append, h0, hd]

theorem delete_descent (hok : tr.Ok (rowAt rd height)) :
    Descent H nz (tr.live (rowAt rd height)) rd height fun t pre n key fuel =>
      Vacant (tr.live (rowAt rd height)) pre (some t) → Wrote H nz (rowAt rd height) tr t pre n
        (Patricia.delete t key) (delete rd height fuel n pre key tr) where
  leaf pre w fuel hv := by
    refine .changed ⟨hok.onDelete pre, fun q hq => hok.live_onDelete_ne ?_, rfl, ?_⟩ ⟨rfl, trivial⟩ rfl
    · rintro rfl
      exact hq (prefix_refl _)
    · intro q _
      refine hok.live_onDelete_eq_none _ fun hne => hv q ?_
      obtain ⟨b, q, rfl⟩ := exists_cons_of_ne_nil (show q ≠ [] by rintro rfl; simp at hne)
      rfl
  hash := by
    intro t pre c key fuel _ hc hres _ ih hv
    exact (ih hv).hash hres (fun _ _ hdel => by simp [delete, hc, hdel])
      fun _ _ hdel => by simp [delete, hc, hdel]
  binary := by
    intro l r pre nl nr flags b key fuel m hl hr hm hnl hnr hf ih hv
    have hother : Rep H nz (tr.live (rowAt rd height)) (pre ++ [!b]) (child (!b) nl nr) (side (!b) l r) := by
      cases b <;> assumption
    obtain ⟨n', d, tr', hdel, hw, hd, -⟩ := ih (hv.side b)
    rw [delete_binary_cons]
    cases d with
    | false =>
      obtain ⟨rfl, ht', -⟩ := hd rfl
      refine .same hok (.binary hnl hnr hf) hv ?_ ?_
      · simp only [ht', fork_side]
      · simp [delete, bit, hdel]
    | true =>
      cases hres : Patricia.delete (side b l r) key with
      | some t' =>
        rw [hres] at hw
        refine .changed (hw.setChild hother hv) (by cases b <;> exact ⟨rfl, trivial⟩) ?_
        have hn' : n' ≠ .nil := hw.rep.ne_nil
        simp only [delete, bit, getD_cons_zero, take_succ_cons, take_zero, drop_succ_cons,
          drop_zero, hdel]
      | none =>
        rw [hres] at hw
        obtain rfl : n' = .nil := hw.rep
        have hE : ∀ q, pre ++ [!b] <+: q → tr'.live (rowAt rd height) q = tr.live (rowAt rd height) q := by
          rintro q ⟨q, rfl⟩
          exact hw.frame _ (by simp)
        obtain ⟨n', tr'', hdel', hw', hn'⟩ := delete_binary_nil (u := side (!b) l r) (k := m) flags hdel
          (by cases b <;> assumption) (by simp; omega) hw.ok (hother.congr hE)
          (fun q hq => (hE _ (prefix_append _ _)).trans (hv.side (!b) q hq))
          (fun q => by simpa using hw.vacant q rfl)
        exact .changed (hw'.of_frame fun q hq => hw.frame q (not_prefix_of_append _ hq)) hn' hdel'
  edge := by
    intro p c pre nc flags key fuel m hp hce hc hk hnc hf ih hv
    by_cases h0 : key = []
    · -- the key ends here: the edge and its value go
      subst h0
      obtain rfl : m = 0 := hk.symm
      obtain ⟨v, -, rfl⟩ := hc.eq_leaf
      rw [delete_edge_append]
      refine .changed (written_nil hp hok hv) ⟨rfl, trivial⟩ ?_
      simp [delete, common_self]
    · obtain ⟨n', d, tr', hdel, hw, hd, hd'⟩ := ih (hv.edge hp)
      rw [delete_edge_append, delete_edge_child fuel pre h0, hdel]
      obtain ⟨c', hc'⟩ := delete_ne_none hc hce hk h0
      rw [hc'] at hw hd ⊢
      cases d with
      | false =>
        obtain ⟨rfl, hcc, -⟩ := hd rfl
        obtain rfl := Option.some.inj hcc
        refine .same hok (.edge hnc hf) hv ?_ rfl
        rw [Option.map_some, prepend_of_not_edge hp hce]
      | true =>
        have hcan : Canonical c' m := by
          have := delete_canonical hc hk
          rwa [hc'] at this
        obtain ⟨n'', tr'', hmerge, hw', hn''⟩ := mergeEdge_written hp hcan hw.ok hw.rep (hd' rfl).2 hw.vacant
          fun q hq0 hq => (hw.frame _ (by rwa [prefix_append_right_inj])).trans
            (hv q (nodeAt_edge_off hq0 hq c))
        exact .changed (hw'.of_frame fun q hq => hw.frame q (not_prefix_of_append _ hq)) hn'' hmerge
  off := by
    intro p b k key c pre nc flags fuel _ hnc hf hv
    have hoff : ¬ (p ++ b :: k) <+: p ++ (!b) :: key := by simp
    refine .same hok (.edge hnc hf) hv ?_ ?_
    · simp [Patricia.delete, hoff]
    · simp [delete, common_append_cons_not]

theorem delete_rep {m : ℕ} (hrep : Rep H nz (tr.live (rowAt rd height)) pre n t)
    (hv : Vacant (tr.live (rowAt rd height)) pre (some t)) (hok : tr.Ok (rowAt rd height))
    (ht : Canonical t m) (hm : pre.length + m = height) (hk : key.length = m) (hfuel : cost n m ≤ fuel) :
    Wrote H nz (rowAt rd height) tr t pre n (Patricia.delete t key) (delete rd height fuel n pre key tr) :=
  (delete_descent hok).rep (fun _ _ => live_eq_some) hrep ht hm hk hfuel hv

end Juno.Trie2
