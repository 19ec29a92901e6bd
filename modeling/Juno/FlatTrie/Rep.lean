import Juno.FlatTrie.Trie
import Juno.Core.TrieSpec
import Juno.Lib.Except

/-!
# What the rows of a flat trie represent

The rows of a flat trie represent a Patricia tree: a leaf or a branch of the tree has
a row under its path, and an edge shows only in that the row of what hangs from it is
further down (`bottom`). A branch's value is the hash of its subtrees, or else a dirty
key lies below it, so that the next `Hash` recomputes it.

`nodesFrom_spine`: walking down from a subtree collects the rows on the way to a key.
`updateLeaf_flat`, `insert_flat` and `delete_flat`: **the few rows that `Put` writes
turn the rows of a tree into those of the tree with the key written**, whichever of
the tree's branches they hang from. Each is by induction on the tree, and says of a
subtree what its parent has to know: whether its lower end moved, and where to.
-/

namespace Juno.FlatTrie

open Lib Lib.Patricia Function List BitTree Patricia

/-! ### Rows and trees -/

/-- The key of the row of a subtree: the lower end of its edge. -/
def bottom (pre : Path) : BitTree Felt → Path
  | .edge p _ => pre ++ p
  | _ => pre

def edgePath : BitTree Felt → Path
  | .edge p _ => p
  | _ => []

def tip : BitTree Felt → BitTree Felt
  | .edge _ c => c
  | t => t

/-- A dirty key lies strictly below. -/
def Below (D : List Path) (key : Path) : Prop := ∃ d ∈ D, key <+: d ∧ key ≠ d

/-- **The rows represent the tree** at a path, with values up to date or below a dirty key. -/
def Flat (H : HashFn) (N : Path → Option Node) (D : List Path) : Path → BitTree Felt → Prop
  | pre, .leaf v => N pre = some ⟨v, none⟩ ∧ ∀ q, q ≠ [] → N (pre ++ q) = none
  | pre, .binary l r =>
    (∃ val, N pre = some ⟨val, some (bottom (pre ++ [false]) l, bottom (pre ++ [true]) r)⟩ ∧
      (val = Patricia.hash (hasher H) (.binary l r) ∨ Below D pre)) ∧
    Flat H N D (pre ++ [false]) l ∧ Flat H N D (pre ++ [true]) r
  | pre, .edge p c => Flat H N D (pre ++ p) c ∧ ∀ q, ¬ p <+: q → N (pre ++ q) = none

variable {H : HashFn} {N N' : Path → Option Node} {D D' : List Path} {pre : Path} (pre)

@[simp] theorem bottom_leaf (v : Felt) : bottom pre (.leaf v) = pre := rfl

@[simp] theorem bottom_binary (l r : BitTree Felt) : bottom pre (.binary l r) = pre := rfl

@[simp] theorem bottom_edge (p : Path) (c : BitTree Felt) : bottom pre (.edge p c) = pre ++ p := rfl

variable {t : BitTree Felt}

theorem bottom_of_not_edge (h : t.isEdge = false) : bottom pre t = pre := by
  cases t with
  | edge p c => simp [isEdge] at h
  | leaf v => rfl
  | binary l r => rfl

theorem bottom_eq (t : BitTree Felt) : bottom pre t = pre ++ edgePath t := by
  cases t <;> simp [bottom, edgePath]

theorem prefix_bottom (t : BitTree Felt) : pre <+: bottom pre t := by
  rw [bottom_eq]
  exact prefix_append _ _

variable {pre} {key : Path}

theorem Below.mono (h : Below D key) (hD : ∀ d ∈ D, d ∈ D') : Below D' key := by
  obtain ⟨d, hd, hk⟩ := h
  exact ⟨d, hD d hd, hk⟩

theorem Below.above {key' : Path} (h : Below D key) (hk : key' <+: key) : Below D key' := by
  obtain ⟨d, hd, hpre, hne⟩ := h
  refine ⟨d, hd, hk.trans hpre, ?_⟩
  rintro rfl
  exact hne (hpre.eq_of_length (le_antisymm hpre.length_le hk.length_le))

theorem below_append (D : List Path) {d : Path} (hk : key <+: d) (hlen : key.length < d.length) :
    Below (D ++ [d]) key :=
  ⟨d, by simp, hk, by rintro rfl; omega⟩

/-- Only the rows below the path matter, and more keys may be dirty. -/
theorem Flat.congr : ∀ {pre : Path}, Flat H N D pre t → (∀ q, pre <+: q → N' q = N q) →
    (∀ d ∈ D, d ∈ D') → Flat H N' D' pre t := by
  induction t with
  | leaf v =>
    intro pre h hN _
    refine ⟨by rw [hN pre (prefix_refl _), h.1], fun q hq => ?_⟩
    rw [hN _ (prefix_append _ _), h.2 q hq]
  | binary l r ihl ihr =>
    intro pre h hN hD
    obtain ⟨⟨val, hrow, hval⟩, hl, hr⟩ := h
    refine ⟨⟨val, by rw [hN pre (prefix_refl _), hrow], hval.imp_right fun hb => hb.mono hD⟩, ihl hl ?_ hD,
      ihr hr ?_ hD⟩
    · exact fun q hq => hN q ((prefix_append _ _).trans hq)
    · exact fun q hq => hN q ((prefix_append _ _).trans hq)
  | edge p c ih =>
    intro pre h hN hD
    refine ⟨ih h.1 (fun q hq => hN q ((prefix_append _ _).trans hq)) hD, fun q hq => ?_⟩
    rw [hN _ (prefix_append _ _), h.2 q hq]

theorem Flat.side {l r : BitTree Felt} (h : Flat H N D pre (.binary l r)) (b : Bool) :
    Flat H N D (pre ++ [b]) (side b l r) := by
  cases b
  · exact h.2.1
  · exact h.2.2

theorem Flat.bottom_row {m : ℕ} (h : Flat H N D pre t) (ht : Canonical t m) :
    ∃ n, N (bottom pre t) = some n ∧
      (n.value = hash (hasher H) (tip t) ∨ Below D (bottom pre t)) := by
  cases t with
  | leaf v => exact ⟨⟨v, none⟩, h.1, .inl rfl⟩
  | binary l r =>
    obtain ⟨⟨val, hrow, hval⟩, -, -⟩ := h
    exact ⟨_, hrow, hval⟩
  | edge p c =>
    obtain ⟨hp, hc, k, rfl, hk⟩ := ht
    cases c with
    | leaf v => exact ⟨⟨v, none⟩, h.1.1, .inl rfl⟩
    | binary l r =>
      obtain ⟨⟨⟨val, hrow, hval⟩, -, -⟩, -⟩ := h
      exact ⟨_, hrow, hval⟩
    | edge q c => simp [isEdge] at hc

/-- The hash of a subtree from the value at its lower end. -/
theorem Node.hash_edgePath {m : ℕ} (ht : Canonical t m) {n : Node}
    (hn : n.value = Patricia.hash (hasher H) (tip t)) :
    n.hash (edgePath t) H = Patricia.hash (hasher H) t := by
  cases t with
  | leaf | binary => simpa [Node.hash, edgePath, tip] using hn
  | edge p c =>
    have hp : p.length ≠ 0 := fun h0 => ht.1 (length_eq_zero_iff.mp h0)
    rw [Node.hash, edgePath, if_neg hp, hn]
    rfl

theorem path_bottom (pre : Path) (b : Bool) (t : BitTree Felt) :
    path (bottom (pre ++ [b]) t) (some pre) = edgePath t := by
  rw [bottom_eq, path]
  simp

variable {k : Path}

theorem Flat.key_row (h : Flat H N D pre t) (ha : Along t k) :
    N (pre ++ k) = if get t k = 0 then none else some ⟨get t k, none⟩ := by
  induction ha generalizing pre with
  | leaf hv => rw [append_nil, h.1, Patricia.get, if_neg hv]
  | @binary l r b k _ _ ih =>
    rw [get_binary_cons, ← singleton_append, ← append_assoc]
    exact ih (h.side b)
  | @through p k c _ _ _ _ ih =>
    rw [get_edge_append, ← append_assoc]
    exact ih h.1
  | leaves => rw [get_edge_off _ (by simp), if_pos rfl, h.2 _ (by simp)]

/-! ### The way to a key -/

def rowOf (N : Path → Option Node) (key : Path) : StorageNode := ⟨key, (N key).getD ⟨0, none⟩⟩

/-- The rows on the way to a key, the last one first. -/
def spine (N : Path → Option Node) : Path → BitTree Felt → Path → List StorageNode
  | pre, .leaf _, _ => [rowOf N pre]
  | pre, .binary _ _, [] => [rowOf N pre]
  | pre, .binary l r, b :: k =>
    (if b then spine N (pre ++ [true]) r k else spine N (pre ++ [false]) l k) ++ [rowOf N pre]
  | pre, .edge p c, k => if p <+: k then spine N (pre ++ p) c (k.drop p.length) else [rowOf N (pre ++ p)]

theorem spine_binary_cons (pre : Path) (l r : BitTree Felt) (b : Bool) (k : Path) :
    spine N pre (.binary l r) (b :: k) = spine N (pre ++ [b]) (side b l r) k ++ [rowOf N pre] := by
  cases b <;> rfl

theorem spine_edge_append (pre p : Path) (c : BitTree Felt) (k : Path) :
    spine N pre (.edge p c) (p ++ k) = spine N (pre ++ p) c k := by
  simp [spine]

variable {p : Path}

theorem spine_edge_off (pre : Path) (c : BitTree Felt) (h : ¬ p <+: k) :
    spine N pre (.edge p c) k = [rowOf N (pre ++ p)] := by
  simp [spine, h]

theorem rowOf_eq {n : Node} (h : N key = some n) : rowOf N key = ⟨key, n⟩ := by
  simp [rowOf, h]

theorem equalMSBs_pre (p k : Path) : equalMSBs (p ++ k) p = true := by
  simp [equalMSBs]

/-- **Walking down to a key** collects the rows on the way. -/
theorem nodesFrom_spine {s : Storage} {fuel : ℕ} {acc : List StorageNode} (h : Flat H s.nodes D pre t)
    (ha : Along t k) (hfuel : k.length + 1 ≤ fuel) (hacc : acc ≠ [] → pre ≠ []) :
    nodesFrom s (pre ++ k) fuel (some (bottom pre t)) acc = .ok (acc ++ (spine s.nodes pre t k).reverse) := by
  induction ha generalizing pre fuel acc with
  | leaf =>
    obtain ⟨fuel, rfl⟩ := Nat.exists_eq_succ_of_ne_zero (show fuel ≠ 0 by omega)
    have hcur : ¬ (acc ≠ [] ∧ pre.length = 0) := fun hc => hacc hc.1 (length_eq_zero_iff.mp hc.2)
    have hrow := h.1
    rw [nodesFrom, bottom_leaf, if_neg hcur]
    simp [Storage.get, hrow, spine, rowOf_eq hrow]
  | @binary l r b k _ _ ih =>
    rw [length_cons] at hfuel
    obtain ⟨fuel, rfl⟩ := Nat.exists_eq_succ_of_ne_zero (show fuel ≠ 0 by omega)
    have hcur : ¬ (acc ≠ [] ∧ pre.length = 0) := fun hc => hacc hc.1 (length_eq_zero_iff.mp hc.2)
    have hside := h.side b
    obtain ⟨⟨val, hrow, -⟩, -, -⟩ := h
    have hstop : ¬ (pre.length ≥ (pre ++ b :: k).length ∨ equalMSBs (pre ++ b :: k) pre = false) := by
      rw [equalMSBs_pre]
      simp
    have hnext :
      nodesFrom s (pre ++ b :: k) fuel (some (bottom (pre ++ [b]) (side b l r)))
      (acc ++ [rowOf s.nodes pre]) =
        .ok (acc ++ [rowOf s.nodes pre] ++ (spine s.nodes (pre ++ [b]) (side b l r) k).reverse) := by
      rw [show pre ++ b :: k = (pre ++ [b]) ++ k by simp]
      exact ih hside (by omega) (by simp)
    rw [nodesFrom, bottom_binary, if_neg hcur]
    simp only [Storage.get, hrow, ok_bind, if_neg hstop, Option.map_some]
    rw [rowOf_eq hrow] at hnext
    have hbit : bit (pre ++ b :: k) pre.length = b := by simp [bit]
    rw [hbit, spine_binary_cons, reverse_append, rowOf_eq hrow, reverse_singleton, ← append_assoc, ← hnext]
    cases b <;> rfl
  | @through p k c hp hce _ _ ih =>
    rw [length_append] at hfuel
    have hnext := ih h.1 (show k.length + 1 ≤ fuel by omega) (show acc ≠ [] → pre ++ p ≠ [] by simp [hp])
    rw [bottom_of_not_edge _ hce] at hnext
    rw [spine_edge_append, bottom_edge, ← append_assoc]
    exact hnext
  | @leaves q p k b c ht =>
    obtain ⟨fuel, rfl⟩ := Nat.exists_eq_succ_of_ne_zero (show fuel ≠ 0 by omega)
    obtain ⟨n, hrow, -⟩ := h.bottom_row ht
    rw [bottom_edge] at hrow
    have hstop : equalMSBs (pre ++ (q ++ (!b) :: k)) (pre ++ (q ++ b :: p)) = false := by
      have := equalMSBs_split (pre ++ q) k p (!b)
      simpa using this
    rw [nodesFrom, bottom_edge, if_neg (by simp), spine_edge_off _ _ (by simp)]
    simp [Storage.get, hrow, hstop, rowOf_eq hrow]

/-! ### Branches -/

/-- The children of a branch whose child on the side of `b` has key `x`, the other `y`. -/
def links (b : Bool) (x y : Path) : Path × Path := if b then (y, x) else (x, y)

theorem replaceLink_links (val : Felt) (b : Bool) {x y : Path} (hxy : x ≠ y) (z : Path) :
    replaceLink ⟨val, some (links b x y)⟩ x z = ⟨val, some (links b z y)⟩ := by
  cases b
  · simp [replaceLink, links]
  · simp [replaceLink, links, hxy.symm]

variable {b : Bool}

theorem bottom_ne (pre : Path) (t u : BitTree Felt) : bottom (pre ++ [b]) t ≠ bottom (pre ++ [!b]) u := by
  rw [bottom_eq, bottom_eq]
  simp

theorem Flat.fork_inv {l r : BitTree Felt} (h : Flat H N D pre (.binary l r)) (b : Bool) :
    ∃ val, N pre = some ⟨val, some (links b (bottom (pre ++ [b]) (BitTree.side b l r))
      (bottom (pre ++ [!b]) (BitTree.side (!b) l r)))⟩ := by
  obtain ⟨⟨val, hrow, -⟩, -, -⟩ := h
  cases b <;> exact ⟨val, hrow⟩

/-- A branch from its parts, its value out of date. -/
theorem flat_fork {u : BitTree Felt} (val : Felt)
    (hrow : N pre = some ⟨val, some (links b (bottom (pre ++ [b]) t) (bottom (pre ++ [!b]) u))⟩)
    (hval : val = hash (hasher H) (fork b t u) ∨ Below D pre) (ht : Flat H N D (pre ++ [b]) t)
    (hu : Flat H N D (pre ++ [!b]) u) : Flat H N D pre (fork b t u) := by
  cases b
  · exact ⟨⟨val, hrow, hval⟩, ht, hu⟩
  · exact ⟨⟨val, hrow, hval⟩, hu, ht⟩

theorem flat_prepend (h : Flat H N D (pre ++ p) t) (hoff : ∀ q, ¬ p <+: q → N (pre ++ q) = none) :
    Flat H N D pre (prepend p t) := by
  by_cases hp : p = []
  · subst hp
    simpa using h
  · cases t with
    | leaf | binary => rw [prepend_of_not_edge hp rfl]; exact ⟨h, hoff⟩
    | edge r c =>
      rw [prepend_edge]
      refine ⟨by rw [← append_assoc]; exact h.1, fun q hq => ?_⟩
      by_cases hpq : p <+: q
      · obtain ⟨q, rfl⟩ := hpq
        rw [prefix_append_right_inj] at hq
        rw [← append_assoc]
        exact h.2 q hq
      · exact hoff q hpq

theorem bottom_prepend (pre p : Path) (t : BitTree Felt) :
    bottom pre (prepend p t) = bottom (pre ++ p) t := by
  by_cases hp : p = []
  · subst hp
    simp
  · cases t with
    | leaf | binary => rw [prepend_of_not_edge hp rfl]; rfl
    | edge r c => rw [prepend_edge]; simp

theorem not_prefix_self (pre : Path) (b : Bool) : ¬ pre ++ [b] <+: pre := by
  intro h
  have := h.length_le
  rw [length_append, length_singleton] at this
  omega

theorem ne_of_side {x : Path} (h : pre ++ [b] <+: x) : x ≠ pre := by
  rintro rfl
  exact not_prefix_self _ _ h

/-- Rows below one side of a branch are not below the other. -/
theorem not_prefix_side {q : Path} (h : pre ++ [!b] <+: q) : ¬ pre ++ [b] <+: q := by
  obtain ⟨q, rfl⟩ := h
  simp

variable {v : Felt}

theorem updateLeaf_flat (h : Flat H N D pre t) (ha : Along t k) (hget : get t k ≠ 0) :
    Flat H (update N (pre ++ k) (some ⟨v, none⟩)) (D ++ [pre ++ k]) pre (insert v t k) ∧
      bottom pre (insert v t k) = bottom pre t := by
  induction ha generalizing pre with
  | leaf =>
    refine ⟨⟨by simp, fun q hq => ?_⟩, rfl⟩
    rw [append_nil, update_of_ne (by simpa using hq), h.2 q hq]
  | @binary l r b k _ _ ih =>
    rw [get_binary_cons] at hget
    have hchild := ih (h.side b) hget
    rw [append_assoc, singleton_append] at hchild
    obtain ⟨val, hrow⟩ := h.fork_inv b
    rw [insert_binary_cons]
    refine ⟨flat_fork val ?_ (.inr (below_append D (prefix_append _ _) (by simp))) hchild.1 ?_, ?_⟩
    · rw [update_of_ne (by simp), hrow, hchild.2]
    · refine (h.side (!b)).congr (fun q hq => update_of_ne ?_ _ _) (fun d hd => by simp [hd])
      rintro rfl
      simp at hq
    · cases b <;> rfl
  | @through p k c _ _ _ _ ih =>
    rw [get_edge_append] at hget
    obtain ⟨hflat, -⟩ := ih h.1 hget
    rw [append_assoc] at hflat
    rw [insert_edge_append]
    refine ⟨⟨hflat, fun q hq => ?_⟩, rfl⟩
    rw [update_of_ne ?_, h.2 q hq]
    intro hqe
    rw [append_cancel_left_eq] at hqe
    exact hq (hqe ▸ prefix_append _ _)
  | leaves => exact absurd (get_edge_off _ (by simp)) hget

/-! ### Linking in the place of a row -/

/-- The rows after a write in the place of the row `old`, for the rows on the way above it: the link of the
last one of those goes to `new`, if it is not the row `key` itself. -/
structure Relinks (rows : List StorageNode → Path → Option Node) (key old new : Path) : Prop where
  cons : ∀ above rest, rows (above :: rest) = rows [above]
  link : ∀ above : StorageNode, above.key ≠ key →
    rows [above] above.key = some (replaceLink above.node old new)
  other : ∀ (above : StorageNode) x, x ≠ above.key → rows [above] x = rows [] x

/-- What such a write makes of a subtree, of which `rest` are the rows above. If there is none, the subtree's
lower end moves from `old` to `new`; otherwise it stays. -/
structure Relinked (H : HashFn) (N : Path → Option Node) (D : List Path)
    (rows : List StorageNode → Path → Option Node)
    (old new pre : Path) (t t' : BitTree Felt) (rest : List StorageNode) : Prop where
  new_below : pre <+: new
  off : ∀ x, ¬ pre <+: x → rows rest x = N x
  short : rest = [] → old = bottom pre t ∧ Flat H (rows rest) D pre t' ∧ bottom pre t' = new
  long : rest ≠ [] → Flat H (rows rest) (D ++ [new]) pre t' ∧ bottom pre t' = bottom pre t

variable {c : BitTree Felt}

section

variable {rows : List StorageNode → Path → Option Node} {key old new : Path}
  {t t' l r : BitTree Felt} {b : Bool}
  {rest : List StorageNode}

theorem Relinked.binary (hrows : Relinks rows key old new) (h : Flat H N D pre (.binary l r))
    (hkey : pre ++ [b] <+: key) (hi : Relinked H N D rows old new (pre ++ [b]) (side b l r) t' rest) :
    Relinked H N D rows old new pre (.binary l r) (fork b t' (side (!b) l r)) (rest ++ [rowOf N pre]) := by
  obtain ⟨val, hrow⟩ := h.fork_inv b
  have hbelow : Below (D ++ [new]) pre := by
    refine below_append D ((prefix_append _ _).trans hi.new_below) ?_
    have := hi.new_below.length_le
    simp only [length_append, length_singleton] at this
    omega
  have hother : ∀ x, pre ++ [!b] <+: x → rows rest x = N x := fun x hx => hi.off x (not_prefix_side hx)
  have hoff : ∀ x, ¬ pre <+: x → rows rest x = N x :=
    fun x hx => hi.off x fun hx' => hx ((prefix_append _ _).trans hx')
  refine ⟨(prefix_append _ _).trans hi.new_below, fun x hx => ?_, by simp, fun _ => ⟨?_, ?_⟩⟩
  · cases rest with
    | nil =>
      have hne : x ≠ pre := by
        rintro rfl
        exact hx (prefix_refl _)
      rw [nil_append, hrows.other _ x hne, hoff x hx]
    | cons above rest => rw [cons_append, hrows.cons, ← hrows.cons above rest, hoff x hx]
  · cases rest with
    | nil =>
      -- `old` hangs from this branch, whose link now goes to `new`
      obtain ⟨hold, hflat, hbot⟩ := hi.short rfl
      refine flat_fork val ?_ (.inr hbelow) (hflat.congr (fun x hx => ?_) fun d hd => by simp [hd])
        ((h.side (!b)).congr (fun x hx => ?_) fun d hd => by simp [hd])
      · refine (hrows.link (rowOf N pre) (ne_of_side hkey).symm).trans ?_
        rw [rowOf_eq hrow, hold, hbot, replaceLink_links _ _ (bottom_ne _ _ _)]
      · exact hrows.other _ x (ne_of_side hx)
      · rw [nil_append, hrows.other _ x (ne_of_side hx), hother x hx]
    | cons above rest =>
      obtain ⟨hflat, hbot⟩ := hi.long (by simp)
      rw [cons_append, hrows.cons, ← hrows.cons above rest]
      refine flat_fork val ?_ (.inr hbelow) hflat ((h.side (!b)).congr hother fun d hd => by simp [hd])
      rw [hbot, ← hrow]
      exact hi.off _ (not_prefix_self pre b)
  · rw [bottom_of_not_edge _ (by simp), bottom_binary]

theorem Relinked.edge (h : Flat H N D pre (.edge p c)) (hc : c.isEdge = false)
    (hi : Relinked H N D rows old new (pre ++ p) c t' rest) :
    Relinked H N D rows old new pre (.edge p c) (prepend p t') rest := by
  have hoff : ∀ q, ¬ p <+: q → rows rest (pre ++ q) = none := by
    intro q hq
    rw [hi.off _ (by rwa [prefix_append_right_inj]), h.2 q hq]
  refine ⟨(prefix_append _ _).trans hi.new_below, fun x hx => hi.off x
    fun hx' => hx ((prefix_append _ _).trans hx'),
    fun hr => ?_, fun hr => ?_⟩
  · obtain ⟨hold, hflat, hbot⟩ := hi.short hr
    exact ⟨by rw [hold, bottom_of_not_edge _ hc, bottom_edge], flat_prepend hflat hoff,
      by rw [bottom_prepend, hbot]⟩
  · obtain ⟨hflat, hbot⟩ := hi.long hr
    exact ⟨flat_prepend hflat hoff, by rw [bottom_prepend, hbot, bottom_of_not_edge _ hc, bottom_edge]⟩

end

/-! ### Inserting a leaf -/

/-- The rows after `insertOrUpdateValue`. -/
def insertRows (H : HashFn) (N : Path → Option Node) (nodeKey : Path) (node : Node) (sibling : StorageNode)
    (rest : List StorageNode) : Path → Option Node :=
  let commonKey := common nodeKey sibling.key
  let N' := update N commonKey (some (newParent H commonKey ⟨nodeKey, node⟩ sibling))
  let N' := match rest with
    | [] => N'
    | siblingParent :: _ =>
      update N' siblingParent.key (some (replaceLink siblingParent.node sibling.key commonKey))
  update N' nodeKey (some node)

theorem relinks_insertRows (H : HashFn) (N : Path → Option Node) (nodeKey : Path) (node : Node)
    (sibling : StorageNode) :
    Relinks (insertRows H N nodeKey node sibling) nodeKey sibling.key (common nodeKey sibling.key) where
  cons _ _ := rfl
  link above h := by simp [insertRows, update_of_ne h]
  other above x h := by
    by_cases hx : x = nodeKey
    · simp [insertRows, hx]
    · simp [insertRows, update_of_ne hx, update_of_ne h]

/-- The parent of a new leaf and the subtree it branches off from. -/
theorem newParent_split (H : HashFn) (pre m p k : Path) (b : Bool) (n : Node) (v : Felt)
    (hc : c.isEdge = false) :
    ∃ val, newParent H (pre ++ m) ⟨pre ++ (m ++ (!b) :: k), ⟨v, none⟩⟩ ⟨pre ++ (m ++ b :: p), n⟩ =
        ⟨val, some (links b (pre ++ (m ++ b :: p)) (pre ++ (m ++ (!b) :: k)))⟩ ∧
      (n.value = hash (hasher H) c →
        val = hash (hasher H) (fork b (prepend p c) (prepend k (.leaf v)))) := by
  have hpath : ∀ (a : Bool) (r : Path), path (pre ++ (m ++ a :: r)) (some (pre ++ m)) = r := by
    intro a r
    rw [path, ← append_assoc, ← singleton_append, ← append_assoc]
    exact drop_left' (by simp only [length_append, length_singleton])
  have hhash : ∀ (n : Node) (r : Path) (c : BitTree Felt), c.isEdge = false → n.value = hash (hasher H) c →
      n.hash r H = hash (hasher H) (prepend r c) := by
    intro n r c hc hn
    by_cases hr : r = []
    · subst hr
      simpa [Node.hash] using hn
    · rw [prepend_of_not_edge hr hc, Node.hash, if_neg fun h0 => hr (length_eq_zero_iff.mp h0), hn]
      rfl
  have hbit : bit (pre ++ (m ++ (!b) :: k)) (pre ++ m).length = !b := by
    rw [← append_assoc]
    simp [bit]
  unfold newParent
  rw [hbit]
  cases b
  · refine ⟨_, rfl, fun hn => ?_⟩
    simp only [Bool.not_false]
    rw [hpath, hpath, hhash n p c hc hn, hhash ⟨v, none⟩ k (.leaf v) rfl rfl]
    rfl
  · refine ⟨_, rfl, fun hn => ?_⟩
    simp only [Bool.not_true]
    rw [hpath, hpath, hhash n p c hc hn, hhash ⟨v, none⟩ k (.leaf v) rfl rfl]
    rfl

theorem common_pre (pre p q : Path) : common (pre ++ p) (pre ++ q) = pre ++ common p q := by
  induction pre with
  | nil => rfl
  | cons a pre ih => simp [common, ih]

/-- What writing a new leaf, its parent and the link to the parent makes of a subtree. The way to the key ends
at the leaf's sibling, and the new parent takes the sibling's place. -/
structure Inserted (H : HashFn) (N : Path → Option Node) (D : List Path) (v : Felt) (pre : Path)
    (t : BitTree Felt)
    (k : Path) (sib : StorageNode) (rest : List StorageNode) : Prop where
  way : spine N pre t k = sib :: rest
  key_ne : sib.key ≠ pre ++ k
  rows : Relinked H N D (insertRows H N (pre ++ k) ⟨v, none⟩ sib) sib.key (common (pre ++ k) sib.key) pre t
    (Patricia.insert v t k) rest

/-- A key that leaves the edge at the top of a subtree. -/
theorem inserted_split {q : Path} {n : ℕ} (h : Flat H N D pre (.edge (q ++ b :: p) c))
    (ht : Canonical (.edge (q ++ b :: p) c) n) :
    ∃ sib, Inserted H N D v pre (.edge (q ++ b :: p) c) (q ++ (!b) :: k) sib [] := by
  obtain ⟨-, hce, j, -, hc⟩ := id ht
  obtain ⟨row, hrow, hval⟩ := h.bottom_row ht
  rw [bottom_edge] at hrow hval
  have hcommon : common (pre ++ (q ++ (!b) :: k)) (pre ++ (q ++ b :: p)) = pre ++ q := by
    have := common_append_cons_not q k p (!b)
    rw [Bool.not_not] at this
    rw [common_pre, this]
  obtain ⟨val, hnp, hnpval⟩ := newParent_split H pre q p k b row v hce
  generalize hN' : insertRows H N (pre ++ (q ++ (!b) :: k)) ⟨v, none⟩ ⟨pre ++ (q ++ b :: p), row⟩ [] = N'
  have hkey : N' (pre ++ (q ++ (!b) :: k)) = some ⟨v, none⟩ := by
    simp [← hN', insertRows]
  have hpar :
      N' (pre ++ q) = some ⟨val, some (links b (pre ++ (q ++ b :: p)) (pre ++ (q ++ (!b) :: k)))⟩ := by
    simp only [← hN', insertRows, hcommon]
    rw [update_of_ne (by simp), update_self, hnp]
  have hold : ∀ x, x ≠ pre ++ q → x ≠ pre ++ (q ++ (!b) :: k) → N' x = N x := by
    intro x h1 h2
    simp only [← hN', insertRows, hcommon]
    rw [update_of_ne h2, update_of_ne h1]
  refine ⟨⟨pre ++ (q ++ b :: p), row⟩, by rw [spine_edge_off _ _ (by simp), rowOf_eq hrow], by simp,
    by rw [hcommon]; exact prefix_append _ _, fun x hx => ?_, fun _ => ⟨rfl, ?_, ?_⟩, by simp⟩
  · rw [hN']
    refine hold x ?_ ?_
    · rintro rfl
      exact hx (prefix_append _ _)
    · rintro rfl
      exact hx (prefix_append _ _)
  · rw [hN', insert_edge_split]
    refine flat_prepend (flat_fork val ?_ ?_ (flat_prepend ?_ fun x hx => ?_)
      (flat_prepend ⟨?_, fun x hx => ?_⟩ fun x hx => ?_)) fun x hx => ?_
    · rw [hpar, bottom_prepend, bottom_prepend, bottom_of_not_edge _ hce, bottom_leaf]
      simp
    · exact hval.imp hnpval fun hb => hb.above (by simp)
    · have hc' := h.1
      rw [show pre ++ (q ++ b :: p) = pre ++ q ++ [b] ++ p by simp] at hc'
      refine hc'.congr (fun x hx => hold x ?_ ?_) fun d hd => hd
      · rintro rfl
        have := hx.length_le
        simp only [length_append, length_singleton] at this
        omega
      · rintro rfl
        simp at hx
    · rw [hold _ (by simp) (by simp), append_assoc, append_assoc]
      exact h.2 _ (by simpa using hx)
    · simpa using hkey
    · rw [hold _ (by simp) (by simpa using hx)]
      simpa using h.2 (q ++ (!b) :: (k ++ x)) (by simp)
    · rw [hold _ (by simp) ?_]
      · simpa using h.2 (q ++ (!b) :: x) (by simp)
      · intro hx'
        simp only [append_assoc, singleton_append, append_cancel_left_eq, cons.injEq, true_and] at hx'
        exact hx (hx' ▸ prefix_refl _)
    · have hoff : ∀ r, q ++ r ≠ x := fun r hr => hx (hr ▸ prefix_append _ _)
      rw [hold _ ?_ ?_, h.2 x fun hqx => hx ((prefix_append _ _).trans hqx)]
      · intro hx'
        exact hoff [] (by simpa using hx'.symm)
      · intro hx'
        exact hoff _ (append_cancel_left hx').symm
  · rw [insert_edge_split, bottom_prepend, bottom_of_not_edge _ (by cases b <;> rfl), hcommon]

/-- **Writing a new leaf**, its parent and the link to the parent. -/
theorem insert_flat (hv : v ≠ 0) (h : Flat H N D pre t) (ha : Along t k) (hget : get t k = 0) :
    ∃ sib rest, Inserted H N D v pre t k sib rest := by
  induction ha generalizing pre with
  | leaf hw => exact absurd hget hw
  | @binary l r b k _ _ ih =>
    rw [get_binary_cons] at hget
    obtain ⟨sib, rest, hi⟩ := ih (h.side b) hget
    have happ : pre ++ b :: k = pre ++ [b] ++ k := by simp
    refine ⟨sib, rest ++ [rowOf N pre], ?_, ?_, ?_⟩
    · rw [spine_binary_cons, hi.way, cons_append]
    · rw [happ]
      exact hi.key_ne
    · rw [happ, insert_binary_cons]
      exact hi.rows.binary (relinks_insertRows _ _ _ _ _) h (prefix_append _ _)
  | @through p k c hp hce hc _ ih =>
    rw [get_edge_append] at hget
    obtain ⟨sib, rest, hi⟩ := ih h.1 hget
    have happ : pre ++ (p ++ k) = pre ++ p ++ k := by simp
    refine ⟨sib, rest, ?_, ?_, ?_⟩
    · rw [spine_edge_append, hi.way]
    · rw [happ]
      exact hi.key_ne
    · rw [happ, insert_edge_append, ← prepend_of_not_edge hp ((insert_canonical hv hc rfl).2 hce)]
      exact hi.rows.edge h hce
  | leaves ht =>
    obtain ⟨sib, hi⟩ := inserted_split h ht
    exact ⟨sib, [], hi⟩

/-! ### Deleting a leaf -/

/-- The rows after `deleteLast`, for a node with a parent. -/
def deleteRows (N : Path → Option Node) (key parentKey siblingKey : Path) (rest : List StorageNode) :
    Path → Option Node :=
  let N' := update (update N key none) parentKey none
  match rest with
  | [] => N'
  | grandParent :: _ =>
    update N' grandParent.key (some (replaceLink grandParent.node parentKey siblingKey))

theorem deleteRows_of_ne {parentKey sib x : Path} (hk : x ≠ key) (hp : x ≠ parentKey) :
    deleteRows N key parentKey sib [] x = N x := by
  simp only [deleteRows, update_of_ne hp, update_of_ne hk]

theorem relinks_deleteRows (N : Path → Option Node) (key parentKey sib : Path) :
    Relinks (deleteRows N key parentKey sib) key parentKey sib where
  cons _ _ := rfl
  link above _ := by simp [deleteRows]
  other above x h := by simp [deleteRows, update_of_ne h]

/-- A subtree that is no more than the key's leaf. -/
structure Alone (N : Path → Option Node) (pre : Path) (t : BitTree Felt) (k : Path) : Prop where
  tree : Patricia.delete t k = none
  way : spine N pre t k = [rowOf N (pre ++ k)]
  bottom_eq : bottom pre t = pre ++ k
  rows : ∀ q, q ≠ k → N (pre ++ q) = none

/-- What deleting a leaf and its parent, and linking the sibling in the parent's place, makes of a subtree
with a parent of the leaf in it. -/
structure Deleted (H : HashFn) (N : Path → Option Node) (D : List Path) (pre : Path)
    (t : BitTree Felt) (k : Path)
    (par : StorageNode) (c : Path × Path) (rest : List StorageNode) (t' : BitTree Felt) : Prop where
  tree : Patricia.delete t k = some t'
  way : spine N pre t k = rowOf N (pre ++ k) :: par :: rest
  children : par.node.children = some c
  rows : Relinked H N D (deleteRows N (pre ++ k) par.key (siblingKey c (pre ++ k))) par.key
    (siblingKey c (pre ++ k)) pre t t'
    rest

section

variable {t l r : BitTree Felt} {p k : Path} {b : Bool}

theorem siblingKey_links {x y : Path} (hxy : x ≠ y) : siblingKey (links b x y) x = y := by
  cases b
  · simp [siblingKey, links]
  · simp [siblingKey, links, hxy.symm]

/-- The key's side of a branch is no more than its leaf: the other side takes the branch's place. -/
theorem Alone.binary (h : Flat H N D pre (.binary l r)) (ha : Alone N (pre ++ [b]) (side b l r) k) :
    ∃ c, Deleted H N D pre (.binary l r) (b :: k) (rowOf N pre) c []
      (BitTree.prepend [!b] (BitTree.side (!b) l r)) := by
  have happ : pre ++ b :: k = pre ++ [b] ++ k := by simp
  obtain ⟨val, hrow⟩ := h.fork_inv b
  have hsib : siblingKey (links b (bottom (pre ++ [b]) (side b l r))
      (bottom (pre ++ [!b]) (side (!b) l r))) (pre ++ [b] ++ k) = bottom (pre ++ [!b]) (side (!b) l r) := by
    rw [← ha.bottom_eq, siblingKey_links (bottom_ne _ _ _)]
  refine ⟨_, ?_, ?_, by rw [rowOf_eq hrow], ?_, fun x hx => ?_, fun _ => ⟨rfl, ?_, ?_⟩, by simp⟩
  · rw [delete_binary_cons, ha.tree]
  · rw [spine_binary_cons, ha.way, happ, singleton_append]
  · rw [happ, hsib]
    exact (prefix_append _ _).trans (prefix_bottom _ _)
  · refine deleteRows_of_ne ?_ ?_
    · rintro rfl
      exact hx (prefix_append _ _)
    · rintro rfl
      exact hx (prefix_refl _)
  · rw [happ]
    refine flat_prepend ((h.side (!b)).congr (fun x hx => ?_) fun d hd => hd) fun x hx => ?_
    · refine deleteRows_of_ne ?_ (ne_of_side hx)
      rintro rfl
      simp at hx
    · cases x with
      | nil => simp [deleteRows, rowOf]
      | cons a x =>
        obtain rfl : a = b := by
          by_contra hab
          refine hx ?_
          rw [Bool.eq_not_of_ne hab]
          simp
        by_cases hxk : x = k
        · subst hxk
          rw [← happ, deleteRows, update_of_ne (by simp [rowOf]), update_self]
        · rw [deleteRows_of_ne (by simpa using hxk) (by simp [rowOf])]
          simpa using ha.rows x hxk
  · rw [happ, hsib, bottom_prepend]

theorem Alone.edge (h : Flat H N D pre (.edge p c)) (hc : c.isEdge = false)
    (ha : Alone N (pre ++ p) c k) : Alone N pre (.edge p c) (p ++ k) := by
  have happ : pre ++ (p ++ k) = pre ++ p ++ k := by simp
  refine ⟨?_, ?_, ?_, fun q hq => ?_⟩
  · rw [delete_edge_append, ha.tree, Option.map_none]
  · rw [spine_edge_append, ha.way, happ]
  · rw [happ, ← ha.bottom_eq, bottom_of_not_edge _ hc, bottom_edge]
  · by_cases hpq : p <+: q
    · obtain ⟨q, rfl⟩ := hpq
      rw [← append_assoc]
      exact ha.rows q (by simpa using hq)
    · exact h.2 q hpq

theorem delete_flat (h : Flat H N D pre t) (ha : Along t k) (hget : get t k ≠ 0) :
    Alone N pre t k ∨ ∃ par c rest t', Deleted H N D pre t k par c rest t' := by
  induction ha generalizing pre with
  | leaf =>
    refine .inl ⟨rfl, ?_, ?_, h.2⟩
    · rw [append_nil, spine]
    · rw [append_nil, bottom_leaf]
  | @binary l r b k _ _ ih =>
    rw [get_binary_cons] at hget
    rcases ih (h.side b) hget with ha | ⟨par, c, rest, t', hd⟩
    · obtain ⟨c, hd⟩ := ha.binary h
      exact .inr ⟨_, c, _, _, hd⟩
    · have happ : pre ++ b :: k = pre ++ [b] ++ k := by simp
      refine .inr ⟨par, c, rest ++ [rowOf N pre], fork b t' (side (!b) l r), ?_, ?_, hd.children, ?_⟩
      · rw [delete_binary_cons, hd.tree]
      · rw [spine_binary_cons, hd.way, happ, cons_append, cons_append]
      · rw [happ]
        exact hd.rows.binary (relinks_deleteRows _ _ _ _) h (prefix_append _ _)
  | @through p k e _ he _ _ ih =>
    rw [get_edge_append] at hget
    rcases ih h.1 hget with ha | ⟨par, c, rest, t', hd⟩
    · exact .inl (ha.edge h he)
    · have happ : pre ++ (p ++ k) = pre ++ p ++ k := by simp
      refine .inr ⟨par, c, rest, prepend p t', ?_, ?_, hd.children, ?_⟩
      · rw [delete_edge_append, hd.tree, Option.map_some]
      · rw [spine_edge_append, hd.way, happ]
      · rw [happ]
        exact hd.rows.edge h he
  | leaves => exact absurd (get_edge_off _ (by simp)) hget

end

end Juno.FlatTrie
