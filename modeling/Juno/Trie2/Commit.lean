import Juno.Trie2.Write

/-!
# Hashing and collecting the node-based trie

`hasher.hash` returns the hash of the tree a node represents, and leaves the node
with its hash cached. `collector.collect` adds to a node set the rows of the
modified part of the tree; the rest has its rows in the store already.
-/

namespace Juno.Trie2

open Lib Lib.Patricia Node NodeSet

variable {n : Node}

/-- A node as it appears in its parent's row: a value at the bottom, a hash above. -/
def collapsedOf (H : HashFn) (t : BitTree Felt) : Node :=
  match t with
  | .leaf v => .value v
  | t => .hash (Patricia.hash (hasher H) t)

def rowOf (H : HashFn) (t : BitTree Felt) : TrieNode :=
  match t with
  | .leaf v => .leaf v (.felt v)
  | t => .nonLeaf (Patricia.hash (hasher H) t) (blobOf H t)

variable {H : HashFn} {nz : Prop} {E : Path → Option Blob} {pre : Path}

section

variable (t : BitTree Felt)

@[simp] theorem hashOf_collapsedOf : (collapsedOf H t).hashOf H = .ok (Patricia.hash (hasher H) t) := by
  cases t <;> rfl

@[simp] theorem encodeNode_collapsedOf :
    encodeNode (collapsedOf H t) = some (.felt (Patricia.hash (hasher H) t)) := by
  cases t <;> rfl

@[simp] theorem blob_rowOf : (rowOf H t).blob = some (blobOf H t) := by
  cases t <;> rfl

@[simp] theorem isLeaf_rowOf : (rowOf H t).isLeaf = isLeafTree t := by
  cases t <;> rfl

end

@[simp] theorem collapsedOf_binary (l r : BitTree Felt) :
    collapsedOf H (.binary l r) = .hash (Patricia.hash (hasher H) (.binary l r)) := rfl

@[simp] theorem collapsedOf_edge (p : Path) (c : BitTree Felt) :
    collapsedOf H (.edge p c) = .hash (Patricia.hash (hasher H) (.edge p c)) := rfl

@[simp] theorem rowOf_binary (l r : BitTree Felt) :
    rowOf H (.binary l r) = .nonLeaf (Patricia.hash (hasher H) (.binary l r)) (blobOf H (.binary l r)) := rfl

@[simp] theorem rowOf_edge (p : Path) (c : BitTree Felt) :
    rowOf H (.edge p c) = .nonLeaf (Patricia.hash (hasher H) (.edge p c)) (blobOf H (.edge p c)) := rfl

variable {t : BitTree Felt}

theorem collapsedOf_of_not_leaf (h : isLeafTree t = false) :
    collapsedOf H t = .hash (Patricia.hash (hasher H) t) := by
  cases t with
  | leaf v => simp [isLeafTree] at h
  | binary l r => rfl
  | edge p c => rfl

/-! ### Hashing -/

theorem FlagsOk.hashed {flags : NodeFlag} {cc cc' : Prop} (h : FlagsOk H nz E pre t flags cc) (hc : cc') :
    FlagsOk H nz E pre t { flags with hash := some (Patricia.hash (hasher H) t) } cc' :=
  ⟨by simp, fun _ _ _ => hc, h.stored⟩

theorem hash_of_not_inner (h0 : n ≠ .nil) (h : n.isInner = false) : hash H n = .ok (n, n) := by
  cases n with
  | nil => exact absurd rfl h0
  | value v => rfl
  | hash x => rfl
  | edge | binary => simp [isInner] at h

/-- **`hasher.hash` computes the hash of the tree**, and caches it. -/
theorem hash_rep (h : Rep H nz E pre n t) :
    ∃ n', hash H n = .ok (collapsedOf H t, n') ∧ Rep H nz E pre n' t ∧ n'.Cached ∧
      (n.Resolved → n'.Resolved) ∧ n'.cache.2 = n.cache.2 := by
  induction h with
  | value pre v => exact ⟨.value v, rfl, .value _ _, by simp [Cached, isInner], id, rfl⟩
  | @hash pre t hl hs =>
    refine ⟨.hash (Patricia.hash (hasher H) t), ?_, .hash hl hs, by simp [Cached, isInner], id, rfl⟩
    rw [collapsedOf_of_not_leaf hl]
    rfl
  | @edge pre p c t flags hc hf ih =>
    cases hh : flags.hash with
    | some x =>
      obtain rfl := hf.hash_eq x hh
      exact ⟨_, by simp [hash, hh], .edge hc hf, by simp [Cached, cache, hh], id, rfl⟩
    | none =>
      obtain ⟨c', hc', hrep', hcached, -⟩ := ih
      refine ⟨_, ?_, .edge hrep' (hf.hashed hcached), by simp [Cached, cache], id, rfl⟩
      cases hin : c.isInner with
      | true =>
        simp only [hash, hh, hin, if_true, hc', ok_bind, hashOf, hashOf_collapsedOf, pure_eq_ok]
        rfl
      | false =>
        rw [hash_of_not_inner hc.ne_nil hin] at hc'
        simp only [Except.ok.injEq, Prod.mk.injEq] at hc'
        obtain ⟨hcc, rfl⟩ := hc'
        rw [hash]
        simp only [hh, hin, Bool.false_eq_true, if_false, hashOf]
        rw [hcc, ok_bind, hashOf_collapsedOf]
        rfl
  | @binary pre l r t u flags hl hr hf ihl ihr =>
    cases hh : flags.hash with
    | some x =>
      obtain rfl := hf.hash_eq x hh
      exact ⟨_, by simp [hash, hh], .binary hl hr hf, by simp [Cached, cache, hh], id, rfl⟩
    | none =>
      obtain ⟨l', hl', hrl, hcl, -⟩ := ihl
      obtain ⟨r', hr', hrr, hcr, -⟩ := ihr
      refine ⟨_, ?_, .binary hrl hrr (hf.hashed ⟨hcl, hcr⟩), by simp [Cached, cache], id, rfl⟩
      simp only [hash, hh, hl.ne_nil, hr.ne_nil, if_false, hl', hr', ok_bind, hashOf,
        hashOf_collapsedOf, pure_eq_ok]
      rfl

theorem Rep.cache_eq (h : Rep H nz E pre n t) (hres : n.Resolved) (hl : isLeafTree t = false)
    (hc : n.Cached) :
    n.cache.1 = some (Patricia.hash (hasher H) t) ∧ (n.cache.2 = false → Stored H nz E pre t) := by
  have hflags : ∀ {flags : NodeFlag} {cc : Prop}, FlagsOk H nz E pre t flags cc → flags.hash.isSome = true →
      flags.hash = some (Patricia.hash (hasher H) t) := by
    intro flags cc hf hs
    obtain ⟨x, hx⟩ := Option.isSome_iff_exists.mp hs
    rw [hx, hf.hash_eq x hx]
  cases h with
  | value => simp [isLeafTree] at hl
  | hash => exact hres.elim
  | edge _ hf | binary _ _ hf => exact ⟨hflags hf (hc rfl), hf.stored⟩

/-! ### Collecting -/

/-- What collecting adds to a node set: rows of the tree, and for each node of the tree its row unless
the store has it. -/
def Collected (H : HashFn) (E : Path → Option Blob) (pre : Path) (t : BitTree Felt)
    (ns ns' : Path → Option TrieNode) : Prop :=
  ∀ q, (ns' q = ns q ∧ ∀ s u, q = pre ++ s → nodeAt t s = some u → E q = some (blobOf H u)) ∨
    ∃ s u, q = pre ++ s ∧ nodeAt t s = some u ∧ ns' q = some (rowOf H u)

theorem Stored.collected (hs : Stored H nz E pre t) (ns : Path → Option TrieNode) :
    Collected H E pre t ns ns := by
  intro q
  refine .inl ⟨rfl, ?_⟩
  rintro s u rfl hu
  rw [hs.row, hu, Option.map_some]

theorem Collected.binary {l r : BitTree Felt} {ns ns' ns'' : NodeSet}
    (hl : Collected H E (pre ++ [false]) l ns.nodes ns'.nodes)
    (hr : Collected H E (pre ++ [true]) r ns'.nodes ns''.nodes) :
    Collected H E pre (.binary l r) ns.nodes (ns''.add pre (rowOf H (.binary l r))).nodes := by
  intro q
  by_cases hq : q = pre
  · subst hq
    exact .inr ⟨[], _, by simp, nodeAt_nil _, by simp [add]⟩
  · simp only [add, Function.update_of_ne hq]
    rcases hr q with ⟨hr1, hr2⟩ | ⟨s, u, rfl, hu, hs⟩
    · rcases hl q with ⟨hl1, hl2⟩ | ⟨s, u, rfl, hu, hs⟩
      · refine .inl ⟨hr1.trans hl1, ?_⟩
        rintro s u rfl hu
        cases s with
        | nil => simp at hq
        | cons b s =>
          cases b
          · exact hl2 s u (by simp) (by simpa using hu)
          · exact hr2 s u (by simp) (by simpa using hu)
      · exact .inr ⟨false :: s, u, by simp, by simpa using hu, hr1.trans hs⟩
    · exact .inr ⟨true :: s, u, by simp, by simpa using hu, hs⟩

theorem Collected.edge {p : Path} (hp : p ≠ []) {c : BitTree Felt} {ns ns' : NodeSet}
    (hc : Collected H E (pre ++ p) c ns.nodes ns'.nodes) :
    Collected H E pre (.edge p c) ns.nodes (ns'.add pre (rowOf H (.edge p c))).nodes := by
  intro q
  by_cases hq : q = pre
  · subst hq
    exact .inr ⟨[], _, by simp, nodeAt_nil _, by simp [add]⟩
  · simp only [add, Function.update_of_ne hq]
    rcases hc q with ⟨hc1, hc2⟩ | ⟨s, u, rfl, hu, hs⟩
    · refine .inl ⟨hc1, ?_⟩
      rintro s u rfl hu
      rcases nodeAt_edge_cases hp c s with ⟨rfl, -⟩ | ⟨s', rfl, h⟩ | ⟨-, -, h⟩
      · simp at hq
      · exact hc2 s' u (by simp) (h ▸ hu)
      · rw [h] at hu
        cases hu
    · exact .inr ⟨p ++ s, u, by simp, by rwa [nodeAt_edge_append hp], hs⟩

/-- **`collector.collect` adds the rows that are missing** from the store. -/
theorem collect_rep (hz : nz) (h : Rep H nz E pre n t) : ∀ {m : ℕ} (ns : NodeSet),
    Canonical t m → n.Cached → ∃ ns', collect ns pre n = .ok (collapsedOf H t, ns') ∧ ns'.owner = ns.owner ∧
      Collected H E pre t ns.nodes ns'.nodes := by
  induction h with
  | value pre v =>
    intro m ns _ _
    refine ⟨ns.add pre (.leaf v (.felt v)), rfl, rfl, fun q => ?_⟩
    by_cases hq : q = pre
    · subst hq
      exact .inr ⟨[], _, by simp, nodeAt_nil _, by simp [add, rowOf]⟩
    · refine .inl ⟨by simp [add, Function.update_of_ne hq], ?_⟩
      rintro s u rfl hu
      cases s with
      | nil => simp at hq
      | cons b s => simp at hu
  | hash hl hs =>
    intro m ns _ _
    exact ⟨ns, by rw [collapsedOf_of_not_leaf hl]; rfl, rfl, hs.collected _⟩
  | @edge pre p c t flags hc hf ih =>
    intro m ns ht hcached
    obtain ⟨x, hx⟩ := Option.isSome_iff_exists.mp (hcached rfl)
    replace hx : flags.hash = some x := hx
    obtain rfl := hf.hash_eq x hx
    cases hd : flags.dirty with
    | false => exact ⟨ns, by simp [collect, hx, hd], rfl, (hf.stored hd).collected _⟩
    | true =>
      obtain ⟨hp, -, k, rfl, hct⟩ := ht
      obtain ⟨ns', hcol, how, hc'⟩ := ih ns hct (hf.cached hz (by simp [hx]) hd)
      refine ⟨ns'.add pre (rowOf H (.edge p t)), ?_, how, hc'.edge hp⟩
      simp [collect, hx, hd, hcol, store, encodeNode, cache, blobOf]
  | @binary pre l r t u flags hl hr hf ihl ihr =>
    intro m ns ht hcached
    obtain ⟨x, hx⟩ := Option.isSome_iff_exists.mp (hcached rfl)
    replace hx : flags.hash = some x := hx
    obtain rfl := hf.hash_eq x hx
    cases hd : flags.dirty with
    | false => exact ⟨ns, by simp [collect, hx, hd], rfl, (hf.stored hd).collected _⟩
    | true =>
      obtain ⟨k, rfl, hlt, hrt⟩ := ht
      obtain ⟨hcl, hcr⟩ := hf.cached hz (by simp [hx]) hd
      obtain ⟨ns', hcol, how, hl'⟩ := ihl ns hlt hcl
      obtain ⟨ns'', hcol', how', hr'⟩ := ihr ns' hrt hcr
      refine ⟨ns''.add pre (rowOf H (.binary t u)), ?_, how'.trans how, hl'.binary hr'⟩
      simp [collect, hx, hd, hcol, hcol', store, encodeNode, cache, blobOf]

end Juno.Trie2
