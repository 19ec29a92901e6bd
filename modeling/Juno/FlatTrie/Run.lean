import Juno.FlatTrie.Rep
import Juno.Trie2.Run

/-!
# Runs of the flat trie

What any sequence of calls on a `core/trie` trie answers. The specification is the one
of the node-based trie: a map from keys to values, whose commitment is the root.

The main result is `calls_agree_iff`.
-/

namespace Juno.FlatTrie

open Lib Lib.Patricia Patricia List Trie Canonical

variable {H : HashFn} {N N' : Path → Option Node} {D D' : List Path} {pre : Path} {height : ℕ}

/-! ### Bringing the values up to date -/

open Trie

theorem isDirty_iff {key : Path} : isDirty D key = true ↔ Below D key := by
  simp only [isDirty, any_eq_true, Bool.and_eq_true, decide_eq_true_eq, Below]
  refine exists_congr fun d => and_congr_right fun _ => ⟨fun ⟨hlt, hms⟩ => ?_, fun ⟨hpre, hne⟩ => ?_⟩
  · have hmin : min key.length d.length = key.length := by omega
    rw [equalMSBs, hmin, take_length, beq_iff_eq] at hms
    refine ⟨hms ▸ take_prefix _ _, ?_⟩
    rintro rfl
    omega
  · obtain ⟨q, rfl⟩ := hpre
    refine ⟨?_, equalMSBs_append key q⟩
    have : q ≠ [] := by
      rintro rfl
      simp at hne
    have := length_pos_of_ne_nil this
    simp only [length_append]
    omega

variable {t : BitTree Felt}

/-- Where no key is dirty, every value is up to date. -/
theorem Flat.clean : ∀ {pre : Path}, Flat H N D pre t → ¬ Below D pre → Flat H N [] pre t := by
  induction t with
  | leaf v => exact fun h _ => h
  | binary l r ihl ihr =>
    intro pre h hb
    obtain ⟨⟨val, hrow, hval⟩, hl, hr⟩ := h
    have hside : ∀ b : Bool, ¬ Below D (pre ++ [b]) := fun b hb' => hb (hb'.above (prefix_append _ _))
    exact ⟨⟨val, hrow, .inl (hval.resolve_right hb)⟩, ihl hl (hside false), ihr hr (hside true)⟩
  | edge p c ih =>
    intro pre h hb
    exact ⟨ih h.1 fun hb' => hb (hb'.above (prefix_append _ _)), h.2⟩

/-- What recomputing a subtree's values does. -/
structure Updated (H : HashFn) (s : Storage) (pre : Path) (t : BitTree Felt) (n : Node)
    (s' : Storage) : Prop where
  value : n.value = hash (hasher H) (tip t)
  rows : Flat H s'.nodes [] pre t
  off : ∀ x, ¬ pre <+: x → s'.nodes x = s.nodes x
  rootKey : s'.rootKey = s.rootKey

theorem updateValueIfDirty_flat :
    ∀ {s : Storage} {pre : Path} {m fuel : ℕ}, Flat H s.nodes D pre t →
    Canonical t m → pre.length + m = height → m + 1 ≤ fuel →
      ∃ n s', updateValueIfDirty height H D fuel (bottom pre t) s = .ok (n, s') ∧ Updated H s pre t n s' := by
  induction t with
  | leaf v =>
    intro s pre m fuel h ht hm hfuel
    obtain ⟨rfl, -⟩ := ht
    obtain ⟨fuel, rfl⟩ := Nat.exists_eq_succ_of_ne_zero (show fuel ≠ 0 by omega)
    refine ⟨⟨v, none⟩, s, ?_, rfl, h, fun _ _ => rfl, rfl⟩
    have hget : s.get pre = .ok ⟨v, none⟩ := by
      rw [Storage.get, h.1]
    rw [updateValueIfDirty, bottom_leaf, hget, ok_bind, if_pos (show pre.length = height from hm)]
    rfl
  | binary l r ihl ihr =>
    intro s pre m fuel h ht hm hfuel
    obtain ⟨j, rfl, hl, hr⟩ := ht
    obtain ⟨fuel, rfl⟩ := Nat.exists_eq_succ_of_ne_zero (show fuel ≠ 0 by omega)
    obtain ⟨⟨val, hrow, hval⟩, hfl, hfr⟩ := id h
    have hne : pre.length ≠ height := by omega
    have hget : s.get pre = .ok ⟨val, some (bottom (pre ++ [false]) l, bottom (pre ++ [true]) r)⟩ := by
      rw [Storage.get, hrow]
    by_cases hd : Below D pre
    · have hlen : ∀ b : Bool, (pre ++ [b]).length + j = height := by
        intro b
        rw [length_append, length_singleton]
        omega
      obtain ⟨nl, s₁, hrunl, hupl⟩ := ihl hfl hl (hlen false) (show j + 1 ≤ fuel by omega)
      have hfr₁ : Flat H s₁.nodes D (pre ++ [true]) r :=
        hfr.congr (fun x hx => hupl.off x (not_prefix_side (b := false) hx)) fun _ => id
      obtain ⟨nr, s₂, hrunr, hupr⟩ := ihr hfr₁ hr (hlen true) (show j + 1 ≤ fuel by omega)
      have hfl₂ : Flat H s₂.nodes [] (pre ++ [false]) l :=
        hupl.rows.congr (fun x hx => hupr.off x (not_prefix_side (b := true) hx)) fun _ => id
      have hval' : H (nl.hash (edgePath l) H) (nr.hash (edgePath r) H) = hash (hasher H) (.binary l r) := by
        rw [Node.hash_edgePath hl hupl.value, Node.hash_edgePath hr hupr.value]
        rfl
      refine ⟨⟨H (nl.hash (edgePath l) H) (nr.hash (edgePath r) H),
        some (bottom (pre ++ [false]) l, bottom (pre ++ [true]) r)⟩,
        s₂.put pre _, ?_, hval', ⟨⟨_, Function.update_self _ _ _, .inl hval'⟩, hfl₂.congr ?_ fun _ => id,
          hupr.rows.congr ?_ fun _ => id⟩, fun x hx => ?_, ?_⟩
      · rw [updateValueIfDirty, bottom_binary, hget, ok_bind, if_neg hne, if_neg]
        · simp only [hrunl, hrunr, ok_bind, path_bottom]
          rfl
        · rw [isDirty_iff.mpr hd]
          exact Bool.false_ne_true
      · exact fun x hx => Function.update_of_ne (ne_of_side hx) _ _
      · exact fun x hx => Function.update_of_ne (ne_of_side hx) _ _
      · have hside : ∀ b : Bool, ¬ pre ++ [b] <+: x := fun b hb => hx ((prefix_append _ _).trans hb)
        have hxp : x ≠ pre := by
          rintro rfl
          exact hx (prefix_refl _)
        simp only [Storage.put]
        rw [Function.update_of_ne hxp, hupr.off x (hside true), hupl.off x (hside false)]
      · rw [Storage.put, hupr.rootKey, hupl.rootKey]
    · refine ⟨⟨val, some (bottom (pre ++ [false]) l, bottom (pre ++ [true]) r)⟩, s, ?_, hval.resolve_right hd,
        h.clean hd, fun _ _ => rfl, rfl⟩
      rw [updateValueIfDirty, bottom_binary, hget, ok_bind, if_neg hne, if_pos]
      · rfl
      · rw [Bool.not_eq_true', ← Bool.not_eq_true, isDirty_iff]
        exact hd
  | edge p c ih =>
    intro s pre m fuel h ht hm hfuel
    obtain ⟨hp, hce, j, rfl, hc⟩ := ht
    have hlen : (pre ++ p).length + j = height := by
      rw [length_append]
      omega
    obtain ⟨n, s', hrun, hup⟩ := ih h.1 hc hlen (show j + 1 ≤ fuel by omega)
    rw [bottom_of_not_edge _ hce] at hrun
    refine ⟨n, s', hrun, ?_, ⟨hup.rows, fun q hq => ?_⟩, fun x hx => hup.off x fun hx' => hx ?_, hup.rootKey⟩
    · cases c with
      | edge q c => simp [BitTree.isEdge] at hce
      | leaf | binary => exact hup.value
    · rw [hup.off _ (by rwa [prefix_append_right_inj]), h.2 q hq]
    · exact (prefix_append _ _).trans hx'

/-! ### The invariant -/

/-- The rows represent a tree that may be empty. -/
def Rows (H : HashFn) (N : Path → Option Node) (D : List Path) : Option (BitTree Felt) → Prop
  | none => ∀ q, N q = none
  | some t => Flat H N D [] t

/-- **The trie holds the tree**: what every call keeps. -/
structure Models (height : ℕ) (H : HashFn) (t : Trie) (tree : Option (BitTree Felt)) : Prop where
  height_eq : t.height = height
  hashFn_eq : t.hashFn = H
  canonical : Canonical? tree height
  rootKey : t.rootKey = tree.map (bottom [])
  rows : Rows H t.storage.nodes t.dirtyNodes tree
  saved : t.rootKeyIsDirty = false → t.storage.rootKey = t.rootKey

variable {t : Trie} {tree : Option (BitTree Felt)} {k : Path}

theorem Rows.key_row (h : Rows H N D tree) (hc : Canonical? tree height) (hk : k.length = height) :
    N k = if get? tree k = 0 then none else some ⟨get? tree k, none⟩ := by
  cases tree with
  | none => rw [h, get?_none, if_pos rfl]
  | some u => exact Flat.key_row (show Flat H N D [] u from h) (along hc hk)

theorem Models.get_ok (h : Models height H t tree) (key : Felt) :
    t.get key = .ok (get? tree (feltToPath height key)) := by
  have hrow := h.rows.key_row h.canonical (length_feltToPath height key)
  rw [Trie.get, h.height_eq, Storage.get, hrow]
  by_cases h0 : get? tree (feltToPath height key) = 0
  · rw [if_pos h0, h0]
  · rw [if_neg h0]

variable {key : Felt}

theorem not_gt_maxKey (hh : t.height ≤ 251) : ¬ key > t.maxKey ↔ key.val < 2 ^ t.height := by
  have hpos : 0 < 2 ^ t.height := Nat.two_pow_pos _
  have hval : (Fin.ofNat P (2 ^ t.height)).val = 2 ^ t.height := Nat.mod_eq_of_lt (two_pow_le_P hh)
  have hone : (1 : Felt).val = 1 := by decide +kernel
  have hmax : t.maxKey.val = 2 ^ t.height - 1 := by
    rw [maxKey, Fin.sub_val_of_le, hval, hone]
    rw [Fin.le_def, hval, hone]
    exact hpos
  rw [gt_iff_lt, Fin.lt_def, hmax]
  omega

theorem Models.nodesFromRoot (h : Models height H t tree) (hk : k.length = height) :
    t.nodesFromRoot k = .ok ((tree.map (spine t.storage.nodes [] · k)).getD []).reverse := by
  rw [Trie.nodesFromRoot, h.rootKey, h.height_eq]
  cases tree with
  | none => rfl
  | some u =>
    have := nodesFrom_spine (show Flat H t.storage.nodes _ [] u from h.rows) (along h.canonical hk)
      (show k.length + 1 ≤ height + 2 by omega) (show ([] : List StorageNode) ≠ [] → ([] : Path) ≠ [] by simp)
    simpa using this

/-! ### `Put`, case by case -/

/-- The trie after a write in the place of a row: the root moves, or the rows above are dirty. -/
def Trie.relinked (t : Trie) (rows : List StorageNode → Path → Option Node) (new : Path)
    (rest : List StorageNode) : Trie :=
  { t with
    storage := { t.storage with nodes := rows rest }
    rootKey := if rest = [] then some new else t.rootKey
    rootKeyIsDirty := if rest = [] then true else t.rootKeyIsDirty
    dirtyNodes := if rest = [] then t.dirtyNodes else t.dirtyNodes ++ [new] }

theorem Models.relinked {u u' : BitTree Felt} {rows : List StorageNode → Path → Option Node} {old new : Path}
    {rest : List StorageNode} (h : Models height H t (some u)) (hcan : Canonical u' height)
    (hr : Relinked H t.storage.nodes t.dirtyNodes rows old new [] u u' rest) :
    Models height H (t.relinked rows new rest) (some u') := by
  cases rest with
  | nil =>
    obtain ⟨-, hflat, hbot⟩ := hr.short rfl
    exact ⟨h.height_eq, h.hashFn_eq, hcan, by rw [Option.map_some, hbot]; rfl, hflat, fun hs => by cases hs⟩
  | cons above rest =>
    obtain ⟨hflat, hbot⟩ := hr.long (by simp)
    exact ⟨h.height_eq, h.hashFn_eq, hcan, by rw [Option.map_some, hbot]; exact h.rootKey, hflat, h.saved⟩

section

variable {key value : Felt} {k : Path} {u : BitTree Felt}

theorem exists_of_get? (h : get? tree k ≠ 0) : ∃ u, tree = some u ∧ get u k ≠ 0 := by
  cases tree with
  | none => exact absurd rfl h
  | some u => exact ⟨u, rfl, h⟩

section

variable (h : Models height H t tree)
include h

section

variable (hkey : ¬ key > t.maxKey)
include hkey

theorem Models.put_existing (hv : value ≠ 0) (hget : get? tree (feltToPath height key) ≠ 0) :
    ∃ t', t.put key value = (.ok (some (get? tree (feltToPath height key))), t') ∧
      Models height H t' (update tree (feltToPath height key) value) := by
  obtain rfl := h.height_eq
  have hlen := length_feltToPath t.height key
  have hrow := h.rows.key_row h.canonical hlen
  rw [if_neg hget] at hrow
  have hcan := update_canonical h.canonical hlen value
  obtain ⟨u, rfl, hu⟩ := exists_of_get? hget
  obtain ⟨hflat, hbot⟩ :=
      updateLeaf_flat (v := value) (show Flat H _ _ [] u from h.rows) (along h.canonical hlen) hu
  rw [nil_append] at hflat
  rw [update, if_neg hv] at hcan ⊢
  refine ⟨{ t with
    storage := t.storage.put (feltToPath t.height key) ⟨value, none⟩
    dirtyNodes := t.dirtyNodes ++ [feltToPath t.height key] }, ?_, ⟨rfl, h.hashFn_eq, hcan, ?_,
      hflat, h.saved⟩⟩
  · rw [put, if_neg hkey]
    simp only [if_neg hv, hrow]
  · rw [insert?, Option.map_some, hbot]
    exact h.rootKey

theorem Models.put_absent (hget : get? tree (feltToPath height key) = 0) : t.put key 0 = (.ok none, t) := by
  obtain rfl := h.height_eq
  have hlen := length_feltToPath t.height key
  have hnodes := h.nodesFromRoot hlen
  rw [put, if_neg hkey]
  simp only [if_true, hnodes]
  cases tree with
  | none => rfl
  | some u =>
    obtain ⟨sib, rest, hi⟩ := insert_flat (v := 1) (by decide +kernel) (show Flat H _ _ [] u from h.rows)
      (along h.canonical hlen) hget
    have hne : feltToPath t.height key ≠ sib.key := fun heq => hi.key_ne heq.symm
    simp only [Option.map_some, Option.getD_some, hi.way, getLast?_reverse, head?_cons, if_neg hne]

theorem Models.put_new (hv : value ≠ 0) (hget : get? tree (feltToPath height key) = 0) :
    ∃ t', t.put key value = (.ok (some 0), t') ∧
      Models height H t' (update tree (feltToPath height key) value) := by
  obtain rfl := h.height_eq
  obtain rfl := h.hashFn_eq
  have hlen := length_feltToPath t.height key
  have hnodes := h.nodesFromRoot hlen
  have hrow := h.rows.key_row h.canonical hlen
  rw [if_pos hget] at hrow
  have hcan := update_canonical h.canonical hlen value
  rw [update, if_neg hv] at hcan ⊢
  cases tree with
  | none =>
    refine ⟨{ t with storage := t.storage.put (feltToPath t.height key) ⟨value, none⟩ }.setRootKey
      (some (feltToPath t.height key)), ?_, ⟨rfl, h.hashFn_eq, hcan, ?_, ?_, fun hs => by cases hs⟩⟩
    · rw [put, if_neg hkey]
      simp only [if_neg hv, hrow, hnodes]
      rfl
    · rw [insert?, Option.map_some, bottom_prepend]
      rfl
    · have hvac : ∀ q, t.storage.nodes q = none := h.rows
      refine flat_prepend ⟨Function.update_self _ _ _, fun q hq => ?_⟩ fun q hq => ?_
      · exact (Function.update_of_ne (by simpa using hq) _ _).trans (hvac _)
      · refine (Function.update_of_ne ?_ _ _).trans (hvac _)
        rintro rfl
        exact hq (prefix_refl _)
  | some u =>
    obtain ⟨sib, rest, hi⟩ := insert_flat hv (show Flat _ _ _ [] u from h.rows) (along h.canonical hlen) hget
    have hne : feltToPath t.height key ≠ sib.key := fun heq => hi.key_ne heq.symm
    refine ⟨_, ?_, h.relinked hcan hi.rows⟩
    rw [put, if_neg hkey]
    simp only [if_neg hv, hrow, hnodes, Option.map_some, Option.getD_some, hi.way,
      getLast?_reverse, head?_cons,
      if_neg hne, insertOrUpdateValue, reverse_reverse]
    cases rest with
    | nil => rfl
    | cons par rest => rfl

theorem Models.put_delete (hget : get? tree (feltToPath height key) ≠ 0) :
    ∃ t', t.put key 0 = (.ok (some (get? tree (feltToPath height key))), t') ∧
      Models height H t' (update tree (feltToPath height key) 0) := by
  obtain rfl := h.height_eq
  have hlen := length_feltToPath t.height key
  have hnodes := h.nodesFromRoot hlen
  have hrow := h.rows.key_row h.canonical hlen
  rw [if_neg hget] at hrow
  have hcan := update_canonical h.canonical hlen 0
  obtain ⟨u, rfl, hu⟩ := exists_of_get? hget
  have hlast := rowOf_eq hrow
  rw [update, if_pos rfl, Option.bind_some] at hcan ⊢
  rcases delete_flat (show Flat H _ _ [] u from h.rows) (along h.canonical hlen) hu
    with ha | ⟨par, c, rest, t', hd⟩
  · refine ⟨{ t with storage := t.storage.delete (feltToPath t.height key) }.setRootKey none, ?_,
      ⟨rfl, h.hashFn_eq, hcan, ?_, ?_, fun hs => by cases hs⟩⟩
    · rw [put, if_neg hkey]
      simp only [if_true, hnodes, Option.map_some, Option.getD_some, ha.way, getLast?_reverse, head?_cons,
        nil_append, hlast, deleteLast, reverse_reverse]
    · rw [ha.tree]
      rfl
    · rw [ha.tree]
      intro q
      by_cases hq : q = feltToPath t.height key
      · rw [hq]
        exact Function.update_self _ _ _
      · exact (Function.update_of_ne hq _ _).trans (ha.rows q hq)
  · rw [hd.tree] at hcan ⊢
    refine ⟨_, ?_, h.relinked hcan hd.rows⟩
    rw [put, if_neg hkey]
    simp only [if_true, hnodes, Option.map_some, Option.getD_some, hd.way, getLast?_reverse, head?_cons,
      nil_append, hlast, deleteLast, reverse_reverse, hd.children]
    cases rest with
    | nil => rfl
    | cons gp rest => rfl

end

/-- **`Put`** writes the key, and returns its old value unless there is nothing to do. -/
theorem Models.put_ok (hh : height ≤ 251) (hkey : key.val < 2 ^ height) (value : Felt) :
    ∃ t', t.put key value =
        (.ok (if value = 0 ∧ get? tree (feltToPath height key) = 0 then none
          else some (get? tree (feltToPath height key))), t') ∧
      Models height H t' (update tree (feltToPath height key) value) := by
  have hmax : ¬ key > t.maxKey := (not_gt_maxKey (h.height_eq ▸ hh)).mpr (h.height_eq ▸ hkey)
  by_cases hv : value = 0
  · by_cases hget : get? tree (feltToPath height key) = 0
    · refine ⟨t, ?_, ?_⟩
      · rw [hv, if_pos ⟨rfl, hget⟩, h.put_absent hmax hget]
      · rw [hv, ← hget, update_get? h.canonical (length_feltToPath height key)]
        exact h
    · rw [hv, if_neg fun hc => hget hc.2]
      exact h.put_delete hmax hget
  · rw [if_neg fun hc => hv hc.1]
    by_cases hget : get? tree (feltToPath height key) = 0
    · rw [hget]
      exact h.put_new hmax hv hget
    · exact h.put_existing hmax hv hget

end

end

/-! ### `Hash` -/

/-- A trie with nothing to be written: what its rows are read back as. -/
def Trie.Saved (t : Trie) : Prop := t.dirtyNodes = [] ∧ t.rootKeyIsDirty = false

/-- **`Hash`** returns the hash of the tree, and leaves no value out of date. -/
theorem Models.hash_ok (h : Models height H t tree) :
    ∃ t', t.hash = (.ok (hash? (hasher H) tree), t') ∧ Models height H t' tree ∧ t'.Saved := by
  obtain ⟨rfl, rfl, hcan, hroot, hrows, hsaved⟩ := id h
  obtain ⟨s, hs, hsnodes, hskey⟩ : ∃ s : Storage,
      (if t.rootKeyIsDirty then
        { t with storage := { t.storage with rootKey := t.rootKey }, rootKeyIsDirty := false } else t) =
        { t with storage := s, rootKeyIsDirty := false } ∧
      s.nodes = t.storage.nodes ∧ s.rootKey = t.rootKey := by
    cases hd : t.rootKeyIsDirty with
    | true => exact ⟨_, if_pos rfl, rfl, rfl⟩
    | false =>
      refine ⟨t.storage, ?_, rfl, hsaved hd⟩
      rw [if_neg Bool.false_ne_true, ← hd]
  unfold Trie.hash
  rw [hs]
  cases tree with
  | none =>
    have hnone : t.rootKey = none := hroot
    simp only [hnone]
    exact ⟨_, rfl,
      ⟨rfl, rfl, hcan, rfl, fun q => by simpa [hsnodes] using hrows q, fun _ => hskey.trans hnone⟩, rfl, rfl⟩
  | some u =>
    have hsome : t.rootKey = some (bottom [] u) := hroot
    obtain ⟨n, s', hrun, hup⟩ := updateValueIfDirty_flat
      (show Flat t.hashFn s.nodes t.dirtyNodes [] u from hsnodes ▸ hrows) hcan
      (show ([] : Path).length + t.height = t.height by simp) (show t.height + 1 ≤ t.height + 1 from le_rfl)
    have hpath : path (bottom [] u) none = edgePath u := by
      rw [path, bottom_eq, nil_append]
    simp only [hsome, hrun, hpath, Node.hash_edgePath hcan hup.value]
    exact ⟨_, rfl, ⟨rfl, rfl, hcan, rfl, hup.rows, fun _ => hup.rootKey.trans (hskey.trans hsome)⟩, rfl, rfl⟩

/-! ### Runs -/

/-- A call; `Put` of zero deletes. -/
def Trie.call (t : Trie) : TrieOp → Except TrieError (Option Felt) × Trie
  | .update key value => ((t.put key value).1.map fun _ => none, (t.put key value).2)
  | .delete key => ((t.put key 0).1.map fun _ => none, (t.put key 0).2)
  | .get key => ((t.get key).map some, t)
  | .hash => (t.hash.1.map some, t.hash.2)

def Trie.calls : Trie → List TrieOp → List (Except TrieError (Option Felt)) × Trie
  | t, [] => ([], t)
  | t, op :: ops => ((t.call op).1 :: ((t.call op).2.calls ops).1, ((t.call op).2.calls ops).2)

/-- **The trie holds the map.** -/
def Holds (height : ℕ) (H : HashFn) (t : Trie) (m : Felt → Felt) : Prop :=
  Models height H t (canon height (onPaths m))

variable {m : Felt → Felt}

theorem get?_canon_key (hh : height ≤ 251) (hkey : key.val < 2 ^ height) :
    get? (canon height (onPaths m)) (feltToPath height key) = m key := by
  rw [get?_canon height _ _ (length_feltToPath height key), onPaths_feltToPath hh m hkey]

theorem Holds.put (h : Holds height H t m) (hh : height ≤ 251) (hkey : key.val < 2 ^ height) (value : Felt) :
    ∃ t', t.put key value = (.ok (if value = 0 ∧ m key = 0 then none else some (m key)), t') ∧
      Holds height H t' (Function.update m key value) := by
  obtain ⟨t', hput, hm⟩ := h.put_ok hh hkey value
  rw [get?_canon_key hh hkey] at hput
  rw [update_canon hh m hkey] at hm
  exact ⟨t', hput, hm⟩

theorem Holds.get (h : Holds height H t m) (hh : height ≤ 251) (hkey : key.val < 2 ^ height) :
    t.get key = .ok (m key) := by
  rw [h.get_ok, get?_canon_key hh hkey]

theorem Holds.hash (h : Holds height H t m) :
    ∃ t', t.hash = (.ok (mapRoot H height m), t') ∧ Holds height H t' m ∧ t'.Saved :=
  h.hash_ok

/-- **One call** answers as specified, and the trie then holds the new map. -/
theorem Holds.call (hh : height ≤ 251) (h : Holds height H t m) {op : TrieOp}
    (hop : op.InRange height = true) :
    (t.call op).1 = .ok (op.answer H height m) ∧ Holds height H (t.call op).2 (op.write m) := by
  cases op with
  | update k v =>
    obtain ⟨t', ht', hm⟩ := h.put hh (show k.val < 2 ^ height by simpa [TrieOp.InRange] using hop) v
    rw [Trie.call, ht']
    exact ⟨rfl, hm⟩
  | delete k =>
    obtain ⟨t', ht', hm⟩ := h.put hh (show k.val < 2 ^ height by simpa [TrieOp.InRange] using hop) 0
    rw [Trie.call, ht']
    exact ⟨rfl, hm⟩
  | get k =>
    rw [Trie.call, h.get hh (show k.val < 2 ^ height by simpa [TrieOp.InRange] using hop)]
    exact ⟨rfl, h⟩
  | hash =>
    obtain ⟨t', ht', hm, -⟩ := h.hash
    rw [Trie.call, ht']
    exact ⟨rfl, hm⟩

theorem Holds.calls (hh : height ≤ 251) {ops : List TrieOp} :
    ∀ {t : Trie} {m : Felt → Felt}, Holds height H t m →
    (∀ op ∈ ops, op.InRange height = true) →
      (t.calls ops).1 = (answers H height m ops).map .ok ∧
        Holds height H (t.calls ops).2 (ops.foldl TrieOp.write m) := by
  induction ops with
  | nil => exact fun h _ => ⟨rfl, h⟩
  | cons op ops ih =>
    intro t m h hops
    obtain ⟨hans, hnext⟩ := h.call hh (hops op (by simp))
    obtain ⟨hrest, hend⟩ := ih hnext fun op' hop' => hops op' (by simp [hop'])
    refine ⟨?_, hend⟩
    rw [Trie.calls, answers, map_cons, hans, hrest]

def emptyStorage : Storage := ⟨fun _ => none, none⟩

theorem holds_newTrie (hh : height ≤ 251) : Holds height H (newTrie emptyStorage height H) fun _ => 0 := by
  have hnone : canon height (onPaths fun _ => 0) = none := (canon_eq_none_iff_emptyMap hh).mpr fun _ _ => rfl
  rw [Holds, hnone]
  exact ⟨rfl, rfl, trivial, rfl, fun _ => rfl, fun _ => rfl⟩

/-! ### Agreement with the node-based trie -/

variable {α : Type}

def Agree (old : Except TrieError α) (new : Except Trie2.TrieError α) : Prop := ∃ a, old = .ok a ∧ new = .ok a

theorem forall₂_agree_iff {l : List α} : ∀ {new : List (Except Trie2.TrieError α)},
    List.Forall₂ Agree (l.map .ok) new ↔ new = l.map .ok := by
  induction l with
  | nil => simp
  | cons a l ih =>
    intro new
    rw [map_cons, forall₂_cons_left_iff]
    constructor
    · rintro ⟨b, u, ⟨c, hc, rfl⟩, hu, rfl⟩
      cases hc
      rw [ih.mp hu, map_cons]
    · rintro rfl
      exact ⟨_, _, ⟨a, rfl, rfl⟩, ih.mpr rfl, rfl⟩

theorem agree_ok_iff {a : α} {new : Except Trie2.TrieError α} : Agree (.ok a) new ↔ new = .ok a := by
  constructor
  · rintro ⟨b, hb, rfl⟩
    cases hb
    rfl
  · rintro rfl
    exact ⟨a, rfl, rfl⟩

/-- **The two tries** report the same answers, the same root after every step and the same value of every key,
exactly when the height is not zero or nothing is ever stored; the flat trie's answers are the map's in any
case. -/
theorem calls_agree_iff (height : ℕ) (hh : height ≤ 251) (H : HashFn) (ops : List TrieOp)
    (hops : ∀ op ∈ ops, op.InRange height = true) :
    (∀ before after, ops = before ++ after →
      ((Trie.newTrie emptyStorage height H).calls before).1 = (answers H height (fun _ => 0) before).map .ok ∧
      ((Trie.newTrie emptyStorage height H).calls before).2.hash.1 =
        .ok (mapRoot H height (before.foldl TrieOp.write fun _ => 0))) ∧
    ((∀ before after, ops = before ++ after →
      List.Forall₂ Agree ((Trie.newTrie emptyStorage height H).calls before).1
        ((Trie2.Trie.newEmpty height H).calls before).1 ∧
      Agree ((Trie.newTrie emptyStorage height H).calls before).2.hash.1
        ((Trie2.Trie.newEmpty height H).calls before).2.hash.1 ∧
      ∀ k : Felt, k.val < 2 ^ height → Agree (((Trie.newTrie emptyStorage height H).calls before).2.get k)
        (((Trie2.Trie.newEmpty height H).calls before).2.get k).1) ↔
      (0 < height ∨ ∀ before after, ops = before ++ after →
        EmptyMap height (before.foldl TrieOp.write fun _ => 0))) := by
  have hin : ∀ before after, ops = before ++ after → ∀ op ∈ before, op.InRange height = true :=
    fun before after hsplit op hop => hops op (by rw [hsplit]; simp [hop])
  have hold : ∀ before after, ops = before ++ after → _ := fun before after hsplit =>
    (holds_newTrie (H := H) hh).calls hh (hin before after hsplit)
  have hroot : ∀ before after, ops = before ++ after →
      ((newTrie emptyStorage height H).calls before).2.hash.1 =
        .ok (mapRoot H height (before.foldl TrieOp.write fun _ => 0)) := by
    intro before after hsplit
    obtain ⟨t', ht', -⟩ := (hold before after hsplit).2.hash
    rw [ht']
  refine ⟨fun before after hsplit => ⟨(hold before after hsplit).1, hroot before after hsplit⟩, ?_⟩
  have hempty : Trie2.Holds True height H none 0 (Trie2.Trie.newEmpty height H) fun _ => 0 :=
    Trie2.holds_newEmpty hh
  constructor
  · intro h
    rcases Nat.eq_zero_or_pos height with h0 | hpos
    · refine .inr fun before after hsplit => ?_
      have hagree := (h before after hsplit).2.1
      rw [hroot before after hsplit, agree_ok_iff] at hagree
      by_contra hne
      rw [(hempty.calls hh (hin before after hsplit)).hash_panic hh ⟨rfl, h0, hne⟩] at hagree
      cases hagree
    · exact .inl hpos
  · intro h before after hsplit
    have hnew := hempty.calls hh (hin before after hsplit)
    have hok : ∀ before after, ops = before ++ after →
        ¬ Trie2.Panics height (before.foldl TrieOp.write fun _ => 0) .hash := by
      rintro before after hsplit ⟨-, h0, hne⟩
      exact hne ((h.resolve_left (by omega)) before after hsplit)
    refine ⟨?_, ?_, fun k hk => ?_⟩
    · rw [(hold before after hsplit).1, forall₂_agree_iff, hempty.calls_answers hh (hin before after hsplit),
        Trie2.noPanic_iff]
      exact h.imp_right fun hall b a hb => hall b (.hash :: a ++ after) (by rw [hsplit, hb]; simp)
    · rw [hroot before after hsplit, agree_ok_iff]
      exact hnew.hash_root hh (hok before after hsplit)
    · rw [(hold before after hsplit).2.get hh hk, agree_ok_iff]
      exact hnew.get hh hk

theorem calls_agree_two :
    List.Forall₂ Agree
        ((Trie.newTrie emptyStorage 2 fun a b => a + 2 * b).calls
          [.update 1 5, .update 2 7, .hash, .delete 1]).1
        ((Trie2.Trie.newEmpty 2 fun a b => a + 2 * b).calls [.update 1 5, .update 2 7, .hash, .delete 1]).1 ∧
      Agree
        ((Trie.newTrie emptyStorage 2 fun a b => a + 2 * b).calls
          [.update 1 5, .update 2 7, .hash, .delete 1]).2.hash.1
        ((Trie2.Trie.newEmpty 2 fun a b => a + 2 * b).calls
          [.update 1 5, .update 2 7, .hash, .delete 1]).2.hash.1 := by
  have h := (calls_agree_iff 2 (by decide) (fun a b => a + 2 * b) [.update 1 5, .update 2 7, .hash, .delete 1]
    (by decide)).2.mpr (.inl (by decide)) _ [] (append_nil _).symm
  exact ⟨h.1, h.2.1⟩

/-- At height 0 the flat trie's root is the value, and the node-based trie panics. -/
theorem calls_disagree_zero :
    ((Trie.newTrie emptyStorage 0 fun a b => a + 2 * b).calls [.update 0 1]).2.hash.1 = .ok 1 ∧
      ((Trie2.Trie.newEmpty 0 fun a b => a + 2 * b).calls [.update 0 1]).2.hash.1 = .error .panic ∧
      ¬ Agree ((Trie.newTrie emptyStorage 0 fun a b => a + 2 * b).calls [.update 0 1]).2.hash.1
        ((Trie2.Trie.newEmpty 0 fun a b => a + 2 * b).calls [.update 0 1]).2.hash.1 := by
  have hpanic : ((Trie2.Trie.newEmpty 0 fun a b => a + 2 * b).calls [.update 0 1]).2.hash.1 =
      .error .panic := by
    decide +kernel
  refine ⟨by decide +kernel, hpanic, ?_⟩
  rintro ⟨a, -, hnew⟩
  rw [hpanic] at hnew
  cases hnew

end Juno.FlatTrie
