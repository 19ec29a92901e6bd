import Juno.EventFilter.Matcher
import Juno.Preconfirmed.Adapt
import Mathlib

/-!
# What the chain of pre-confirmed blocks is after any calls

## The model

* `Path` — the nodes from a pointer down to the last parent.
* `Told` — the history of the calls: the last whole block for a slot with the deltas after it, and the slot
  after the head.
* `ChainSound` — what a stored chain is after them: contiguous numbers from the slot after the head to the
  tip, a recorded length that counts the reachable nodes, and blocks whose every derived field is right.

The main result is `storage_sound`.
-/

namespace Juno.Preconfirmed

open Lib AList PreConfirmedValue Storage Option

variable {W Z S H T Y : Type} {A : Adapter W Z S H T Y} {maps : Maps} {depth : ℕ}

/-! ### Paths -/

/-- The nodes from a pointer down to the last parent. -/
inductive Path (nodes : List (Node H T Y)) : Option ℕ → List (Node H T Y) → Prop where
  | nil : Path nodes none []
  | cons {p : ℕ} {n : Node H T Y} {ns : List (Node H T Y)} (node : nodes[p]? = some n)
      (parent : Path nodes n.parent ns) : Path nodes (some p) (n :: ns)

variable {nodes nodes' : List (Node H T Y)} {p : Option ℕ} {ns : List (Node H T Y)}

section

variable (h : Path nodes p ns)
include h

theorem Path.mono (hpre : nodes <+: nodes') : Path nodes' p ns := by
  induction h with
  | nil => exact .nil
  | cons node _ ih =>
    obtain ⟨more, rfl⟩ := hpre
    have hlt := (List.getElem?_eq_some_iff.mp node).1
    exact .cons ((List.getElem?_append_left hlt).trans node) ih

theorem Path.newestFirst (length : ℕ) : newestFirst nodes p length = ns.take length := by
  induction length generalizing p ns with
  | zero => rfl
  | succ length ih =>
    cases h with
    | nil => rfl
    | cons node parent =>
      have hnode : nodeAt nodes (some _) = some _ := node
      rw [Preconfirmed.newestFirst, hnode, List.take_succ_cons]
      simp only [ih parent]

theorem Path.ancestor (depth : ℕ) (hdepth : depth ≤ ns.length) :
    Path nodes (ancestor nodes p depth) (ns.drop depth) := by
  induction depth generalizing p ns with
  | zero => exact h
  | succ depth ih =>
    cases h with
    | nil => exact absurd hdepth (Nat.not_succ_le_zero depth)
    | cons node parent =>
      have hnode : nodeAt nodes (some _) = some _ := node
      rw [Preconfirmed.ancestor, hnode]
      exact ih parent (Nat.le_of_succ_le_succ hdepth)

theorem Path.rebuild (keep : ℕ) :
    nodes <+: (rebuild nodes p keep).1 ∧
      ∃ ns', Path (rebuild nodes p keep).1 (rebuild nodes p keep).2 ns' ∧
        ns'.map (fun n => (n.value, n.bloom)) =
        (ns.take keep).map fun n => (n.value, n.bloom) := by
  induction keep generalizing p ns with
  | zero => exact ⟨List.prefix_rfl, [], .nil, rfl⟩
  | succ keep ih =>
    cases h with
    | nil => exact ⟨List.prefix_rfl, [], .nil, rfl⟩
    | @cons q n ns node parent =>
      obtain ⟨hpre, ns', hpath, hmap⟩ := ih parent
      have hnode : nodeAt nodes (some q) = some n := node
      rw [Preconfirmed.rebuild, hnode]
      refine ⟨hpre.trans (List.prefix_append _ _),
        { n with parent := (Preconfirmed.rebuild nodes n.parent keep).2 } :: ns',
        .cons List.getElem?_concat_length (hpath.mono (List.prefix_append _ _)), ?_⟩
      rw [List.take_succ_cons, List.map_cons, List.map_cons, hmap]

end

/-! ### What the calls told -/

/-- The block that is told for a slot with an update, after the one that was told before. -/
def PreConfirmedUpdate.source (old : Option (PreConfirmedBlock W Z S H)) :
    PreConfirmedUpdate W Z S H → Option (PreConfirmedBlock W Z S H)
  | .block b => some b
  | .delta d => old.map fun b => b.appendDelta d
  | .noChange => old

/-- What was told with the calls that had an effect. -/
structure Told (W Z S H : Type) where
  /-- The whole block of a slot, with the transactions of the deltas appended. -/
  source : ℕ → Option (PreConfirmedBlock W Z S H)
  slotAfterHead : ℕ

namespace Told

def new : Told W Z S H := ⟨fun _ => none, 0⟩

def tell (t : Told W Z S H) (update : PreConfirmedUpdate W Z S H) (blockNumber oldest : ℕ) : Told W Z S H :=
  ⟨Function.update t.source blockNumber (update.source (t.source blockNumber)), oldest⟩

/-- A call of the storage. An update has an effect if it is applied and there is a node for it. -/
def step (A : Adapter W Z S H T Y) (s : Storage H T Y) (t : Told W Z S H) : Call W Z S H → Told W Z S H
  | .applyUpdate update blockNumber baseTxCount oldest newClasses =>
    match s.applyUpdate A update blockNumber baseTxCount oldest newClasses with
    | .ok s' => if s.nodes.length < s'.nodes.length then t.tell update blockNumber oldest else t
    | .error _ => t
  | .advanceTo oldest => { t with slotAfterHead := oldest }

def run (A : Adapter W Z S H T Y) (s : Storage H T Y) (t : Told W Z S H) : List (Call W Z S H) → Told W Z S H
  | [] => t
  | call :: calls => (t.step A s call).run A (s.step A call) calls

end Told

/-! ### The invariant -/

variable {t : Told W Z S H} {s : Storage H T Y} {c : ChainReader} {n : Node H T Y}

def Node.number (n : Node H T Y) : ℕ := n.value.header.number

/-- A node holds the block that was told for its slot, with its filter. -/
structure NodeGood (A : Adapter W Z S H T Y) (maps : Maps) (told : ℕ → Option (PreConfirmedBlock W Z S H))
    (n : Node H T Y) : Prop where
  value : ∃ source, told n.number = some source ∧ Good A maps source n.value
  bloom : n.bloom = eventsBloom A n.value.receipts

structure Stored (A : Adapter W Z S H T Y) (t : Told W Z S H) (s : Storage H T Y) (c : ChainReader)
    (ns : List (Node H T Y)) : Prop where
  path : Path s.nodes c.head ns
  length : c.length = ns.length
  nonempty : 0 < ns.length
  numbers : ∀ (i : ℕ) n, ns[i]? = some n → n.number + i = tip s.nodes c
  slot : t.slotAfterHead + ns.length = tip s.nodes c + 1
  good : ∀ n ∈ ns, NodeGood A s.maps t.source n

/-- The invariant: a chain that is stored is stored well. -/
def Inv (A : Adapter W Z S H T Y) (t : Told W Z S H) (s : Storage H T Y) : Prop :=
  ∀ c, s.inner = some c → ∃ ns, Stored A t s c ns

structure Grows (s s' : Storage H T Y) : Prop where
  nodes : s.nodes <+: s'.nodes
  maps : Kept s.maps s'.maps fun _ => False

theorem Grows.refl (s : Storage H T Y) : Grows s s := ⟨List.prefix_rfl, Kept.refl _ _⟩

theorem Grows.trans {s' s'' : Storage H T Y} (h : Grows s s') (h' : Grows s' s'') : Grows s s'' :=
  ⟨h.nodes.trans h'.nodes, h.maps.trans h'.maps fun _ _ hf => hf⟩

theorem NodeGood.kept {maps' : Maps} (h : NodeGood A maps t.source n)
    (hkept : Kept maps maps' fun _ => False) : NodeGood A maps' t.source n :=
  have ⟨source, hsource, hgood⟩ := h.value
  ⟨⟨source, hsource, hgood.kept hkept⟩, h.bloom⟩

theorem tip_of_path (h : Path nodes c.head (n :: ns)) : tip nodes c = n.number := by
  generalize hp : c.head = p at h
  cases h with
  | cons node _ =>
    have hnode : nodeAt nodes (some _) = some n := node
    rw [tip, hp, hnode]
    rfl

theorem Stored.oldest (h : Stored A t s c ns) : oldestPreConf s.nodes c = t.slotAfterHead := by
  have hslot := h.slot
  have hpos := h.nonempty
  rw [oldestPreConf, h.length]
  omega

/-- **A new node becomes the head**, over some of the nodes that were there. -/
theorem stored_push (hkept : Kept s.maps maps fun _ => False) (hn : NodeGood A maps t.source n)
    (hpath : Path s.nodes n.parent ns) (hgood : ∀ m ∈ ns, NodeGood A s.maps t.source m)
    (hnumbers : ∀ (i : ℕ) m, ns[i]? = some m → m.number + i + 1 = n.number)
    (hslot : t.slotAfterHead + ns.length = n.number) :
    Stored A t ⟨maps, s.nodes ++ [n], some ⟨some s.nodes.length, ns.length + 1⟩⟩
      ⟨some s.nodes.length, ns.length + 1⟩ (n :: ns) := by
  have hnew : Path (s.nodes ++ [n]) (some s.nodes.length) (n :: ns) :=
    .cons List.getElem?_concat_length (hpath.mono (List.prefix_append _ _))
  have htip : tip (s.nodes ++ [n]) ⟨some s.nodes.length, ns.length + 1⟩ = n.number := tip_of_path hnew
  refine ⟨hnew, (List.length_cons).symm, Nat.succ_pos _, ?_, ?_, ?_⟩
  · intro i m hm
    rw [htip]
    cases i with
    | zero =>
      cases hm
      rfl
    | succ i => exact hnumbers i m hm
  · rw [htip, List.length_cons]
    exact congrArg (· + 1) hslot
  · intro m hm
    rcases List.mem_cons.mp hm with rfl | hm
    · exact hn
    · exact (hgood m hm).kept hkept

/-! ### The block in a slot -/

def Storage.chain (s : Storage H T Y) : List (Node H T Y) :=
  match s.inner with
  | none => []
  | some c => newestFirst s.nodes c.head c.length

/-- The block of a slot among some nodes. -/
def entryIn (ns : List (Node H T Y)) (slot : ℕ) : Option (PreConfirmed H T Y) :=
  (ns.find? fun n => n.number = slot).map fun n => n.value

def Storage.entryAt (s : Storage H T Y) (slot : ℕ) : Option (PreConfirmed H T Y) := entryIn s.chain slot

section

variable {above below : List (Node H T Y)} {slot : ℕ}

theorem entryIn_cons_self (h : n.number = slot) : entryIn (n :: ns) slot = some n.value := by
  rw [entryIn, List.find?_cons_of_pos (by simpa using h), map_some]

theorem entryIn_cons_ne (h : n.number ≠ slot) : entryIn (n :: ns) slot = entryIn ns slot := by
  rw [entryIn, List.find?_cons_of_neg (by simpa using h), entryIn]

theorem entryIn_eq_none (h : ∀ n ∈ ns, n.number ≠ slot) : entryIn ns slot = none := by
  rw [entryIn, List.find?_eq_none.mpr (by simpa using h), map_none]

theorem entryIn_append (h : ∀ n ∈ above, n.number ≠ slot) :
    entryIn (above ++ below) slot = entryIn below slot := by
  rw [entryIn, List.find?_append, List.find?_eq_none.mpr (by simpa using h), none_or, entryIn]

theorem entryIn_congr {ns' : List (Node H T Y)} (h : (ns'.map fun n => n.value) = ns.map fun n => n.value)
    (slot : ℕ) : entryIn ns' slot = entryIn ns slot := by
  have hvalues : ∀ l : List (Node H T Y),
      entryIn l slot = (l.map fun n => n.value).find? fun e => e.header.number = slot := fun l => by
    rw [List.find?_map]
    rfl
  rw [hvalues, hvalues, h]

/-- Among the newer nodes a slot has the block that it has among all, or none. -/
theorem entryIn_take (ns : List (Node H T Y)) (keep slot : ℕ) :
    entryIn (ns.take keep) slot = none ∨ entryIn (ns.take keep) slot = entryIn ns slot := by
  cases hfind : (ns.take keep).find? fun n => n.number = slot with
  | none => exact .inl (by rw [entryIn, hfind, map_none])
  | some n =>
    right
    have hall : ns.find? (fun n => n.number = slot) = some n := by
      rw [← List.take_append_drop keep ns, List.find?_append, hfind, some_or]
    rw [entryIn, entryIn, hfind, hall]

theorem Stored.chain (h : Stored A t s c ns) (hinner : s.inner = some c) : s.chain = ns := by
  rw [Storage.chain, hinner]
  exact (h.path.newestFirst c.length).trans (by rw [h.length, List.take_length])

/-- The block of a node is the one in the slot of its number. -/
theorem Stored.entryAt (h : Stored A t s c ns) (hinner : s.inner = some c) {i : ℕ} (hn : ns[i]? = some n) :
    s.entryAt n.number = some n.value := by
  obtain ⟨hlt, hget⟩ := List.getElem?_eq_some_iff.mp hn
  have hsplit : ns = ns.take i ++ n :: ns.drop (i + 1) := by
    rw [← hget, List.getElem_cons_drop, List.take_append_drop]
  rw [Storage.entryAt, h.chain hinner, hsplit, entryIn_append, entryIn_cons_self rfl]
  intro m hm heq
  obtain ⟨j, hj, hget⟩ := List.mem_take_iff_getElem.mp hm
  have hm' := h.numbers j m (by rw [List.getElem?_eq_getElem (by omega), hget])
  have hn' := h.numbers i n hn
  omega

end

/-! ### Updates -/

variable {newClasses : Classes} {update : PreConfirmedUpdate W Z S H} {classHash : Felt} {blockNumber : ℕ}
  {block : PreConfirmedBlock W Z S H}

theorem adaptBlock_spec {r : Maps × PreConfirmed H T Y}
    (h : adaptBlock A maps block blockNumber newClasses = .ok r) :
    Kept maps r.1 (fun _ => False) ∧ Good A r.1 block r.2 ∧ r.2.header.number = blockNumber ∧
      r.2.blockIdentifier = block.blockIdentifier ∧ r.2.header.transactionCount = block.transactions.length ∧
      r.2.newClasses = newClasses := by
  rw [adaptBlock] at h
  obtain ⟨r', hr', h⟩ := bind_eq_ok.mp h
  split_ifs at h
  cases h
  obtain ⟨ps, hps⟩ := parts_of_adaptPreConfirmedBlock hr'
  obtain ⟨r'', hr'', hkept, hgood, hnumber, hmade⟩ :=
      adaptPreConfirmedBlock_spec (A := A) maps blockNumber hps
  rw [hr'] at hr''
  cases hr''
  obtain ⟨ps', hps', hvalue⟩ := hgood.made
  have hid : r'.2.blockIdentifier = block.blockIdentifier := congrArg blockIdentifier hmade
  have hheader : r'.2.header = ⟨blockNumber, ps.length, eventsOf ps, block.header⟩ := congrArg header hmade
  refine ⟨hkept, ⟨hgood.stateDiff, hgood.transactionStateDiffs, ps', hps', ?_⟩, hnumber, hid, ?_, rfl⟩
  · have hclasses := congrArg (fun v : PreConfirmedValue H T Y => { v with newClasses := newClasses }) hvalue
    exact hclasses
  · simp only [hheader, length_parts hps]

/-- The node so many levels down, and the nodes below it. -/
theorem Stored.atDepth (h : Stored A t s c ns) (hdepth : depth < ns.length)
    (hn : nodeAt s.nodes (ancestor s.nodes c.head depth) = some n) :
    ns[depth]? = some n ∧ Path s.nodes n.parent (ns.drop (depth + 1)) := by
  have hpath := h.path.ancestor depth hdepth.le
  rw [List.drop_eq_getElem_cons hdepth] at hpath
  generalize hp : ancestor s.nodes c.head depth = p at hpath hn
  cases hpath with
  | cons node parent =>
    have hsame : ns[depth] = n := some.inj (node.symm.trans hn)
    rw [hsame] at parent
    exact ⟨by rw [List.getElem?_eq_getElem hdepth, hsame], parent⟩

theorem Stored.below (h : Stored A t s c ns) (hnumber : blockNumber + depth = tip s.nodes c) :
    ∀ (i : ℕ) m, (ns.drop (depth + 1))[i]? = some m → m.number + i + 1 = blockNumber := by
  intro i m hm
  rw [List.getElem?_drop] at hm
  have := h.numbers _ m hm
  omega

/-- The classes of a block after an update are those that came with a whole block, or those it had and those
that came. -/
inductive NextClasses (update : PreConfirmedUpdate W Z S H) (newClasses : Classes)
    (entry : Option (PreConfirmed H T Y)) (next : PreConfirmed H T Y) : Prop where
  | block (block : PreConfirmedBlock W Z S H) (isBlock : update = .block block)
      (replaces : ∀ e, entry = some e → e.blockIdentifier = block.blockIdentifier →
        e.header.transactionCount < block.transactions.length ∨
          e.newClasses.entries.length < newClasses.entries.length)
      (identifier : next.blockIdentifier = block.blockIdentifier) (classes : next.newClasses = newClasses)
  /-- A delta, or an update without content. -/
  | merged (e : PreConfirmed H T Y) (stored : entry = some e)
    (identifier : next.blockIdentifier = e.blockIdentifier)
      (classes : next.newClasses = mergeClassesCopying e.newClasses newClasses)

/-- An update without an effect was a whole block that is not better than the stored one, or brought nothing
new. -/
inductive Ignored (s : Storage H T Y) (update : PreConfirmedUpdate W Z S H) (blockNumber : ℕ)
    (newClasses : Classes) :
    Prop where
  | block (block : PreConfirmedBlock W Z S H) (isBlock : update = .block block) (e : PreConfirmed H T Y)
      (stored : s.entryAt blockNumber = some e)
      (preserved : ¬(e.header.transactionCount < block.transactions.length ∨
        e.newClasses.entries.length < newClasses.entries.length))
  | noChange (isNoChange : update = .noChange) (none : ∀ classHash ∈ newClasses, ∀ e,
    s.entryAt blockNumber = some e → classHash ∈ e.newClasses)

/-- The stored block stays if it has the identifier of the other one, as many transactions and as many
definitions. -/
theorem shouldPreserveSlot_eq {existing incoming : PreConfirmed H T Y} :
    shouldPreserveSlot existing incoming = true ↔
      (incoming.blockIdentifier = existing.blockIdentifier ∨
        incoming.blockIdentifier = preConfirmedBlankIdentifier) ∧
      ¬(existing.header.transactionCount < incoming.header.transactionCount ∨
        existing.newClasses.entries.length < incoming.newClasses.entries.length) := by
  rw [shouldPreserveSlot]
  split_ifs with hid htx hcl
  · simp only [false_iff]
    rintro ⟨hor, -⟩
    exact hor.elim hid.1 hid.2
  · simp [htx]
  · simp [hcl]
  · simp only [true_iff]
    refine ⟨?_, fun hor => hor.elim htx hcl⟩
    by_contra hnot
    exact hid ⟨fun h => hnot (.inl h), fun h => hnot (.inr h)⟩

/-- Definitions that are merged into others are all there, and so are the others. -/
theorem mem_mergeClassesCopying {base extra : Classes} :
    classHash ∈ mergeClassesCopying base extra ↔ classHash ∈ base ∨ classHash ∈ extra := by
  rw [mergeClassesCopying]
  split_ifs with hempty
  · have hnone : extra = ∅ := ext (List.length_eq_zero_iff.mp hempty)
    rw [hnone]
    simp
  · rw [← lookup_isSome, ← lookup_isSome, ← lookup_isSome, GoMap.lookup_copyFrom, isSome_or,
      Bool.or_eq_true, or_comm]

/-- Nothing is new in definitions that do not make the merged ones more. -/
theorem mem_of_length_mergeClassesCopying {base extra : Classes}
    (h : (mergeClassesCopying base extra).entries.length = base.entries.length) (hmem : classHash ∈ extra) :
    classHash ∈ base := by
  have hsub : base.keys ⊆ (mergeClassesCopying base extra).keys := fun k hk =>
    mem_keys.mp (mem_mergeClassesCopying.mpr (.inl (mem_keys.mpr hk)))
  have hlen : (mergeClassesCopying base extra).keys.length ≤ base.keys.length := by
    simp only [keys, List.keys, List.length_map]
    exact h.le
  have hperm := ((keys_nodup base).subperm hsub).perm_of_length_le hlen
  exact mem_keys.mpr (hperm.mem_iff.mpr (mem_keys.mp (mem_mergeClassesCopying.mpr (.inr hmem))))

/-- The storage after an update with an effect. -/
def Storage.push (s : Storage H T Y) (n : NewChain H T Y) : Storage H T Y :=
  ⟨n.maps, s.nodes ++ [n.node], some ⟨some s.nodes.length, n.length⟩⟩

/-- **What an update with an effect leaves**: a new node in its slot, over the nodes of the chain that are
below. -/
structure Placed (A : Adapter W Z S H T Y) (t : Told W Z S H) (s : Storage H T Y)
    (update : PreConfirmedUpdate W Z S H)
    (blockNumber : ℕ) (newClasses : Classes) (oldest : ℕ) (n : NewChain H T Y)
    (above below : List (Node H T Y)) : Prop where
  kept : Kept s.maps n.maps fun _ => False
  good : NodeGood A n.maps (t.tell update blockNumber oldest).source n.node
  number : n.node.number = blockNumber
  chain : s.chain = above ++ below
  path : Path s.nodes n.node.parent below
  length : n.length = below.length + 1
  slot : oldest + below.length = blockNumber
  goodBelow : ∀ m ∈ below, NodeGood A s.maps t.source m
  numbers : ∀ (i : ℕ) m, below[i]? = some m → m.number + i + 1 = blockNumber
  dropped : ∀ m ∈ above, blockNumber ≤ m.number
  next : NextClasses update newClasses (s.entryAt blockNumber) n.node.value

variable {r : Option (NewChain H T Y)}

section

variable {baseTxCount oldest : ℕ} {above below : List (Node H T Y)}

theorem NodeGood.tell (h : NodeGood A maps t.source n) (hne : n.number ≠ blockNumber) :
    NodeGood A maps (t.tell update blockNumber oldest).source n :=
  have ⟨source, hsource, hgood⟩ := h.value
  ⟨⟨source, (Function.update_of_ne hne _ _).trans hsource, hgood⟩, h.bloom⟩

theorem nodeGood_told {source : PreConfirmedBlock W Z S H} (hnum : n.number = blockNumber)
    (hsource : update.source (t.source blockNumber) = some source)
    (hgood : Good A maps source n.value) (hbloom : n.bloom = eventsBloom A n.value.receipts) :
    NodeGood A maps (t.tell update blockNumber oldest).source n :=
  ⟨⟨source, by rw [hnum, ← hsource]; exact Function.update_self _ _ _, hgood⟩, hbloom⟩

theorem Placed.stored {n : NewChain H T Y}
    (h : Placed A t s update blockNumber newClasses oldest n above below) :
    Stored A (t.tell update blockNumber oldest) (s.push n) ⟨some s.nodes.length, n.length⟩
      (n.node :: below) := by
  have hbelow : ∀ m ∈ below, NodeGood A s.maps (t.tell update blockNumber oldest).source m := by
    intro m hm
    obtain ⟨i, hi⟩ := List.mem_iff_getElem?.mp hm
    have := h.numbers i m hi
    exact (h.goodBelow m hm).tell (by omega)
  have hpush := stored_push h.kept h.good h.path hbelow (h.number ▸ h.numbers) (h.slot.trans h.number.symm)
  rwa [← h.length] at hpush

/-- The slot at a depth is replaced, and the nodes above it are dropped. -/
theorem Stored.place (h : Stored A t s c ns) (hinner : s.inner = some c)
    (hdepth : depth < ns.length) (hnumber : blockNumber + depth = tip s.nodes c)
    {target : Node H T Y} (htarget : nodeAt s.nodes (ancestor s.nodes c.head depth) = some target)
    {n : NewChain H T Y} (hkept : Kept s.maps n.maps fun _ => False)
    (hn : NodeGood A n.maps (t.tell update blockNumber t.slotAfterHead).source n.node)
    (hparent : n.node.parent = target.parent) (hnum : n.node.number = blockNumber)
    (hlength : n.length = c.length - depth)
    (hnext : NextClasses update newClasses (s.entryAt blockNumber) n.node.value) :
    Placed A t s update blockNumber newClasses t.slotAfterHead n (ns.take (depth + 1))
      (ns.drop (depth + 1)) := by
  have hslot := h.slot
  have hlen := h.length
  have hdrop : (ns.drop (depth + 1)).length = ns.length - (depth + 1) := List.length_drop
  refine ⟨hkept, hn, hnum, ?_, hparent ▸ (h.atDepth hdepth htarget).2, by omega, by omega,
    fun m hm => h.good m (List.mem_of_mem_drop hm), h.below hnumber, fun m hm => ?_, hnext⟩
  · rw [h.chain hinner, List.take_append_drop]
  · obtain ⟨j, hj, hget⟩ := List.mem_take_iff_getElem.mp hm
    have := h.numbers j m (by rw [List.getElem?_eq_getElem (by omega), hget])
    omega

inductive Computed (A : Adapter W Z S H T Y) (t : Told W Z S H) (s : Storage H T Y)
    (update : PreConfirmedUpdate W Z S H)
    (blockNumber : ℕ) (newClasses : Classes) (oldest : ℕ) : Option (NewChain H T Y) → Prop where
  | ignored (h : Ignored s update blockNumber newClasses) :
    Computed A t s update blockNumber newClasses oldest none
  | placed {n : NewChain H T Y} {above below : List (Node H T Y)}
      (h : Placed A t s update blockNumber newClasses oldest n above below) :
      Computed A t s update blockNumber newClasses oldest (some n)

theorem replaceSlot_spec (h : Stored A t s c ns) (hinner : s.inner = some c)
    (hle : t.slotAfterHead ≤ blockNumber) (htip : blockNumber ≤ tip s.nodes c)
    (hr : replaceSlot A s.maps s.nodes c update blockNumber baseTxCount newClasses = .ok r) :
    Computed A t s update blockNumber newClasses t.slotAfterHead r := by
  have hslot := h.slot
  have hdepth : tip s.nodes c - blockNumber < ns.length := by omega
  have hnumber : blockNumber + (tip s.nodes c - blockNumber) = tip s.nodes c := by omega
  rw [replaceSlot] at hr
  simp only at hr
  cases htarget : nodeAt s.nodes (ancestor s.nodes c.head (tip s.nodes c - blockNumber)) with
  | none =>
    rw [htarget] at hr
    cases hr
  | some target =>
    rw [htarget] at hr
    obtain ⟨hget, -⟩ := h.atDepth hdepth htarget
    obtain ⟨⟨source, hsource, hgood⟩, hbloom⟩ := h.good target (List.mem_of_getElem? hget)
    have htnum : target.number = blockNumber := by
      have := h.numbers _ target hget
      omega
    have hentry : s.entryAt blockNumber = some target.value := by rw [← htnum, h.entryAt hinner hget]
    rw [htnum] at hsource
    cases update with
    | block block =>
      obtain ⟨next, hnext, hr⟩ := bind_eq_ok.mp hr
      obtain ⟨hkept, hmade, hnum, hid, htxs, hclasses⟩ := adaptBlock_spec hnext
      split_ifs at hr with hpreserve
      · cases hr
        rw [shouldPreserveSlot_eq, htxs, hclasses] at hpreserve
        exact .ignored (.block block rfl target.value hentry hpreserve.2)
      · cases hr
        refine .placed
          (h.place hinner hdepth hnumber htarget hkept (nodeGood_told hnum rfl hmade rfl) rfl hnum rfl
          (.block block rfl ?_ hid hclasses))
        intro e he hsame
        obtain rfl := some.inj (hentry.symm.trans he)
        rw [shouldPreserveSlot_eq, htxs, hclasses] at hpreserve
        by_contra hmore
        exact hpreserve ⟨.inl (hid.trans hsame.symm), hmore⟩
    | delta delta =>
      simp only at hr
      split_ifs at hr with hzero hbase
      obtain ⟨next, hnext, hr⟩ := bind_eq_ok.mp hr
      obtain ⟨hkept, hnode, hnum, hclasses, htake⟩ := adaptPreConfirmedWithDelta_spec hgood hnext
      have hid : next.2.blockIdentifier = target.value.blockIdentifier := by
        rw [adaptPreConfirmedWithDelta] at hnext
        split_ifs at hnext
        obtain ⟨a, -, hnext⟩ := bind_eq_ok.mp hnext
        cases hnext
        rfl
      have hzero' : tip s.nodes c - blockNumber = 0 := not_not.mp hzero
      obtain ⟨ps, hps, hvalue⟩ := hnode.made
      obtain ⟨qs, -, hqs⟩ := hgood.made
      -- the filter of the new receipts and that of the old ones
      have hlen : target.value.receipts.length = baseTxCount := by
        have htxs := congrArg (fun v : PreConfirmedValue H T Y => v.transactions.length) hqs
        have hreceipts := congrArg (fun v : PreConfirmedValue H T Y => v.receipts.length) hqs
        simp only [PreConfirmed.value, blockValue, List.length_map] at htxs hreceipts
        have := not_not.mp hbase
        omega
      have hmerge : (eventsBloom A (next.2.receipts.drop baseTxCount)).merge target.bloom =
          some (eventsBloom A next.2.receipts) := by
        rw [hlen] at htake
        rw [hbloom, ← htake, eventsBloom, eventsBloom, EventFilter.eventsBloom_merge, ← List.map_append,
          List.take_append_drop,
          eventsBloom]
      rw [hmerge] at hr
      cases hr
      have hvalue' := congrArg
        (fun v : PreConfirmedValue H T Y =>
          { v with newClasses := mergeClassesCopying next.2.newClasses newClasses }) hvalue
      have hnum' : next.2.header.number = blockNumber := hnum.trans htnum
      refine .placed (h.place hinner hdepth hnumber htarget hkept
        (nodeGood_told hnum' (congrArg (Option.map _) hsource)
          ⟨hnode.stateDiff, hnode.transactionStateDiffs, ps, hps, hvalue'⟩ rfl) rfl hnum'
            (by rw [hzero']; rfl)
        (.merged target.value hentry hid ?_))
      exact congrArg (mergeClassesCopying · newClasses) hclasses
    | noChange =>
      simp only at hr
      split_ifs at hr with hnone hzero hsame
      · cases hr
        refine .ignored (.noChange rfl fun k hk => ?_)
        have hempty : newClasses = ∅ := ext (List.length_eq_zero_iff.mp hnone)
        rw [hempty] at hk
        exact absurd hk (notMem_empty k)
      · cases hr
        refine .ignored (.noChange rfl fun k hk e he => ?_)
        obtain rfl := some.inj (hentry.symm.trans he)
        exact mem_of_length_mergeClassesCopying hsame hk
      · cases hr
        have hzero' : tip s.nodes c - blockNumber = 0 := not_not.mp hzero
        obtain ⟨ps, hps, hvalue⟩ := hgood.made
        have hvalue' := congrArg (fun v : PreConfirmedValue H T Y =>
          { v with newClasses := mergeClassesCopying target.value.newClasses newClasses }) hvalue
        exact .placed (h.place hinner hdepth hnumber htarget (Kept.refl _ _)
          (nodeGood_told htnum hsource ⟨hgood.stateDiff, hgood.transactionStateDiffs, ps, hps, hvalue'⟩
            hbloom) rfl htnum
          (by rw [hzero']; rfl) (.merged target.value hentry rfl rfl))

theorem placed_tip {next : Maps × PreConfirmed H T Y}
    (hnext : adaptBlock A s.maps block blockNumber newClasses = .ok next) {parent : Option ℕ}
    (hpath : Path s.nodes parent s.chain) (hgood : ∀ m ∈ s.chain, NodeGood A s.maps t.source m)
    (hnumbers : ∀ (i : ℕ) m, s.chain[i]? = some m → m.number + i + 1 = blockNumber) {length : ℕ}
    (hlength : length = s.chain.length + 1) (hslot : oldest + s.chain.length = blockNumber) :
    Placed A t s (.block block) blockNumber newClasses oldest ⟨next.1, newNode A next.2 parent, length⟩
      [] s.chain := by
  obtain ⟨hkept, hmade, hnum, hid, -, hclasses⟩ := adaptBlock_spec hnext
  refine ⟨hkept, nodeGood_told hnum rfl hmade rfl, hnum, rfl, hpath, hlength, hslot, hgood, hnumbers,
    fun m hm => (by cases hm),
    .block block rfl (fun e he => ?_) hid hclasses⟩
  have hnone : s.entryAt blockNumber = none := entryIn_eq_none fun m hm => by
    obtain ⟨i, hi⟩ := List.mem_iff_getElem?.mp hm
    have := hnumbers i m hi
    omega
  rw [hnone] at he
  cases he

theorem computeUpdate_spec (h : Inv A t s)
    (hr : computeUpdate A s update blockNumber baseTxCount oldest newClasses = .ok r) :
    Computed A t s update blockNumber newClasses oldest r := by
  rw [computeUpdate.eq_def] at hr
  cases hinner : s.inner with
  | none =>
    rw [hinner] at hr
    have hchain : s.chain = [] := by rw [chain, hinner]
    cases update with
    | block block =>
      obtain ⟨n, hboot, rfl⟩ := map_eq_ok.mp hr
      rw [bootstrapChain] at hboot
      split_ifs at hboot with hslot
      obtain ⟨next, hnext, hn⟩ := bind_eq_ok.mp hboot
      cases hn
      exact .placed
        (placed_tip hnext (hchain ▸ .nil) (by simp [hchain]) (by simp [hchain]) (by rw [hchain]; rfl)
        (by rw [hchain]; exact (not_not.mp hslot).symm))
    | delta delta => cases hr
    | noChange => cases hr
  | some c =>
    rw [hinner] at hr
    obtain ⟨ns, hstored⟩ := h c hinner
    have hchain := hstored.chain hinner
    simp only at hr
    split_ifs at hr with haligned hbelow hgap happend
    · have holdest : t.slotAfterHead = oldest := hstored.oldest.symm.trans (not_not.mp haligned)
      cases update with
      | block block =>
        obtain ⟨n, hext, rfl⟩ := map_eq_ok.mp hr
        rw [extend] at hext
        obtain ⟨next, hnext, hn⟩ := bind_eq_ok.mp hext
        cases hn
        have hslot := hstored.slot
        refine .placed
          (placed_tip hnext (hchain ▸ hstored.path) (hchain ▸ hstored.good) ?_
          (by rw [hchain, hstored.length])
          (by rw [hchain]; omega))
        intro i m hm
        rw [hchain] at hm
        have := hstored.numbers i m hm
        omega
      | delta delta => cases hr
      | noChange => cases hr
    · have holdest : t.slotAfterHead = oldest := hstored.oldest.symm.trans (not_not.mp haligned)
      rw [hstored.oldest] at hbelow
      have hle : blockNumber ≤ tip s.nodes c := by
        rw [succ64] at hgap
        split_ifs at hgap <;> omega
      exact holdest ▸ replaceSlot_spec hstored hinner (Nat.le_of_not_lt hbelow) hle hr

end

/-! ### The calls -/

variable {s' : Storage H T Y} {baseTxCount oldest : ℕ}

theorem applyUpdate_spec (h : Inv A t s)
    (hr : s.applyUpdate A update blockNumber baseTxCount oldest newClasses = .ok s') :
    (s' = s ∧ Ignored s update blockNumber newClasses) ∨
      ∃ n above below, Placed A t s update blockNumber newClasses oldest n above below ∧ s' = s.push n := by
  rw [applyUpdate] at hr
  obtain ⟨r, hcompute, hok⟩ := bind_eq_ok.mp hr
  cases computeUpdate_spec h hcompute with
  | ignored hignored =>
    cases hok
    exact .inl ⟨rfl, hignored⟩
  | placed hplaced =>
    cases hok
    exact .inr ⟨_, _, _, hplaced, rfl⟩

theorem Inv.applyUpdate (h : Inv A t s)
    (hr : s.applyUpdate A update blockNumber baseTxCount oldest newClasses = .ok s') :
    Inv A (t.step A s (.applyUpdate update blockNumber baseTxCount oldest newClasses)) s' ∧ Grows s s' := by
  rw [Told.step, hr]
  rcases applyUpdate_spec h hr with ⟨rfl, -⟩ | ⟨n, above, below, hplaced, rfl⟩
  · simp only [lt_irrefl, if_false]
    exact ⟨h, Grows.refl _⟩
  · have hnew : s.nodes.length < (s.push n).nodes.length := by simp [push]
    simp only [hnew, if_true]
    refine ⟨fun c hc => ?_, List.prefix_append _ _, hplaced.kept⟩
    cases hc
    exact ⟨_, hplaced.stored⟩

theorem Inv.advanceTo (h : Inv A t s) (oldest : ℕ) :
    Inv A { t with slotAfterHead := oldest } (s.advanceTo oldest) ∧ Grows s (s.advanceTo oldest) := by
  rw [Storage.advanceTo]
  cases hinner : s.inner with
  | none =>
    exact ⟨fun c hc => (by rw [hinner] at hc; cases hc), Grows.refl _⟩
  | some c =>
    obtain ⟨ns, hstored⟩ := h c hinner
    have hslot := hstored.slot
    simp only
    split_ifs with haligned hcontains
    · refine ⟨fun c' hc' => ?_, Grows.refl _⟩
      have hc : c = c' := some.inj (hinner.symm.trans hc')
      subst hc
      exact ⟨ns, { hstored with slot := by rw [haligned, hstored.oldest]; exact hslot }⟩
    · exact ⟨fun c' hc' => (by cases hc'), List.prefix_rfl, Kept.refl _ _⟩
    · rw [Bool.not_eq_true', Bool.not_eq_false, contains, Bool.and_eq_true, Bool.and_eq_true,
        decide_eq_true_iff,
        decide_eq_true_iff, decide_eq_true_iff, hstored.oldest] at hcontains
      obtain ⟨⟨hpos, hge⟩, htip⟩ := hcontains
      generalize hkeep : c.length - (oldest - oldestPreConf s.nodes c) = keep
      rw [hstored.oldest, hstored.length] at hkeep
      obtain ⟨hpre, ns', hpath, hmap⟩ := hstored.path.rebuild keep
      refine ⟨fun c' hc' => ?_, hpre, Kept.refl _ _⟩
      have hlen : ns'.length = keep := by
        have := congrArg List.length hmap
        rwa [List.length_map, List.length_map, List.length_take, Nat.min_eq_left (by omega)] at this
      have hget : ∀ (i : ℕ) n, ns'[i]? = some n → ∃ m, ns[i]? = some m ∧ n.value = m.value ∧
          n.bloom = m.bloom := by
        intro i n hn
        have hi := congrArg (fun l => l[i]?) hmap
        simp only [List.getElem?_map, hn, map_some] at hi
        obtain ⟨m, hm, heq⟩ := map_eq_some_iff.mp hi.symm
        rw [Prod.mk.injEq] at heq
        rw [List.getElem?_take] at hm
        split_ifs at hm
        exact ⟨m, hm, heq.1.symm, heq.2.symm⟩
      cases hc'
      obtain ⟨n₀, ns₀, rfl⟩ := List.exists_cons_of_length_pos (l := ns') (by omega)
      have htip' : tip (rebuild s.nodes c.head keep).1 ⟨(rebuild s.nodes c.head keep).2, keep⟩ =
          tip s.nodes c := by
        rw [tip_of_path hpath]
        obtain ⟨m, hm, hvalue, -⟩ := hget 0 n₀ rfl
        have := hstored.numbers 0 m hm
        rw [Node.number, hvalue]
        exact this
      refine ⟨n₀ :: ns₀, hpath, hlen.symm, Nat.succ_pos _, ?_, ?_, ?_⟩
      · intro i n hn
        obtain ⟨m, hm, hvalue, -⟩ := hget i n hn
        rw [htip', Node.number, hvalue]
        exact hstored.numbers i m hm
      · rw [htip']
        change oldest + (n₀ :: ns₀).length = tip s.nodes c + 1
        omega
      · intro n hn
        obtain ⟨i, hi⟩ := List.mem_iff_getElem?.mp hn
        obtain ⟨m, hm, hvalue, hbloom⟩ := hget i n hi
        have hgood := hstored.good m (List.mem_of_getElem? hm)
        refine ⟨?_, by rw [hbloom, hgood.bloom, hvalue]⟩
        rw [Node.number, hvalue]
        exact hgood.value

theorem Inv.step (h : Inv A t s) (call : Call W Z S H) :
    Inv A (t.step A s call) (s.step A call) ∧ Grows s (s.step A call) := by
  cases call with
  | applyUpdate update blockNumber baseTxCount oldest newClasses =>
    rw [Storage.step]
    cases hr : s.applyUpdate A update blockNumber baseTxCount oldest newClasses with
    | ok s' => exact h.applyUpdate hr
    | error e =>
      rw [Told.step, hr]
      exact ⟨h, Grows.refl _⟩
  | advanceTo oldest => exact h.advanceTo oldest

theorem Inv.run (h : Inv A t s) (calls : List (Call W Z S H)) :
    Inv A (t.run A s calls) (s.run A calls) ∧ Grows s (s.run A calls) := by
  induction calls generalizing t s with
  | nil => exact ⟨h, Grows.refl _⟩
  | cons call calls ih =>
    obtain ⟨hstep, hgrows⟩ := h.step call
    obtain ⟨hrun, hgrows'⟩ := ih hstep
    exact ⟨hrun, hgrows.trans hgrows'⟩

theorem inv_new : Inv A Told.new Storage.new := fun _ hc => by cases hc

/-! ### The chain is sound -/

/-- **A block whose every derived field is right.** -/
structure BlockSound (A : Adapter W Z S H T Y) (maps : Maps) (told : ℕ → Option (PreConfirmedBlock W Z S H))
    (n : Node H T Y) : Prop where
  receipts : n.value.receipts.length = n.value.transactions.length
  stateDiffs : n.value.transactionStateDiffs.length = n.value.transactions.length
  merged :
    n.value.stateDiff.value maps =
    DiffValue.mergeAll (n.value.transactionStateDiffs.map (DiffObject.value maps))
  transactionCount : n.value.header.transactionCount = n.value.transactions.length
  eventCount : n.value.header.eventCount = (n.value.receipts.map fun r => r.events.length).sum
  bloom : n.bloom = eventsBloom A n.value.receipts
  /-- It is the block obtained by adapting what was told for its slot, the whole block with the transactions
  of all deltas, wherever that is done. -/
  whole : ∃ source, told n.number = some source ∧ ∀ maps₀, ∃ r,
    adaptPreConfirmedBlock A maps₀ source n.number = .ok r ∧
    { r.2.value r.1 with newClasses := n.value.newClasses } = n.value.value maps

/-- **What a stored chain is.** -/
structure ChainSound (A : Adapter W Z S H T Y) (t : Told W Z S H) (s : Storage H T Y)
    (c : ChainReader) : Prop where
  reachable : Path s.nodes c.head (newestFirst s.nodes c.head c.length)
  length : (newestFirst s.nodes c.head c.length).length = c.length
  numbers : ∀ (i : ℕ) n, (newestFirst s.nodes c.head c.length)[i]? = some n → n.number + i = tip s.nodes c
  slot : t.slotAfterHead + c.length = tip s.nodes c + 1
  blocks : ∀ n ∈ newestFirst s.nodes c.head c.length, BlockSound A s.maps t.source n

theorem NodeGood.sound (h : NodeGood A maps t.source n) : BlockSound A maps t.source n := by
  obtain ⟨source, hsource, hgood⟩ := h.value
  obtain ⟨ps, hps, hvalue⟩ := hgood.made
  have htxs : n.value.transactions = ps.map fun p => p.1 := congrArg transactions hvalue
  have hreceipts : n.value.receipts = ps.map fun p => p.2.2 := congrArg receipts hvalue
  have hdiffs : n.value.transactionStateDiffs.map (DiffObject.value maps) = diffsOf ps :=
    congrArg transactionStateDiffs hvalue
  have hdiff : n.value.stateDiff.value maps = DiffValue.mergeAll (diffsOf ps) := congrArg stateDiff hvalue
  have hheader : n.value.header = ⟨n.value.header.number, ps.length, eventsOf ps, source.header⟩ :=
    congrArg header hvalue
  refine ⟨?_, ?_, ?_, ?_, ?_, h.bloom, source, hsource, fun maps₀ => ?_⟩
  · rw [htxs, hreceipts, List.length_map, List.length_map]
  · have := congrArg List.length hdiffs
    rw [List.length_map, diffsOf, List.length_map] at this
    rw [this, htxs, List.length_map]
  · rw [hdiff, hdiffs]
  · rw [hheader, htxs, List.length_map]
  · rw [hheader, hreceipts, List.map_map]
    rfl
  · obtain ⟨r, hr, -, -, -, hr'⟩ := adaptPreConfirmedBlock_spec maps₀ n.number hps
    refine ⟨r, hr, ?_⟩
    rw [hr', hvalue]
    rfl

theorem Stored.sound (h : Stored A t s c ns) : ChainSound A t s c := by
  have hall : newestFirst s.nodes c.head c.length = ns := by
    rw [h.path.newestFirst, h.length, List.take_length]
  refine ⟨?_, ?_, ?_, ?_, ?_⟩
  · rw [hall]
    exact h.path
  · rw [hall, h.length]
  · rw [hall]
    exact h.numbers
  · rw [h.length]
    exact h.slot
  · rw [hall]
    exact fun n hn => (h.good n hn).sound

/-- What a reader reads, newest first: the blocks and their filters. -/
def Storage.read (s : Storage H T Y) (c : ChainReader) :
    List (PreConfirmedValue H T Y × EventFilter.BloomFilter) :=
  (newestFirst s.nodes c.head c.length).map fun n => (n.value.value s.maps, n.bloom)

/-- A snapshot reads the same while more is allocated. -/
theorem Inv.read_snapshot (h : Inv A t s) (hgrows : Grows s s') (blockNumber : ℕ) :
    s'.read (s.snapshotForBlock blockNumber) = s.read (s.snapshotForBlock blockNumber) := by
  rw [snapshotForBlock]
  cases hinner : s.inner with
  | none => rfl
  | some c =>
    obtain ⟨ns, hstored⟩ := h c hinner
    simp only
    split_ifs
    · rw [Storage.read, Storage.read, hstored.path.newestFirst, (hstored.path.mono hgrows.nodes).newestFirst]
      refine List.map_congr_left fun n hn => ?_
      obtain ⟨source, -, hgood⟩ := (hstored.good n (List.mem_of_mem_take hn)).value
      rw [PreConfirmed.value_kept hgood hgrows.maps]
    · rfl

/-- **What an update with an effect leaves**: a new block in its slot, the blocks below, and none above. -/
structure Written (s : Storage H T Y) (update : PreConfirmedUpdate W Z S H) (blockNumber : ℕ)
    (newClasses : Classes)
    (s' : Storage H T Y) : Prop where
  allocated : s.nodes.length < s'.nodes.length
  slot : ∃ next, s'.entryAt blockNumber = some next ∧
    NextClasses update newClasses (s.entryAt blockNumber) next
  below : ∀ slot < blockNumber, s'.entryAt slot = s.entryAt slot
  above : ∀ slot > blockNumber, s'.entryAt slot = none

theorem Placed.written {n : NewChain H T Y} {above below : List (Node H T Y)}
    (h : Placed A t s update blockNumber newClasses oldest n above below) :
    Written s update blockNumber newClasses (s.push n) := by
  have hchain : (s.push n).chain = n.node :: below := h.stored.chain rfl
  refine ⟨by simp [push], ⟨n.node.value, ?_, h.next⟩, fun slot hlt => ?_, fun slot hgt => ?_⟩
  · rw [entryAt, hchain, entryIn_cons_self h.number]
  · rw [entryAt, entryAt, h.chain, hchain, entryIn_cons_ne (by rw [h.number]; exact hlt.ne')]
    refine (entryIn_append fun m hm => ?_).symm
    have := h.dropped m hm
    omega
  · rw [entryAt, hchain, entryIn_cons_ne (by rw [h.number]; exact hgt.ne)]
    refine entryIn_eq_none fun m hm => ?_
    obtain ⟨i, hi⟩ := List.mem_iff_getElem?.mp hm
    have := h.numbers i m hi
    omega

def Applied (s : Storage H T Y) (update : PreConfirmedUpdate W Z S H) (blockNumber : ℕ) (newClasses : Classes)
    (s' : Storage H T Y) : Prop :=
  (s' = s ∧ Ignored s update blockNumber newClasses) ∨ Written s update blockNumber newClasses s'

theorem Inv.applied (h : Inv A t s)
    (hr : s.applyUpdate A update blockNumber baseTxCount oldest newClasses = .ok s') :
    Applied s update blockNumber newClasses s' := by
  rcases applyUpdate_spec h hr with hsame | ⟨n, above, below, hplaced, rfl⟩
  · exact .inl hsame
  · exact .inr hplaced.written

/-- **The storage is sound.** After every sequence of calls the stored chain is the one that was told and is
sound, the next update that is applied writes its slot or has nothing new, and a snapshot taken at any point
reads at the end as it did then. -/
theorem storage_sound (A : Adapter W Z S H T Y) (calls : List (Call W Z S H)) :
    (∀ c, (Storage.new.run A calls).inner = some c →
      ChainSound A (Told.new.run A Storage.new calls) (Storage.new.run A calls) c) ∧
    (∀ update blockNumber baseTxCount oldest newClasses s',
      (Storage.new.run A calls).applyUpdate A update blockNumber baseTxCount oldest newClasses = .ok s' →
        Applied (Storage.new.run A calls) update blockNumber newClasses s') ∧
    ∀ before after, calls = before ++ after → ∀ blockNumber,
      (Storage.new.run A calls).read ((Storage.new.run A before).snapshotForBlock blockNumber) =
        (Storage.new.run A before).read ((Storage.new.run A before).snapshotForBlock blockNumber) := by
  have hinv := (inv_new (A := A)).run
  refine ⟨fun c hc => ?_, fun _ _ _ _ _ s' hr => (hinv calls).1.applied hr, ?_⟩
  · obtain ⟨ns, hstored⟩ := (hinv calls).1 c hc
    exact hstored.sound
  · rintro before after rfl blockNumber
    have hrun : new.run A (before ++ after) = (new.run A before).run A after := List.foldl_append
    rw [hrun]
    exact (hinv before).1.read_snapshot ((hinv before).1.run after).2 blockNumber

end Juno.Preconfirmed
