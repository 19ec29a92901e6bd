import Mathlib

/-!
# Reorganisations of the synchronizer

Package `sync`, the part of `Synchronizer` that notices that the remote chain has left the
local one and takes blocks back: `isReverting`, `storeTask`, `revertTask` and `revertHead`.

## The model

* A chain is the list of its blocks, the head first. `Linked` says that numbers go up by one
  and every block names the hash of the one below it.
* The remote is a chain that answers `BlockHeaderLatest` and `BlockByNumber`. Each event comes
  with the remote chain of that moment, so the remote may change from event to event but not
  within one.
* Heights are `uint64`: `lastPossiblyValidHeight` is computed modulo `2 ^ 64`.
* `removed` records the blocks taken back since the last stored block, and `stores` what was
  sent on the reorg feed with each stored block together with that record.

The main result is `reorg_converges_iff`.
-/

namespace Juno.Sync

open List

universe u v

/-- How blocks are numbered, hashed and linked. The block hash is taken to be collision free. -/
structure Blocks (B : Type u) (H : Type v) where
  number : B → ℕ
  hash : B → H
  parentHash : B → H
  /-- The parent hash of a genesis block. -/
  zero : H
  collisionFree : Function.Injective hash

structure ReorgBlockRange (H : Type v) where
  startBlockHash : H
  startBlockNum : ℕ
  endBlockHash : H
  endBlockNum : ℕ
  deriving DecidableEq

variable {B : Type u} {H : Type v} (K : Blocks B H)

/-- A chain, head first: numbers count down to 0, and every block names its parent. -/
inductive Linked : List B → Prop where
  | nil : Linked []
  | genesis {b : B} : K.number b = 0 → K.parentHash b = K.zero → Linked [b]
  | cons {b c : B} {l : List B} : K.number b = K.number c + 1 → K.parentHash b = K.hash c →
      Linked (c :: l) → Linked (b :: c :: l)

/-! ### The synchronizer -/

/-- The number of values of a `uint64`. -/
@[irreducible] def uint64Size : ℕ := 2 ^ 64

def sub64 (a b : ℕ) : ℕ := (a + (uint64Size - b)) % uint64Size

def blockByNumber (chain : List B) (n : ℕ) : Option B := chain.find? fun b => K.number b == n

/-- What `verifyBlockSuccession` may say. -/
inductive Succession where
  | ok
  /-- The protocol version is not supported. -/
  | unsupportedVersion
  /-- `expected block #%d, got block #%d`. -/
  | unexpectedNumber (expected got : ℕ)
  /-- `ErrParentDoesNotMatchHead`. -/
  | parentDoesNotMatchHead
  deriving DecidableEq

structure Synchronizer (B : Type u) (H : Type v) where
  chain : List B
  currReorg : Option (ReorgBlockRange H)
  /-- The blocks taken back since the last stored block, in the order they were taken back. -/
  removed : List B
  /-- For every stored block what was sent on the reorg feed with it, and what had been taken back
  before it. -/
  stores : List (Option (ReorgBlockRange H) × List B)

inductive Event where
  /-- The remote has no block at the height: the reorg check is made. -/
  | missing (height : ℕ)
  /-- The remote's block at the height is fetched, passes the sanity checks and is to be stored. The
  flags say whether its version is supported and whether the state accepts it. -/
  | fetched (height : ℕ) (versionOk stateOk : Bool)

section

variable [DecidableEq H]

def verifyBlockSuccession (chain : List B) (b : B) (versionOk : Bool) : Succession :=
  let expectedBlockNumber := match chain with
    | [] => 0
    | head :: _ => (K.number head + 1) % uint64Size
  let expectedParentHash := match chain with
    | [] => K.zero
    | head :: _ => K.hash head
  if versionOk = false then .unsupportedVersion
  else if expectedBlockNumber ≠ K.number b then .unexpectedNumber expectedBlockNumber (K.number b)
  else if K.parentHash b ≠ expectedParentHash then .parentDoesNotMatchHead
  else .ok

/-- `isReverting`: the last height that may still be valid, if there is a reorg. -/
def isReverting (chain remote : List B) (nextHeight : ℕ) : Option ℕ :=
  match chain with
  | [] => none
  | head :: _ =>
    if (K.number head + 1) % uint64Size ≠ nextHeight then none
    else
      match remote with
      | [] => none
      | remoteHead :: _ =>
        if K.number head < K.number remoteHead then none
        else
          match blockByNumber K chain (K.number remoteHead) with
          | none => none
          | some localHead =>
            if K.hash remoteHead = K.hash localHead then none else some (sub64 (K.number remoteHead) 1)

/-- `revertHead`, as far as the range is concerned: the first block taken back is the end of the
range, every further one its new start. -/
def extendReorg (b : B) : Option (ReorgBlockRange H) → ReorgBlockRange H
  | none => ⟨K.hash b, K.number b, K.hash b, K.number b⟩
  | some r => { r with startBlockHash := K.hash b, startBlockNum := K.number b }

/-- `revertHead`: `RevertHead` succeeds. -/
def revertHead (b : B) (rest : List B) (s : Synchronizer B H) : Synchronizer B H :=
  { s with chain := rest, currReorg := some (extendReorg K b s.currReorg), removed := s.removed ++ [b] }

/-- The loop of `revertTask`, over the local chain from its head. -/
def revertLoop (remote : List B) (lastPossiblyValidHeight : ℕ) : List B → Synchronizer B H → Synchronizer B H
  | [], s => s
  | b :: rest, s =>
    if K.number b ≤ lastPossiblyValidHeight then
      match blockByNumber K remote (K.number b) with
      | none => s
      | some remoteBlock =>
        if K.hash remoteBlock = K.hash b then s
        else if K.parentHash remoteBlock ≠ K.parentHash b then
          revertLoop remote lastPossiblyValidHeight rest (revertHead K b rest s)
        else revertHead K b rest s
    else revertLoop remote lastPossiblyValidHeight rest (revertHead K b rest s)

def revertTask (remote : List B) (lastPossiblyValidHeight : ℕ) (s : Synchronizer B H) : Synchronizer B H :=
  revertLoop K remote lastPossiblyValidHeight s.chain s

def storeTask (remote : List B) (b : B) (versionOk stateOk : Bool) (s : Synchronizer B H) :
    Synchronizer B H :=
  match verifyBlockSuccession K s.chain b versionOk with
  | .parentDoesNotMatchHead => revertTask K remote (sub64 (K.number b) 2) s
  | .ok =>
    if stateOk then ⟨b :: s.chain, none, [], s.stores ++ [(s.currReorg, s.removed)]⟩ else s
  | _ => s

variable (s : Synchronizer B H)

def step (remote : List B) : Event → Synchronizer B H
  | .missing height =>
    match isReverting K s.chain remote height with
    | none => s
    | some lastPossiblyValidHeight => revertTask K remote lastPossiblyValidHeight s
  | .fetched height versionOk stateOk =>
    match blockByNumber K remote height with
    | none => s
    | some b => storeTask K remote b versionOk stateOk s

/-- The state after a list of events, each with the remote chain it meets. -/
def run (events : List (List B × Event)) : Synchronizer B H :=
  events.foldl (fun s e => step K s e.1 e.2) s

def detects (remote : List B) : Event → Bool
  | .missing height => (isReverting K s.chain remote height).isSome
  | .fetched height versionOk _ =>
    match blockByNumber K remote height with
    | none => false
    | some b => verifyBlockSuccession K s.chain b versionOk == .parentDoesNotMatchHead

end

def Synchronizer.init (chain : List B) : Synchronizer B H := ⟨chain, none, [], []⟩

/-! ### What is expected -/

/-- The longest chain common to two chains; chains are listed head first, so it is a common suffix. -/
structure LongestCommon (c l r : List B) : Prop where
  left : c <:+ l
  right : c <:+ r
  longest : ∀ q, q <:+ l → q <:+ r → q <:+ c

/-- The range says exactly which blocks were taken back. -/
def Covers (removed : List B) : Option (ReorgBlockRange H) → Prop
  | none => removed = []
  | some r => ∃ last first, removed.head? = some last ∧ removed.getLast? = some first ∧
      r = ⟨K.hash first, K.number first, K.hash last, K.number last⟩ ∧
      ∀ n, (∃ b ∈ removed, K.number b = n) ↔ r.startBlockNum ≤ n ∧ n ≤ r.endBlockNum

/-- What a detected reorg should lead to, from `s` to `s'`. -/
structure Converges (s : Synchronizer B H) (remote : List B) (s' : Synchronizer B H) : Prop where
  common : LongestCommon s'.chain s.chain remote
  kept : ∀ b ∈ s.chain, b ∈ remote → b ∈ s'.chain
  recorded : s'.removed ++ s'.chain = s.removed ++ s.chain

/-! ### Linked chains -/

variable {removed : List B} {n : ℕ}

section

variable {K} {b c : B} {l r : List B}

theorem Linked.tail (h : Linked K (b :: l)) : Linked K l := by
  cases h with
  | genesis hn hp => exact .nil
  | cons hn hp h => exact h

theorem Linked.of_suffix (h : Linked K l) (hs : r <:+ l) : Linked K r := by
  obtain ⟨t, rfl⟩ := hs
  induction t with
  | nil => exact h
  | cons b t ih => exact ih (Linked.tail h)

theorem Linked.split (h : Linked K l) (hb : b ∈ l) : ∃ t r, l = t ++ b :: r ∧ Linked K (b :: r) := by
  obtain ⟨t, r, rfl⟩ := append_of_mem hb
  exact ⟨t, r, rfl, h.of_suffix (suffix_append t (b :: r))⟩

theorem Linked.number_head (h : Linked K (b :: l)) : K.number b = l.length := by
  induction l generalizing b with
  | nil =>
    cases h with
    | genesis hn hp => exact hn
  | cons c l ih =>
    cases h with
    | cons hn hp h => rw [hn, ih h, length_cons]

theorem Linked.number_lt (h : Linked K l) (hb : b ∈ l) : K.number b < l.length := by
  obtain ⟨t, r, rfl, hr⟩ := h.split hb
  have := hr.number_head
  rw [length_append, length_cons]
  omega

theorem Linked.eq_of_number (h : Linked K l) (hb : b ∈ l) (hc : c ∈ l) (hn : K.number b = K.number c) :
    b = c := by
  induction l with
  | nil => cases hb
  | cons d l ih =>
    have hd := h.number_head
    rcases mem_cons.mp hb with rfl | hb'
    · rcases mem_cons.mp hc with rfl | hc'
      · rfl
      · have := h.tail.number_lt hc'
        omega
    · rcases mem_cons.mp hc with rfl | hc'
      · have := h.tail.number_lt hb'
        omega
      · exact ih h.tail hb' hc'

theorem blockByNumber_eq_some (h : blockByNumber K l n = some b) : b ∈ l ∧ K.number b = n :=
  ⟨mem_of_find?_eq_some h, by have := find?_some h; rwa [beq_iff_eq] at this⟩

theorem Linked.exists_blockByNumber (h : Linked K l) (hn : n < l.length) :
    ∃ b, blockByNumber K l n = some b := by
  induction l with
  | nil => exact absurd hn (Nat.not_lt_zero n)
  | cons d l ih =>
    rw [blockByNumber, find?_cons]
    by_cases hd : K.number d = n
    · rw [beq_iff_eq.mpr hd]
      exact ⟨d, rfl⟩
    · rw [beq_eq_false_iff_ne.mpr hd]
      have := h.number_head
      rw [length_cons] at hn
      exact ih h.tail (by omega)

theorem Linked.tail_unique (hl : Linked K (b :: l)) (hr : Linked K (b :: r)) : l = r := by
  induction l generalizing b r with
  | nil =>
    have h1 := hl.number_head
    have h2 := hr.number_head
    rw [h1, length_nil] at h2
    exact (length_eq_zero_iff.mp h2.symm).symm
  | cons c l ih =>
    cases hl with
    | cons hn hp hl' =>
      cases hr with
      | genesis hn' hp' => omega
      | cons hn' hp' hr' =>
        have hcd := K.collisionFree (hp.symm.trans hp')
        subst hcd
        rw [ih hl' hr']

/-- A local block that is on the remote carries everything below it along. -/
theorem Linked.suffix_of_mem (hl : Linked K (b :: l)) (hr : Linked K r) (hb : b ∈ r) : (b :: l) <:+ r := by
  obtain ⟨t, r', rfl, hr'⟩ := hr.split hb
  rw [hl.tail_unique hr']
  exact suffix_append t (b :: r')

/-- If the block of the remote at `b`'s number has `b`'s parent, the chain below `b` is on the remote. -/
theorem Linked.suffix_of_parent (hl : Linked K (b :: l)) (hr : Linked K r) (hc : c ∈ r)
    (hn : K.number c = K.number b) (hp : K.parentHash c = K.parentHash b) : l <:+ r := by
  cases hl with
  | genesis hn' hp' => exact nil_suffix
  | cons hnb hpb hl' =>
    obtain ⟨t, r', rfl, hr'⟩ := hr.split hc
    cases hr' with
    | genesis hnc hpc => omega
    | cons hnc hpc hr'' =>
      refine hl'.suffix_of_mem hr ?_
      rw [K.collisionFree (hpb.symm.trans (hp.symm.trans hpc))]
      exact mem_append_right _ (mem_cons_of_mem _ mem_cons_self)

/-- What is left is the longest common chain if it is on the remote and nothing taken off it was. -/
theorem longestCommon_of_removed (hc : r <:+ l) (hnot : ∀ b ∈ removed, b ∉ l) :
    LongestCommon r (removed ++ r) l := by
  refine ⟨suffix_append removed r, hc, ?_⟩
  intro q hql hqr
  rcases suffix_or_suffix_of_suffix hql (suffix_append removed r) with h | h
  · exact h
  · -- a longer common chain would begin with a block that was taken back
    obtain ⟨t, rfl⟩ := h
    cases t with
    | nil => exact suffix_rfl
    | cons d t =>
      obtain ⟨t', ht'⟩ := hql
      have hmem : d ∈ removed := by
        have happ : (t' ++ d :: t) ++ r = removed ++ r := by
          rw [append_assoc]
          exact ht'
        rw [← append_cancel_right happ]
        exact mem_append_right _ mem_cons_self
      exact absurd (hqr.mem mem_cons_self) (hnot d hmem)

theorem Linked.parentHash_zero (h : Linked K l) (hb : b ∈ l) (hn : K.number b = 0) :
    K.parentHash b = K.zero := by
  obtain ⟨t, r, rfl, hr⟩ := h.split hb
  cases hr with
  | genesis _ hp => exact hp
  | cons hn' _ _ => omega

theorem Linked.parentHash_eq (h : Linked K l) (hb : b ∈ l) (hc : c ∈ l) (hn : K.number b = K.number c + 1) :
    K.parentHash b = K.hash c := by
  obtain ⟨t, r, rfl, hr⟩ := h.split hb
  cases hr with
  | genesis hn' _ => omega
  | @cons _ d r' hn' hp _ =>
    rw [hp, h.eq_of_number hc (mem_append_right _ (mem_cons_of_mem _ mem_cons_self)) (by omega)]

end

/-! ### The revert loop -/

variable {b : B} {lp height : ℕ} {rest : List B}

section

variable {K} {chain remote : List B} {s : Synchronizer B H}

/-- The record of what was taken back fits the chain, and the range fits the record. -/
structure Recorded (K : Blocks B H) (s : Synchronizer B H) : Prop where
  linked : Linked K (s.removed ++ s.chain)
  covers : Covers K s.removed s.currReorg

theorem Recorded.linked_chain (h : Recorded K s) : Linked K s.chain :=
  h.linked.of_suffix (List.suffix_append _ _)

theorem covers_extend {range : Option (ReorgBlockRange H)} (hl : Linked K (removed ++ b :: rest))
    (h : Covers K removed range) : Covers K (removed ++ [b]) (some (extendReorg K b range)) := by
  cases range with
  | none =>
    have hnil : removed = [] := h
    subst hnil
    refine ⟨b, b, rfl, rfl, rfl, fun n => ?_⟩
    simp only [nil_append, mem_singleton, exists_eq_left, extendReorg]
    omega
  | some r =>
    obtain ⟨last, first, hlast, hfirst, rfl, hnum⟩ := h
    obtain ⟨t, rfl⟩ : ∃ t, removed = t ++ [first] := getLast?_eq_some_iff.mp hfirst
    have hnext : K.number first = K.number b + 1 := by
      rw [append_assoc] at hl
      cases hl.of_suffix (suffix_append t _) with
      | cons hn _ _ => exact hn
    have hle : K.number first ≤ K.number last :=
      ((hnum (K.number first)).mp ⟨first, mem_append_right _ mem_cons_self, rfl⟩).2
    refine ⟨last, b, ?_, getLast?_concat, rfl, fun n => ?_⟩
    · rw [head?_append, hlast, Option.some_or]
    · simp only at hnum
      have hsplit : (∃ c ∈ t ++ [first] ++ [b], K.number c = n) ↔
          (∃ c ∈ t ++ [first], K.number c = n) ∨ K.number b = n := by
        simp only [mem_append, mem_singleton, or_and_right, exists_or, exists_eq_left]
      rw [hsplit, hnum]
      simp only [extendReorg]
      omega

theorem Recorded.revertHead (h : Recorded K s) (hs : s.chain = b :: rest) :
    Recorded K (revertHead K b rest s) := by
  have hl := h.linked
  rw [hs] at hl
  refine ⟨?_, covers_extend hl h.covers⟩
  rw [Juno.Sync.revertHead, append_assoc]
  exact hl

variable [DecidableEq H]

/-- Whatever the loop takes back is recorded, and nothing is sent. -/
structure Reverted (K : Blocks B H) (s s' : Synchronizer B H) : Prop where
  recorded : Recorded K s'
  length_le : s'.chain.length ≤ s.chain.length
  stores : s'.stores = s.stores

theorem revertLoop_reverted (lp : ℕ) (h : Recorded K s) (hs : s.chain = chain) :
    Reverted K s (revertLoop K remote lp chain s) := by
  induction chain generalizing s with
  | nil => exact ⟨h, le_rfl, rfl⟩
  | cons b rest ih =>
    have hshorter : rest.length ≤ s.chain.length := by rw [hs, length_cons]; omega
    have hrest := ih (h.revertHead hs) rfl
    have hmore : Reverted K s (revertLoop K remote lp rest (revertHead K b rest s)) :=
      ⟨hrest.recorded, hrest.length_le.trans hshorter, hrest.stores⟩
    rw [revertLoop]
    split_ifs
    · cases blockByNumber K remote (K.number b) with
      | none => exact ⟨h, le_rfl, rfl⟩
      | some remoteBlock =>
        simp only
        split_ifs
        · exact ⟨h, le_rfl, rfl⟩
        · exact hmore
        · exact ⟨h.revertHead hs, hshorter, rfl⟩
    · exact hmore

/-- The blocks taken back are those above the common chain. -/
def CutBack (remote chain : List B) (s s' : Synchronizer B H) : Prop :=
  ∃ gone, chain = gone ++ s'.chain ∧ s'.removed = s.removed ++ gone ∧ s'.chain <:+ remote ∧
    ∀ b ∈ gone, b ∉ remote

/-- **The loop stops at the common chain**, if no block above the last possibly valid height is on the
remote and the remote has a block for every local one up to it. -/
theorem revertLoop_common (hl : Linked K chain) (hr : Linked K remote)
    (habove : ∀ b ∈ chain, lp < K.number b → b ∉ remote)
    (hanswers : ∀ n ≤ lp, n < chain.length → n < remote.length) (hs : s.chain = chain) :
    CutBack remote chain s (revertLoop K remote lp chain s) := by
  induction chain generalizing s with
  | nil =>
    exact ⟨[], hs.symm, (append_nil _).symm, (by rw [revertLoop, hs]; exact nil_suffix),
      fun _ h => by cases h⟩
  | cons b rest ih =>
    -- one more block taken back, if it is not on the remote
    have hcons (hb : b ∉ remote) :
        CutBack remote (b :: rest) s (revertLoop K remote lp rest (revertHead K b rest s)) := by
      obtain ⟨gone, hchain, hremoved, hsuffix, hgone⟩ :=
        ih hl.tail (fun c hc => habove c (mem_cons_of_mem _ hc))
        (fun n hn hlt => hanswers n hn (by rw [length_cons]; omega)) (s := revertHead K b rest s) rfl
      refine ⟨b :: gone, congrArg (b :: ·) hchain, ?_, hsuffix, forall_mem_cons.mpr ⟨hb, hgone⟩⟩
      rw [hremoved, revertHead, append_assoc]
      rfl
    rw [revertLoop]
    split_ifs with hle
    · have hlt := hl.number_lt mem_cons_self
      obtain ⟨remoteBlock, hfound⟩ := hr.exists_blockByNumber (hanswers _ hle hlt)
      obtain ⟨hmem, hnumber⟩ := blockByNumber_eq_some hfound
      rw [hfound]
      simp only
      split_ifs with hhash hparent
      · refine ⟨[], hs.symm, (append_nil _).symm, ?_, fun _ h => by cases h⟩
        rw [K.collisionFree hhash] at hmem
        rw [hs]
        exact hl.suffix_of_mem hr hmem
      · exact hcons fun hb => hhash (by rw [hr.eq_of_number hmem hb hnumber])
      · have hb : b ∉ remote := fun hb => hhash (by rw [hr.eq_of_number hmem hb hnumber])
        exact ⟨[b], rfl, rfl, hl.suffix_of_parent hr hmem hnumber (not_ne_iff.mp hparent),
          forall_mem_singleton.mpr hb⟩
    · exact hcons (habove b mem_cons_self (by omega))

theorem revertTask_converges (hl : Linked K s.chain) (hr : Linked K remote)
    (habove : ∀ b ∈ s.chain, lp < K.number b → b ∉ remote)
    (hanswers : ∀ n ≤ lp, n < s.chain.length → n < remote.length) :
    Converges s remote (revertTask K remote lp s) := by
  obtain ⟨gone, hchain, hremoved, hsuffix, hgone⟩ := revertLoop_common hl hr habove hanswers rfl
  refine ⟨?_, ?_, ?_⟩
  · have hcommon := longestCommon_of_removed hsuffix hgone
    rwa [← hchain] at hcommon
  · intro b hb hbr
    rw [hchain, mem_append] at hb
    exact hb.resolve_left fun hb => hgone b hb hbr
  · rw [revertTask, hremoved, append_assoc, ← hchain]

/-! ### Detection -/

theorem sub64_of_le {a b : ℕ} (hb : b ≤ a) (hpos : 0 < b) (ha : a < uint64Size) : sub64 a b = a - b := by
  rw [sub64, show a + (uint64Size - b) = (a - b) + uint64Size by omega, Nat.add_mod_right,
    Nat.mod_eq_of_lt (by omega)]

theorem sub64_zero_one : sub64 0 1 = uint64Size - 1 := by
  have hpos : 0 < uint64Size := by unfold uint64Size; exact Nat.two_pow_pos 64
  rw [sub64, Nat.zero_add, Nat.mod_eq_of_lt (by omega)]

theorem isReverting_eq_some (h : isReverting K chain remote height = some lp) :
    ∃ remoteHead rest localHead, remote = remoteHead :: rest ∧ localHead ∈ chain ∧
      K.number localHead = K.number remoteHead ∧ K.hash remoteHead ≠ K.hash localHead ∧
      lp = sub64 (K.number remoteHead) 1 := by
  revert h
  fun_cases isReverting K chain remote height <;> intro h <;> (try simp only [*, if_true, if_false] at h)
    <;> cases h
  case case7 remoteHead rest _ localHead hhash hfound =>
    obtain ⟨hmem, hnumber⟩ := blockByNumber_eq_some hfound
    exact ⟨remoteHead, rest, localHead, rfl, hmem, hnumber, hhash, rfl⟩

/-- What the check of a block of the remote shows, if it can be stored and if it does not fit. -/
theorem verifyBlockSuccession_shows (hl : Linked K chain) (hr : Linked K remote)
    (hlen : chain.length < uint64Size) (hb : b ∈ remote) (versionOk : Bool) :
    (verifyBlockSuccession K chain b versionOk = .ok → Linked K (b :: chain)) ∧
    (verifyBlockSuccession K chain b versionOk = .parentDoesNotMatchHead →
      ∃ head rest, chain = head :: rest ∧ K.number b = K.number head + 1 ∧ K.parentHash b ≠ K.hash head) := by
  rw [verifyBlockSuccession.eq_def]
  cases chain with
  | nil =>
    simp only
    split_ifs with hversion hnumber hparent
    · simp
    · simp
    · exact absurd (hr.parentHash_zero hb (not_ne_iff.mp hnumber).symm) hparent
    · exact ⟨fun _ => .genesis (not_ne_iff.mp hnumber).symm (not_ne_iff.mp hparent), by simp⟩
  | cons head rest =>
    have := hl.number_head
    rw [length_cons] at hlen
    simp only
    rw [Nat.mod_eq_of_lt (by omega)]
    split_ifs with hversion hnumber hparent
    · simp
    · simp
    · exact ⟨by simp, fun _ => ⟨head, rest, rfl, (not_ne_iff.mp hnumber).symm, hparent⟩⟩
    · exact ⟨fun _ => .cons (not_ne_iff.mp hnumber).symm (not_ne_iff.mp hparent) hl, by simp⟩

/-- A reorg seen by comparing heads: the heights are right unless the remote is at its genesis. -/
theorem isReverting_converges (hl : Linked K s.chain) (hr : Linked K remote)
    (hrlen : remote.length < uint64Size) (h : isReverting K s.chain remote height = some lp)
    (hcond : remote.length = 1 → s.chain.length = 1) : Converges s remote (revertTask K remote lp s) := by
  obtain ⟨remoteHead, rest, localHead, rfl, hmem, hnumber, hhash, rfl⟩ := isReverting_eq_some h
  have hheight := hr.number_head
  rw [length_cons] at hrlen hcond
  rcases Nat.eq_zero_or_pos (K.number remoteHead) with hzero | hpos
  · have hone := hcond (by omega)
    have hmax : sub64 (K.number remoteHead) 1 = uint64Size - 1 := by rw [hzero, sub64_zero_one]
    refine revertTask_converges hl hr (fun b hb hlt => ?_) fun n hn hlt => ?_
    · have := hl.number_lt hb
      omega
    · rw [length_cons]
      omega
  · have hlast : sub64 (K.number remoteHead) 1 = K.number remoteHead - 1 :=
      sub64_of_le hpos Nat.one_pos (by omega)
    refine revertTask_converges hl hr (fun b hb hlt hbr => hhash ?_) fun n hn hlt => ?_
    · -- a block at the remote's height that is on the remote is its head
      have hle := hr.number_lt hbr
      rw [length_cons] at hle
      rw [hr.eq_of_number mem_cons_self hbr (by omega), hl.eq_of_number hmem hb (by omega)]
    · rw [length_cons]
      omega

/-- With the remote at its genesis the last possibly valid height wraps around, and the head of a higher
local chain is looked up on the remote, which does not have it. -/
theorem isReverting_stuck (hl : Linked K s.chain) (hr : Linked K remote) (hllen : s.chain.length < uint64Size)
    (h : isReverting K s.chain remote height = some lp) (hone : remote.length = 1)
    (hlong : s.chain.length ≠ 1) : revertTask K remote lp s = s ∧ ¬ s.chain <:+ remote := by
  obtain ⟨remoteHead, rest, localHead, rfl, hmem, hnumber, -, rfl⟩ := isReverting_eq_some h
  have hheight := hr.number_head
  rw [length_cons] at hone
  rw [revertTask, show K.number remoteHead = 0 by omega, sub64_zero_one]
  cases hchain : s.chain with
  | nil =>
    rw [hchain] at hmem
    cases hmem
  | cons head tail =>
    rw [hchain, length_cons] at hllen hlong
    rw [hchain] at hl
    have hhead := hl.number_head
    have hnone : blockByNumber K (remoteHead :: rest) (K.number head) = none := by
      refine find?_eq_none.mpr fun b hb => ?_
      have := hr.number_lt hb
      rw [length_cons] at this
      rw [beq_iff_eq]
      omega
    refine ⟨?_, fun hsuffix => ?_⟩
    · rw [revertLoop, if_pos (by omega), hnone]
    · have := hsuffix.length_le
      rw [length_cons, length_cons] at this
      omega

/-- A reorg seen by a block that does not fit: the heights are always right. -/
theorem mismatch_converges (hl : Linked K s.chain) (hr : Linked K remote)
    (hllen : s.chain.length < uint64Size) {versionOk : Bool} (hb : b ∈ remote)
    (h : verifyBlockSuccession K s.chain b versionOk = .parentDoesNotMatchHead) :
    Converges s remote (revertTask K remote (sub64 (K.number b) 2) s) ∧ remote.length ≠ 1 := by
  obtain ⟨head, rest, hchain, hnumber, hparent⟩ := (verifyBlockSuccession_shows hl hr hllen hb versionOk).2 h
  have hhead : head ∈ s.chain := by rw [hchain]; exact mem_cons_self
  have hheight : K.number head + 1 = s.chain.length := by
    rw [hchain] at hl ⊢
    rw [hl.number_head, length_cons]
  have hlt := hr.number_lt hb
  refine ⟨revertTask_converges hl hr (fun d hd habove hdr => hparent ?_) fun n hn hn' => by omega, by omega⟩
  have hdlt := hl.number_lt hd
  have hd' : K.number d = K.number head := by
    rcases Nat.eq_zero_or_pos (K.number head) with hzero | hpos
    · omega
    · rw [sub64_of_le (by omega) (by omega) (by omega)] at habove
      omega
  rw [hl.eq_of_number hhead hd hd'.symm]
  exact hr.parentHash_eq hb hdr (by omega)

/-! ### Runs -/

/-- What holds throughout: the record fits, the heights are `uint64`, and every range sent was right. -/
structure Inv (K : Blocks B H) (s : Synchronizer B H) : Prop where
  recorded : Recorded K s
  /-- The chain fits in `uint64` heights. -/
  bounded : s.chain.length < uint64Size
  sent : ∀ x ∈ s.stores, Covers K x.2 x.1

structure IsRemote (K : Blocks B H) (remote : List B) : Prop where
  linked : Linked K remote
  bounded : remote.length < uint64Size

theorem Inv.revertTask (h : Inv K s) (lp : ℕ) : Inv K (revertTask K remote lp s) := by
  have hrev : Reverted K s (Juno.Sync.revertTask K remote lp s) := revertLoop_reverted lp h.recorded rfl
  refine ⟨hrev.recorded, hrev.length_le.trans_lt h.bounded, ?_⟩
  rw [hrev.stores]
  exact h.sent

theorem Inv.storeTask (h : Inv K s) (hr : IsRemote K remote) (hb : b ∈ remote)
    (versionOk stateOk : Bool) : Inv K (storeTask K remote b versionOk stateOk s) := by
  fun_cases Juno.Sync.storeTask K remote b versionOk stateOk s
  case case1 => exact h.revertTask _
  case case2 hverify _ =>
    have hl :=
      (verifyBlockSuccession_shows h.recorded.linked_chain hr.linked h.bounded hb versionOk).1 hverify
    have hlt := hr.linked.number_lt hb
    rw [hl.number_head] at hlt
    refine ⟨⟨hl, rfl⟩, lt_of_le_of_lt hlt hr.bounded, ?_⟩
    intro x hx
    rcases mem_append.mp hx with hx | hx
    · exact h.sent x hx
    · rw [mem_singleton] at hx
      rw [hx]
      exact h.recorded.covers
  all_goals exact h

theorem Inv.step (h : Inv K s) (hr : IsRemote K remote) (e : Event) : Inv K (step K s remote e) := by
  fun_cases Juno.Sync.step K s remote e
  case case2 lp _ => exact h.revertTask lp
  case case4 versionOk stateOk b hfound =>
    exact h.storeTask hr (blockByNumber_eq_some hfound).1 versionOk stateOk
  all_goals exact h

theorem Inv.run (h : Inv K s) {events : List (List B × Event)} (hev : ∀ e ∈ events, IsRemote K e.1) :
    Inv K (run K s events) := by
  induction events generalizing s with
  | nil => exact h
  | cons e events ih =>
    rw [forall_mem_cons] at hev
    exact ih (h.step hev.1 e.2) hev.2

omit [DecidableEq H] in
theorem inv_init (hc : IsRemote K chain) : Inv K (Synchronizer.init chain) :=
  ⟨⟨hc.linked, rfl⟩, hc.bounded, fun _ hx => by cases hx⟩

/-- From a state reached, a detected reorg converges exactly if the remote is not at its genesis while
the local chain is higher. -/
theorem Inv.converges_iff (h : Inv K s) (hr : IsRemote K remote) {e : Event}
    (hdet : detects K s remote e = true) :
    Converges s remote (Juno.Sync.step K s remote e) ↔ (remote.length = 1 → s.chain.length = 1) := by
  cases e with
  | missing height =>
    rw [Juno.Sync.step]
    rw [detects] at hdet
    obtain ⟨lp, hlp⟩ := Option.isSome_iff_exists.mp hdet
    rw [hlp]
    constructor
    · intro hconv hone
      by_contra hlong
      obtain ⟨hsame, hnot⟩ := isReverting_stuck h.recorded.linked_chain hr.linked h.bounded hlp hone hlong
      have hcommon : (Juno.Sync.revertTask K remote lp s).chain <:+ remote := hconv.common.right
      rw [hsame] at hcommon
      exact hnot hcommon
    · exact isReverting_converges h.recorded.linked_chain hr.linked hr.bounded hlp
  | fetched height versionOk stateOk =>
    rw [Juno.Sync.step]
    rw [detects] at hdet
    cases hfound : blockByNumber K remote height with
    | none =>
      rw [hfound] at hdet
      exact absurd hdet Bool.false_ne_true
    | some b =>
      rw [hfound] at hdet
      have hverify := beq_iff_eq.mp hdet
      obtain ⟨hconv, hlen⟩ := mismatch_converges h.recorded.linked_chain hr.linked h.bounded
        (blockByNumber_eq_some hfound).1 hverify
      simp only [Juno.Sync.storeTask, hverify]
      exact ⟨fun _ hone => absurd hone hlen, fun _ => hconv⟩

end

section

variable [DecidableEq H]

/-- **Reorg convergence.** From every linked local chain, after any events with any remote chains, a
detected reorg leaves the longest common chain, takes back no block of the remote, and every range sent so
far and the pending one cover exactly the blocks taken back; this holds if and only if it is not the case
that the remote is at its genesis and the local chain is higher. -/
theorem reorg_converges_iff {chain : List B} (hc : IsRemote K chain) {events : List (List B × Event)}
    (hev : ∀ e ∈ events, IsRemote K e.1) {remote : List B} (hr : IsRemote K remote) {e : Event}
    (hdet : detects K (run K (Synchronizer.init chain) events) remote e = true) :
    (Converges (run K (Synchronizer.init chain) events) remote
        (step K (run K (Synchronizer.init chain) events) remote e) ∧
      Covers K (step K (run K (Synchronizer.init chain) events) remote e).removed
        (step K (run K (Synchronizer.init chain) events) remote e).currReorg ∧
      ∀ x ∈ (step K (run K (Synchronizer.init chain) events) remote e).stores, Covers K x.2 x.1) ↔
    (remote.length = 1 → (run K (Synchronizer.init chain) events).chain.length = 1) := by
  have hinv := (inv_init hc).run hev
  have hstep := hinv.step hr e
  rw [← hinv.converges_iff hr hdet]
  exact ⟨fun h => h.1, fun h => ⟨h, hstep.recorded.covers, hstep.sent⟩⟩

end

/-! ### Two short chains -/

/-- Blocks that are their own history: a block is the list of the labels on the way down to its genesis. -/
def pathBlocks : Blocks (List ℕ) (List ℕ) where
  number b := b.length - 1
  hash b := b
  parentHash b := b.tail
  zero := []
  collisionFree _ _ h := h

/-- Three blocks on one genesis. -/
def localChain : List (List ℕ) := [[3, 2, 1], [2, 1], [1]]

def remoteChain : List (List ℕ) := [[4, 1], [1]]

theorem isRemote_localChain : IsRemote pathBlocks localChain :=
  ⟨.cons rfl rfl (.cons rfl rfl (.genesis rfl rfl)), by unfold uint64Size; decide⟩

theorem isRemote_remoteChain : IsRemote pathBlocks remoteChain :=
  ⟨.cons rfl rfl (.genesis rfl rfl), by unfold uint64Size; decide⟩

theorem reorg_converges_shorter :
    detects pathBlocks (Synchronizer.init localChain) remoteChain (.missing 3) = true ∧
      (step pathBlocks (Synchronizer.init localChain) remoteChain (.missing 3)).chain = [[1]] ∧
      Converges (Synchronizer.init localChain) remoteChain
        (step pathBlocks (Synchronizer.init localChain) remoteChain (.missing 3)) := by
  have hev : ∀ e ∈ ([] : List (List (List ℕ) × Event)), IsRemote pathBlocks e.1 :=
    fun e he => by cases he
  have hdet : detects pathBlocks (Synchronizer.init localChain) remoteChain (.missing 3) = true := by
    decide +kernel
  have hiff := reorg_converges_iff pathBlocks isRemote_localChain hev isRemote_remoteChain hdet
  exact ⟨hdet, by decide +kernel, (hiff.mpr fun hone => absurd hone (by decide)).1⟩

/-- A remote with a genesis of its own and nothing else. -/
def otherGenesis : List (List ℕ) := [[5]]

/-- **A reorg that is detected and never carried out**: the remote has only a genesis block, which is not
the local one. `remoteHeight - 1` is the largest `uint64`, so the local head is looked up on the remote,
which has no block of that height, and `revertTask` gives up without taking anything back. -/
theorem genesis_reorg_stuck :
    detects pathBlocks (Synchronizer.init localChain) otherGenesis (.missing 3) = true ∧
      (step pathBlocks (Synchronizer.init localChain) otherGenesis (.missing 3)).chain = localChain ∧
      ¬ Converges (Synchronizer.init localChain) otherGenesis
        (step pathBlocks (Synchronizer.init localChain) otherGenesis (.missing 3)) := by
  have hchain : (step pathBlocks (Synchronizer.init localChain) otherGenesis (.missing 3)).chain =
      localChain := by
    decide +kernel
  refine ⟨by decide +kernel, hchain, fun h => ?_⟩
  have hsuffix := h.common.right.length_le
  rw [hchain] at hsuffix
  exact absurd hsuffix (by decide)

/-! ### Catching up -/

section

variable {K} [DecidableEq H] {s : Synchronizer B H} {chain remote : List B} {n : ℕ}

/-- A round of `syncBlocks`: the block after the local head is fetched. -/
def fetchNext (K : Blocks B H) (remote : List B) (s : Synchronizer B H) : Synchronizer B H :=
  step K s remote (.fetched s.chain.length true true)

theorem verifyBlockSuccession_next (hl : Linked K chain) (hlen : chain.length < uint64Size)
    (hb : K.number b = chain.length) :
    verifyBlockSuccession K chain b true = .ok ∨
      verifyBlockSuccession K chain b true = .parentDoesNotMatchHead := by
  cases chain with
  | nil => simp [verifyBlockSuccession, hb, Decidable.em]
  | cons head rest =>
    rw [length_cons] at hlen
    simp [verifyBlockSuccession, hb, hl.number_head, Nat.mod_eq_of_lt hlen, Decidable.em]

/-- The first round finds the common chain, and every further one stores a block. -/
theorem fetchNext_suffix (h : Inv K s) (hr : IsRemote K remote) (hlt : s.chain.length < remote.length) :
    (fetchNext K remote s).chain <:+ remote ∧
    (s.chain <:+ remote → (fetchNext K remote s).chain.length = s.chain.length + 1) := by
  have hl := h.recorded.linked_chain
  obtain ⟨b, hfound⟩ := hr.linked.exists_blockByNumber hlt
  obtain ⟨hb, hnumber⟩ := blockByNumber_eq_some hfound
  obtain ⟨hstored, hother⟩ := verifyBlockSuccession_shows hl hr.linked h.bounded hb true
  rcases verifyBlockSuccession_next hl h.bounded hnumber with hok | hmismatch
  · simp only [fetchNext, step, hfound, storeTask, hok, if_true]
    exact ⟨(hstored hok).suffix_of_mem hr.linked hb, fun _ => rfl⟩
  · simp only [fetchNext, step, hfound, storeTask, hmismatch]
    refine ⟨(mismatch_converges hl hr.linked h.bounded hb hmismatch).1.common.right, fun hs => ?_⟩
    obtain ⟨head, rest, hchain, hnext, hparent⟩ := hother hmismatch
    exact absurd (hr.linked.parentHash_eq hb (hs.subset (hchain ▸ mem_cons_self)) hnext) hparent

theorem fetchNext_iterate (h : Inv K s) (hr : IsRemote K remote) (hs : s.chain <:+ remote)
    (hn : remote.length ≤ s.chain.length + n) : ((fetchNext K remote)^[n] s).chain = remote := by
  induction n generalizing s with
  | zero => exact hs.eq_of_length_le hn
  | succ n ih =>
    rw [Function.iterate_succ_apply]
    rcases hs.length_le.lt_or_eq with hlt | heq
    · obtain ⟨hs', hlen⟩ := fetchNext_suffix h hr hlt
      exact ih (h.step hr _) hs' (by rw [hlen hs]; omega)
    · -- the remote has no further block
      have hsame : fetchNext K remote s = s := by
        rw [fetchNext, step, blockByNumber, find?_eq_none.mpr]
        intro b hb
        rw [heq, beq_iff_eq]
        exact (hr.linked.number_lt hb).ne
      rw [hsame]
      exact ih h hs (heq ▸ Nat.le_add_right _ _)

/-- **Catching up**, after any events with any remotes. -/
theorem run_catchUp (hc : IsRemote K chain) {events : List (List B × Event)}
    (hev : ∀ e ∈ events, IsRemote K e.1) (hr : IsRemote K remote)
    (hlt : (run K (Synchronizer.init chain) events).chain.length < remote.length) (hn : remote.length < n) :
    ((fetchNext K remote)^[n] (run K (Synchronizer.init chain) events)).chain = remote := by
  have hinv := (inv_init hc).run hev
  obtain ⟨n, rfl⟩ := Nat.exists_eq_add_one_of_ne_zero (Nat.ne_zero_of_lt hn)
  rw [Function.iterate_succ_apply]
  exact fetchNext_iterate (hinv.step hr _) hr (fetchNext_suffix hinv hr hlt).1 (by omega)

theorem run_catchUp_shorter :
    ((fetchNext pathBlocks localChain)^[4] (run pathBlocks (Synchronizer.init remoteChain) [])).chain =
      localChain :=
  run_catchUp isRemote_remoteChain (fun e he => by cases he) isRemote_localChain (by decide) (by decide)

end

end Juno.Sync
