import Juno.Core.DiffValue
import Juno.Statebackend.Store

/-!
# Diffs over a state

Blocks that are not stored yet can be read as one merged diff over the state at the head
(`core/pending`). This module compares that with the state after the blocks are stored, query by query.

## The model

* `Overlay` — a merged diff and class definitions over the state at a block, with the readers of
  `pending.State`.
* `Fits` — when a query on it gives what the state database gives after the blocks.

The main result is `Overlay.query_iff`.
-/

namespace Juno

open DiffValue

def DiffValue.slot (d : DiffValue) (addr key : Felt) : Option Felt := (d.storage addr).bind (· key)

theorem DiffValue.slot_merge (d e : DiffValue) (addr key : Felt) :
    (d.merge e).slot addr key = (e.slot addr key).or (d.slot addr key) := by
  rw [slot, slot, slot]
  change (overlayStorage (d.storage addr) (e.storage addr)).bind (· key) = _
  cases e.storage addr with
  | none => rfl
  | some new => rfl

theorem DiffValue.mergeAll_concat (ds : List DiffValue) (d : DiffValue) :
    mergeAll (ds ++ [d]) = (mergeAll ds).merge d := by
  rw [mergeAll, List.foldl_append]
  rfl

theorem StateDiff.slot_value (diff : StateDiff) (addr key : Felt) :
    diff.value.slot addr key = diff.slot addr key := by
  change ((diff.storageDiffs.lookup addr).map fun writes k => writes.lookup k).bind (· key) = _
  rw [StateDiff.slot]
  cases diff.storageDiffs.lookup addr with
  | none => rfl
  | some writes => rfl

end Juno

namespace Juno.Statebackend

open Lib CoreState List StateHistory

variable {db db' : DB} {m : ℕ} {α : Type} {b : Block} {e : StateError} {hash : Felt} {c : Crypto}

/-! ### The readers -/

structure Overlay where
  stateDiff : DiffValue
  newClasses : Felt → Option ClassDefinition
  /-- The database of `head`. -/
  db : DB
  headBlock : ℕ
  blockNumber : ℕ

/-- The first answer that there is, or else that of the head. -/
def orHead (found : Option Answer) (head : Except StateError Answer) : Except StateError Answer :=
  match found with
  | some answer => .ok answer
  | none => head

/-- The readers of `pending.State`, on values. -/
def Overlay.query (o : Overlay) (q : Query) : Except StateError Answer :=
  orHead
    (match q with
    | .contractClassHash addr => ((o.stateDiff.replaced addr).or (o.stateDiff.deployed addr)).map .felt
    | .contractNonce addr =>
      ((o.stateDiff.nonces addr).or ((o.stateDiff.deployed addr).map fun _ => 0)).map .felt
    | .contractStorage addr key =>
      ((o.stateDiff.slot addr key).or ((o.stateDiff.deployed addr).map fun _ => 0)).map .felt
    | .contractStorageLastUpdatedBlock addr key =>
      (((o.stateDiff.slot addr key).map fun _ => o.blockNumber).or ((o.stateDiff.deployed addr).map
        fun _ => 0)).map .block
    | .classDefinition classHash => (o.newClasses classHash).map .definition
    | .compiledClassHash classHash => (o.stateDiff.declaredV1 classHash).map .felt
    | .compiledClassHashV2 classHash => (o.stateDiff.migrated classHash).map .felt)
    (StateHistory.query o.db o.headBlock q)

/-! ### Blocks -/

variable (bs : List Block)

def merged : DiffValue := DiffValue.mergeAll (bs.map fun b => b.diff.value)

/-- What the last block says that says anything. -/
def latest (f : Block → Option α) (bs : List Block) : Option α := bs.foldl (fun acc b => (f b).or acc) none

theorem merged_concat (b : Block) : merged (bs ++ [b]) = (merged bs).merge b.diff.value := by
  rw [merged, map_append, map_singleton, DiffValue.mergeAll_concat]
  rfl

theorem latest_concat (f : Block → Option α) (bs : List Block) (b : Block) :
    latest f (bs ++ [b]) = (f b).or (latest f bs) := by
  rw [latest, foldl_append]
  rfl

theorem deployed_merged_concat (b : Block) (addr : Felt) :
    (merged (bs ++ [b])).deployed addr = (b.diff.deployedContracts.lookup addr).or
      ((merged bs).deployed addr) := by
  rw [merged_concat]
  rfl

theorem replaced_merged_concat (b : Block) (addr : Felt) :
    (merged (bs ++ [b])).replaced addr = (b.diff.replacedClasses.lookup addr).or
      ((merged bs).replaced addr) := by
  rw [merged_concat]
  rfl

theorem slot_merged_concat (b : Block) (addr key : Felt) :
    (merged (bs ++ [b])).slot addr key = (b.diff.slot addr key).or ((merged bs).slot addr key) := by
  rw [merged_concat, DiffValue.slot_merge, StateDiff.slot_value]

/-- The overlay of blocks over the state at a block, with their class definitions. -/
def overlayOf (db : DB) (m : ℕ) (bs : List Block) : Overlay :=
  ⟨merged bs, fun classHash => latest (fun b => b.declaredClasses.lookup classHash) bs, db, m, m + bs.length⟩

/-! ### When a query fits -/

def present (db : DB) (addr : Felt) : Prop := db.contracts addr ≠ none

/-- **When a query on the overlay gives what the stored state gives.** For a contract that is not a system
contract its class hash, nonce and storage always do. -/
def Fits (db : DB) (m : ℕ) (bs : List Block) (db' : DB) : Query → Prop
  | .contractClassHash addr => isSystemContract addr = true →
      -- it is there afterwards exactly if it was there before or is given a class,
      -- and its last class is the one shown
      (present db' addr ↔
          present db addr ∨ ((merged bs).replaced addr).or ((merged bs).deployed addr) ≠ none) ∧
        latest (fun b => b.diff.classHash addr) bs =
          ((merged bs).replaced addr).or ((merged bs).deployed addr)
  | .contractNonce addr => isSystemContract addr = true →
      (present db' addr ↔ present db addr ∨ (merged bs).nonces addr ≠ none ∨
        (merged bs).deployed addr ≠ none) ∧
        ((merged bs).nonces addr = none → (merged bs).deployed addr ≠ none → db.contractNonceAt addr m = 0)
  | .contractStorage addr key => isSystemContract addr = true →
      (present db' addr ↔ present db addr ∨ (merged bs).slot addr key ≠ none ∨
        (merged bs).deployed addr ≠ none) ∧
        ((merged bs).slot addr key = none → (merged bs).deployed addr ≠ none →
          db.contractStorageAt addr key m = 0)
  | .contractStorageLastUpdatedBlock addr key =>
      -- a slot that is written is written by the last block
      ((merged bs).slot addr key ≠ none → ∃ b ∈ bs.getLast?, b.diff.slot addr key ≠ none) ∧
        (isSystemContract addr = true → (merged bs).slot addr key = none → (merged bs).deployed addr ≠ none →
          StateHistory.contractStorageLastUpdatedBlock db m addr key = 0)
  | .classDefinition classHash =>
      -- the definition that came last is the one known first
      ∀ cls, latest (fun b => b.declaredClasses.lookup classHash) bs = some cls →
        ((db.classes classHash).map fun dc => dc.definition).or
          (bs.findSome? fun b => b.declaredClasses.lookup classHash) = some cls
  | .compiledClassHash classHash =>
      -- if the blocks migrated the class, its new hash is the one it was declared with
      ∀ row, db'.casmMetadata classHash = some row → m < row.migratedAt →
        row.casmHashV2 = ((merged bs).declaredV1 classHash).getD (row.casmHashV1.getD 0)
  | .compiledClassHashV2 classHash =>
      -- the hash a declaration gives is the one a migration gives
      (latest (fun b => declaredHashV2 b classHash) bs).or ((db.casmMetadata classHash).map
        fun row => row.casmHashV2) =
        ((merged bs).migrated classHash).or ((db.casmMetadata classHash).map fun row => row.casmHashV2)

/-! ### Histories -/

variable {n : ℕ}

section

variable {h : ℕ → Option Felt}

theorem history_congr {h' : ℕ → Option Felt} (heq : ∀ b ≤ n, h b = h' b) :
    valueAt h n = valueAt h' n ∧ lastUpdatedBlockNumber h n = lastUpdatedBlockNumber h' n := by
  induction n with
  | zero => exact ⟨heq 0 le_rfl, rfl⟩
  | succ n ih =>
    obtain ⟨hvalue, hblock⟩ := ih fun b hb => heq b (Nat.le_succ_of_le hb)
    rw [valueAt, valueAt, lastUpdatedBlockNumber, lastUpdatedBlockNumber, heq (n + 1) le_rfl, hvalue, hblock]
    exact ⟨rfl, rfl⟩

theorem history_none (hnone : ∀ n, h n = none) (n : ℕ) :
    valueAt h n = none ∧ lastUpdatedBlockNumber h n = 0 := by
  induction n with
  | zero => exact ⟨hnone 0, rfl⟩
  | succ n ih =>
    rw [valueAt, lastUpdatedBlockNumber, hnone, Option.isSome_none, if_neg Bool.false_ne_true]
    exact ih

theorem history_log (entry : Option (Option Felt)) : valueAt (log h (n + 1) entry) n = valueAt h n ∧
    lastUpdatedBlockNumber (log h (n + 1) entry) n = lastUpdatedBlockNumber h n :=
  history_congr fun b hb => log_of_ne h (by omega) _

theorem valueAt_log (hvacant : h (n + 1) = none) (entry : Option Felt) :
    valueAt (log h (n + 1) (entry.map some)) (n + 1) = entry.or (valueAt h n) := by
  rw [valueAt, (history_log _).1]
  cases entry with
  | none => rw [Option.map_none, log_none, hvacant]; rfl
  | some v => rw [Option.map_some, log, Function.update_self]; rfl

theorem lastUpdatedBlockNumber_le (h : ℕ → Option Felt) (n : ℕ) : lastUpdatedBlockNumber h n ≤ n := by
  induction n with
  | zero => exact le_rfl
  | succ n ih =>
    rw [lastUpdatedBlockNumber]
    split_ifs
    · exact le_rfl
    · exact Nat.le_succ_of_le ih

theorem lastUpdatedBlockNumber_log (hvacant : h (n + 1) = none) (entry : Option Felt) :
    lastUpdatedBlockNumber (log h (n + 1) (entry.map some)) (n + 1) =
      if entry.isSome then n + 1 else lastUpdatedBlockNumber h n := by
  rw [lastUpdatedBlockNumber, (history_log _).2]
  cases entry with
  | none => rw [Option.map_none, log_none, hvacant]
  | some v => rw [Option.map_some, log, Function.update_self]

end

/-! ### The rows after blocks -/

variable {bs : List Block}

/-- What the row of a class is after blocks that declared it with the given hashes. -/
structure RowFollows (m : ℕ) (hashV1 hashV2 : Option Felt) (old new : Option CasmMetadata) : Prop where
  hashV2 : new.map (fun row => row.casmHashV2) = hashV2.or (old.map fun row => row.casmHashV2)
  /-- The compiled class of a class that the blocks migrated. -/
  migrated : ∀ row, new = some row → m < row.migratedAt → row.casmHash = row.casmHashV2 ∧
    hashV1.or (old.map fun row => row.casmHash) = some (hashV1.getD (row.casmHashV1.getD 0))
  /-- The compiled class of any other. -/
  notMigrated : (∀ row, new = some row → row.migratedAt ≤ m) →
    new.map (fun row => row.casmHash) = hashV1.or (old.map fun row => row.casmHash)

/-- **What the rows are after blocks.** -/
structure Follows (db : DB) (m : ℕ) (bs : List Block) (db' : DB) : Prop where
  nonce : ∀ a, valueAt (db'.nonceHistory a) (m + bs.length) =
    ((merged bs).nonces a).or (valueAt (db.nonceHistory a) m)
  classHash : ∀ a, valueAt (db'.classHashHistory a) (m + bs.length) =
    (latest (fun b => b.diff.classHash a) bs).or (valueAt (db.classHashHistory a) m)
  slot : ∀ a key, valueAt (db'.storageHistory a key) (m + bs.length) =
    ((merged bs).slot a key).or (valueAt (db.storageHistory a key) m)
  /-- A slot that is not written keeps its block. -/
  updated : ∀ a key, (merged bs).slot a key = none →
    lastUpdatedBlockNumber (db'.storageHistory a key) (m + bs.length) =
      lastUpdatedBlockNumber (db.storageHistory a key) m
  /-- A slot is of the last block exactly if that writes it. -/
  updatedLast : ∀ a key, (merged bs).slot a key ≠ none →
    (lastUpdatedBlockNumber (db'.storageHistory a key) (m + bs.length) = m + bs.length ↔
      ∃ b ∈ bs.getLast?, b.diff.slot a key ≠ none)
  contracts : ∀ a, isSystemContract a = false → (present db' a ↔ (merged bs).deployed a ≠ none ∨ present db a)
  fresh : ∀ a, isSystemContract a = false → (merged bs).deployed a ≠ none → ¬ present db a
  given : ∀ a, isSystemContract a = false →
    (merged bs).replaced a ≠ none ∨ (merged bs).nonces a ≠ none ∨ (∃ key, (merged bs).slot a key ≠ none) →
      present db' a
  lastClass : ∀ a, isSystemContract a = false →
    latest (fun b => b.diff.classHash a) bs = ((merged bs).replaced a).or ((merged bs).deployed a)
  classes : ∀ hash, (db'.classes hash).map (fun dc => dc.definition) =
    ((db.classes hash).map fun dc => dc.definition).or (bs.findSome? fun b => b.declaredClasses.lookup hash)
  rows : ∀ hash, RowFollows m ((merged bs).declaredV1 hash) (latest (fun b => declaredHashV2 b hash) bs)
    (db.casmMetadata hash) (db'.casmMetadata hash)

theorem Follows.nil (h : Below (m + 1) db) : Follows db m [] db := by
  constructor
  case nonce => exact fun a => rfl
  case classHash => exact fun a => rfl
  case slot => exact fun a key => rfl
  case updated => exact fun a key _ => rfl
  case updatedLast => exact fun a key hne => absurd rfl hne
  case contracts => exact fun a _ => ⟨.inr, fun hor => hor.resolve_left fun hne => hne rfl⟩
  case fresh => exact fun a _ hne => absurd rfl hne
  case given =>
    rintro a - (hne | hne | ⟨key, hne⟩)
    · exact absurd rfl hne
    · exact absurd rfl hne
    · exact absurd rfl hne
  case lastClass => exact fun a _ => rfl
  case classes =>
    intro hash
    rw [findSome?_nil, Option.or_none]
  case rows =>
    refine fun hash => ⟨rfl, fun row hrow hlt => ?_, fun _ => rfl⟩
    have := (h.metadata hash row hrow).2
    omega

theorem declaredHashV2_eq_none (h : b.diff.declaredV1Classes.lookup hash = none) :
    declaredHashV2 b hash = none := by
  rw [declaredHashV2, h]
  split
  · rfl
  · split_ifs <;> rfl

theorem RowFollows.step {hashV1 hashV2 : Option Felt} {old row new : Option CasmMetadata}
    (h : RowFollows m hashV1 hashV2 old row) (hnum : m < b.header.number) (hs : RowStep b hash row new) :
    RowFollows m ((b.diff.declaredV1Classes.lookup hash).or hashV1) ((declaredHashV2 b hash).or hashV2) old
      new := by
  cases hs with
  | @migrated row hrow hv1 hnot hkept =>
    subst hrow
    have hcasm : row.casmHash = row.casmHashV1.getD 0 := by
      rw [CasmMetadata.casmHash, hv1, CasmMetadata.isMigrated, hnot]
      rfl
    have hbefore := h.notMigrated fun row hr => by
      cases hr
      omega
    rw [Option.map_some, hcasm] at hbefore
    refine ⟨?_, fun new hr _ => ?_, fun hall => ?_⟩
    · rw [hkept, Option.none_or, ← h.hashV2]
      rfl
    · cases hr
      refine ⟨?_, ?_⟩
      · rw [CasmMetadata.casmHash, CasmMetadata.isMigrated, if_pos]
        rw [Bool.or_eq_true, decide_eq_true_iff]
        exact .inr (by simp only; omega)
      · cases b.diff.declaredV1Classes.lookup hash with
        | some v => rfl
        | none =>
          rw [Option.none_or]
          cases hashV1 with
          | some v => rfl
          | none =>
            rw [Option.none_or] at hbefore ⊢
            rw [← hbefore]
            rfl
    · have := hall _ rfl
      simp only at this
      omega
  | @declared new casmHash hd hhash hat hnot hv2 =>
    refine ⟨?_, fun row hr hlt => ?_, fun _ => ?_⟩
    · rw [hv2]
      rfl
    · cases hr
      omega
    · rw [hd, Option.map_some, hhash]
      rfl
  | same hd =>
    rw [hd, declaredHashV2_eq_none hd, Option.none_or, Option.none_or]
    exact h

theorem getLast?_concat_slot (bs : List Block) (b : Block) (a key : Felt) :
    (∃ x ∈ (bs ++ [b]).getLast?, x.diff.slot a key ≠ none) ↔ b.diff.slot a key ≠ none := by
  rw [getLast?_concat]
  constructor
  · rintro ⟨x, hx, hne⟩
    cases hx
    exact hne
  · exact fun hne => ⟨b, rfl, hne⟩

theorem Follows.concat {db₁ : DB} (h : Follows db m bs db₁) (hbelow : Below (m + 1 + bs.length) db₁)
    (hnum : b.header.number = m + 1 + bs.length) (hs : Stores db₁ b db') : Follows db m (bs ++ [b]) db' := by
  have heffect := hs.effect
  have hlen : m + (bs ++ [b]).length = m + bs.length + 1 := by
    rw [length_append, length_singleton, Nat.add_assoc]
  have hnum' : b.header.number = m + bs.length + 1 := by omega
  have hvacant : m + 1 + bs.length ≤ m + bs.length + 1 := by omega
  have hnonces : ∀ a, (merged (bs ++ [b])).nonces a = (b.diff.nonces.lookup a).or ((merged bs).nonces a) :=
    fun a => by
    rw [merged_concat]
    rfl
  have hlookup : ∀ {V : Type} {w : GoMap Felt V} {a : Felt}, w.lookup a ≠ none ↔ a ∈ w := fun {V w a} => by
    rw [ne_eq, AList.lookup_eq_none, not_not]
  have hor : ∀ {x y : Option Felt}, x.or y ≠ none ↔ x ≠ none ∨ y ≠ none := fun {x y} => by
    cases x <;> simp
  constructor
  case nonce =>
    intro a
    rw [hlen, heffect.nonceHistory, hnum', valueAt_log (hbelow.nonces a _ hvacant), h.nonce, hnonces,
      Option.or_assoc]
  case classHash =>
    intro a
    rw [hlen, heffect.classHashHistory, hnum', valueAt_log (hbelow.classHashes a _ hvacant), h.classHash,
      latest_concat, Option.or_assoc]
  case slot =>
    intro a key
    rw [hlen, heffect.storageHistory, hnum', valueAt_log (hbelow.slots a key _ hvacant), h.slot,
      slot_merged_concat, Option.or_assoc]
  case updated =>
    intro a key hnone
    rw [slot_merged_concat, Option.or_eq_none_iff] at hnone
    rw [hlen, heffect.storageHistory, hnum', lastUpdatedBlockNumber_log (hbelow.slots a key _ hvacant),
      hnone.1]
    exact h.updated a key hnone.2
  case updatedLast =>
    intro a key _
    rw [hlen, heffect.storageHistory, hnum', lastUpdatedBlockNumber_log (hbelow.slots a key _ hvacant),
      getLast?_concat_slot]
    have hle := lastUpdatedBlockNumber_le (db₁.storageHistory a key) (m + bs.length)
    cases b.diff.slot a key with
    | none =>
      refine ⟨fun heq => ?_, fun hne => absurd rfl hne⟩
      simp only [Option.isSome_none, Bool.false_eq_true, if_false] at heq
      omega
    | some v => exact ⟨fun _ => Option.some_ne_none v, fun _ => rfl⟩
  case contracts =>
    intro a hsys
    rw [present, heffect.contracts a hsys, deployed_merged_concat, hor, hlookup]
    have := h.contracts a hsys
    rw [present] at this
    rw [this, or_assoc]
  case fresh =>
    intro a hsys hne
    rw [deployed_merged_concat, hor, hlookup] at hne
    rcases hne with hmem | hne
    · have hnot : ¬ present db₁ a := fun hp => hp (heffect.fresh a hmem)
      exact fun hp => hnot ((h.contracts a hsys).mpr (.inr hp))
    · exact h.fresh a hsys hne
  case given =>
    intro a hsys hgiven
    have hthere : present db₁ a → present db' a := fun hp => (heffect.contracts a hsys).mpr (.inr hp)
    have htouch : b.diff.Touches a → present db' a := fun ht =>
      (heffect.contracts a hsys).mpr (heffect.there a hsys ht)
    rcases hgiven with hne | hne | ⟨key, hne⟩
    · rw [replaced_merged_concat, hor, hlookup] at hne
      exact hne.elim (fun hm => htouch (.inl hm)) fun hne => hthere (h.given a hsys (.inl hne))
    · rw [hnonces, hor, hlookup] at hne
      exact hne.elim (fun hm => htouch (.inr (.inl hm))) fun hne => hthere (h.given a hsys (.inr (.inl hne)))
    · rw [slot_merged_concat, hor] at hne
      refine hne.elim (fun hs => htouch (.inr (.inr (hlookup.mp fun hnone => hs ?_)))) fun hne =>
        hthere (h.given a hsys (.inr (.inr ⟨key, hne⟩)))
      rw [StateDiff.slot, hnone]
      rfl
  case lastClass =>
    intro a hsys
    rw [latest_concat, replaced_merged_concat, deployed_merged_concat, StateDiff.classHash,
      h.lastClass a hsys]
    cases hrep : b.diff.replacedClasses.lookup a with
    | some v => rfl
    | none =>
      cases hdep : b.diff.deployedContracts.lookup a with
      | none => rfl
      | some v =>
        -- a contract that is deployed was not there, so nothing was replaced
        have hfresh : ¬ present db₁ a := fun hp => hp (heffect.fresh a (GoMap.mem_of_lookup hdep))
        have hnone : (merged bs).replaced a = none := by_contra fun hne => hfresh (h.given a hsys (.inl hne))
        rw [hnone]
        rfl
  case classes =>
    intro hash
    have hfind : (bs ++ [b]).findSome? (fun b => b.declaredClasses.lookup hash) =
        (bs.findSome? fun b => b.declaredClasses.lookup hash).or (b.declaredClasses.lookup hash) := by
      rw [findSome?_append]
      congr 1
      rw [findSome?_cons, findSome?_nil]
      cases b.declaredClasses.lookup hash with
      | none => rfl
      | some v => rfl
    rw [heffect.classes, hfind, ← Option.or_assoc, ← h.classes, Option.map_or]
    congr 1
    rw [Option.map_map]
    exact Option.map_id'
  case rows =>
    intro hash
    rw [merged_concat, latest_concat]
    exact (h.rows hash).step (by omega) (hs.rows hash)

theorem storeAll_follows (h : Below (m + 1) db) (hs : storeAll c (m + 1) bs db = .ok db') :
    Follows db m bs db' := by
  induction bs using reverseRecOn generalizing db' with
  | nil =>
    cases hs
    exact Follows.nil h
  | append_singleton bs b ih =>
    obtain ⟨db₁, hs₁, hnum, hstores⟩ := storeAll_concat hs
    exact (ih hs₁).concat (storeAll_below h hs₁) hnum hstores

/-! ### Queries -/

instance (db : DB) (addr : Felt) : Decidable (present db addr) :=
  inferInstanceAs (Decidable (¬ db.contracts addr = none))

def ifPresent (db : DB) (addr value : Felt) : Except StateError Answer :=
  if present db addr then .ok (.felt value) else .error .keyNotFound

theorem checkDeployed_eq (h : Below (n + 1) db) (a : Felt) :
    StateHistory.checkDeployed db n a = if present db a then .ok () else .error .keyNotFound := by
  rw [checkDeployed, DB.contractDeployedAt]
  cases hk : db.contracts a with
  | none => rw [if_neg (show ¬ present db a from fun hp => hp hk)]; rfl
  | some k =>
    have hp : present db a := hk.trans_ne (Option.some_ne_none k)
    rw [if_pos hp, if_pos]
    simpa using Nat.le_of_lt_succ (h.heights a k hk)

theorem query_contract (h : Below (n + 1) db) (a : Felt) :
    StateHistory.query db n (.contractClassHash a) =
      ifPresent db a ((valueAt (db.classHashHistory a) n).getD 0) ∧
    StateHistory.query db n (.contractNonce a) = ifPresent db a ((valueAt (db.nonceHistory a) n).getD 0) ∧
    ∀ key, StateHistory.query db n (.contractStorage a key) =
      ifPresent db a ((valueAt (db.storageHistory a key) n).getD 0) := by
  simp only [query, contractClassHash, contractNonce, contractStorage,
    checkDeployed_eq h a, ifPresent]
  split_ifs
  · exact ⟨rfl, rfl, fun _ => rfl⟩
  · exact ⟨rfl, rfl, fun _ => rfl⟩

/-- When a value that is found, or else that of a contract at the head, is the value of the contract
afterwards. -/
theorem orHead_ifPresent_iff {a : Felt} (found : Option Felt) (v v' : Felt) :
    orHead (found.map .felt) (ifPresent db a v) = ifPresent db' a v' ↔
      (∀ x, found = some x → present db' a ∧ v' = x) ∧
        (found = none → (present db' a ↔ present db a) ∧ (present db a → v' = v)) := by
  cases found with
  | none =>
    simp only [Option.map_none, orHead, ifPresent]
    split_ifs with hp hp' hp'
    · simp [hp, hp', eq_comm]
    · simp [hp, hp']
    · simp [hp, hp']
    · simp [hp, hp']
  | some x =>
    simp only [Option.map_some, orHead, ifPresent]
    split_ifs with hp'
    · simp [hp', eq_comm]
    · simp [hp']

/-- A query on the overlay gives what the state after the blocks gives. -/
abbrev Agrees (db : DB) (m : ℕ) (bs : List Block) (db' : DB) (q : Query) : Prop :=
  (overlayOf db m bs).query q = StateHistory.query db' (m + bs.length) q

theorem latest_classHash_eq_none (bs : List Block) (a : Felt) :
    latest (fun b => b.diff.classHash a) bs = none ↔
      ((merged bs).replaced a).or ((merged bs).deployed a) = none := by
  induction bs using reverseRecOn with
  | nil => exact ⟨fun _ => rfl, fun _ => rfl⟩
  | append_singleton bs b ih =>
    rw [latest_concat, replaced_merged_concat, deployed_merged_concat, StateDiff.classHash]
    simp only [Option.or_eq_none_iff] at ih ⊢
    tauto

section

variable {a : Felt} (h : Follows db m bs db') (hb : Below (m + 1) db)
  (hb' : Below (m + bs.length + 1) db')

include h hb hb' in
theorem Follows.classHash_iff :
    Agrees db m bs db' (.contractClassHash a) ↔ Fits db m bs db' (.contractClassHash a) := by
  have hlatest := latest_classHash_eq_none bs a
  rw [Agrees, Overlay.query, (query_contract hb' a).1, h.classHash]
  simp only [overlayOf]
  rw [(query_contract hb a).1, orHead_ifPresent_iff, Fits]
  cases hfound : ((merged bs).replaced a).or ((merged bs).deployed a) with
  | none =>
    rw [hlatest.mpr hfound, Option.none_or]
    constructor
    · rintro ⟨-, hnone⟩ -
      exact ⟨by simpa using (hnone rfl).1, rfl⟩
    · intro hfits
      refine ⟨fun x hx => (by cases hx), fun _ => ⟨?_, fun _ => rfl⟩⟩
      cases hsys : isSystemContract a with
      | true => simpa using (hfits hsys).1
      | false =>
        rw [h.contracts a hsys, (Option.or_eq_none_iff.mp hfound).2]
        simp
  | some x =>
    constructor
    · rintro ⟨hsome, -⟩ -
      obtain ⟨hp, hx⟩ := hsome x rfl
      obtain ⟨w, hw⟩ :=
        Option.ne_none_iff_exists'.mp
          fun hnone => Option.some_ne_none x (hfound.symm.trans (hlatest.mp hnone))
      rw [hw] at hx ⊢
      simp only [Option.some_or, Option.getD_some] at hx
      exact ⟨⟨fun _ => .inr (Option.some_ne_none x), fun _ => hp⟩, by rw [hx]⟩
    · intro hfits
      refine ⟨fun y hy => ?_, fun hnone => by cases hnone⟩
      cases hy
      cases hsys : isSystemContract a with
      | true =>
        obtain ⟨hp, hl⟩ := hfits hsys
        rw [hl]
        exact ⟨hp.mpr (.inr (Option.some_ne_none x)), rfl⟩
      | false =>
        rw [h.lastClass a hsys, hfound]
        refine ⟨?_, rfl⟩
        cases hrep : (merged bs).replaced a with
        | some y => exact h.given a hsys (.inl (hrep.trans_ne (Option.some_ne_none y)))
        | none =>
          rw [hrep, Option.none_or] at hfound
          exact (h.contracts a hsys).mpr (.inl (hfound.trans_ne (Option.some_ne_none x)))

include h in
/-- A value that is zero when the contract is deployed: when it is that of the histories. -/
theorem Follows.value_iff {given : Option Felt} {old : Option Felt}
    (hgiven : isSystemContract a = false → given ≠ none → present db' a)
    (hblank : isSystemContract a = false → ¬ present db a → old = none) :
    orHead ((given.or (((merged bs).deployed a).map fun _ => 0)).map .felt) (ifPresent db a (old.getD 0)) =
        ifPresent db' a ((given.or old).getD 0) ↔
      (isSystemContract a = true →
        (present db' a ↔ present db a ∨ given ≠ none ∨ (merged bs).deployed a ≠ none) ∧
          (given = none → (merged bs).deployed a ≠ none → old.getD 0 = 0)) := by
  rw [orHead_ifPresent_iff]
  cases given with
  | some v =>
    simp only [Option.some_or, Option.getD_some, ne_eq, not_false_eq_true, true_or, or_true,
      iff_true, reduceCtorEq,
      false_implies, and_true, Option.some.injEq]
    constructor
    · exact fun hsome _ => (hsome v rfl).1
    · rintro hfits x rfl
      refine ⟨?_, rfl⟩
      cases hsys : isSystemContract a with
      | true => exact hfits hsys
      | false => exact hgiven hsys (Option.some_ne_none v)
  | none =>
    simp only [Option.none_or]
    cases hdep : (merged bs).deployed a with
    | none =>
      simp only [Option.map_none, reduceCtorEq, false_implies, implies_true, true_and, ne_eq,
        not_true_eq_false, or_false,
        and_true, true_implies]
      constructor
      · exact fun hiff _ => hiff
      · intro hfits
        cases hsys : isSystemContract a with
        | true => exact hfits hsys
        | false =>
          rw [h.contracts a hsys, hdep]
          simp
    | some cls =>
      simp only [Option.map_some, Option.some.injEq, forall_eq', reduceCtorEq, false_implies, and_true, ne_eq,
        not_false_eq_true, or_true, iff_true, true_implies, not_true_eq_false]
      constructor
      · exact fun hboth _ => hboth
      · intro hfits
        cases hsys : isSystemContract a with
        | true => exact hfits hsys
        | false =>
          have hne : (merged bs).deployed a ≠ none := hdep.trans_ne (Option.some_ne_none cls)
          rw [hblank hsys (h.fresh a hsys hne)]
          exact ⟨(h.contracts a hsys).mpr (.inl hne), rfl⟩

include h hb hb' in
theorem Follows.nonce_iff : Agrees db m bs db' (.contractNonce a) ↔ Fits db m bs db' (.contractNonce a) := by
  rw [Agrees, Overlay.query, (query_contract hb' a).2.1, h.nonce]
  simp only [overlayOf]
  rw [(query_contract hb a).2.1]
  refine h.value_iff (fun hsys hne => h.given a hsys (.inr (.inl hne))) fun hsys hnot => ?_
  exact (history_none (hb.blank a hsys (not_not.mp hnot)).1 m).1

include h hb hb' in
theorem Follows.storage_iff (key : Felt) :
    Agrees db m bs db' (.contractStorage a key) ↔ Fits db m bs db' (.contractStorage a key) := by
  rw [Agrees, Overlay.query, (query_contract hb' a).2.2, h.slot]
  simp only [overlayOf]
  rw [(query_contract hb a).2.2]
  refine h.value_iff (fun hsys hne => h.given a hsys (.inr (.inr ⟨key, hne⟩))) fun hsys hnot => ?_
  exact (history_none ((hb.blank a hsys (not_not.mp hnot)).2.2 key) m).1

include h hb in
theorem Follows.updated_iff (key : Felt) :
    Agrees db m bs db' (.contractStorageLastUpdatedBlock a key) ↔
      Fits db m bs db' (.contractStorageLastUpdatedBlock a key) := by
  rw [Agrees, Overlay.query, Fits]
  simp only [overlayOf, query, contractStorageLastUpdatedBlock]
  cases hslot : (merged bs).slot a key with
  | some v =>
    have hne : (merged bs).slot a key ≠ none := hslot.trans_ne (Option.some_ne_none v)
    simp only [Option.map_some, Option.some_or, orHead, Except.ok.injEq, Answer.block.injEq,
      ne_eq, reduceCtorEq,
      not_false_eq_true, true_implies, false_implies, implies_true, and_true]
    rw [eq_comm]
    exact h.updatedLast a key hne
  | none =>
    rw [h.updated a key hslot]
    cases hdep : (merged bs).deployed a with
    | none =>
      simp only [Option.map_none, Option.none_or, orHead, ne_eq, not_true_eq_false, false_implies,
        implies_true, and_true]
    | some cls =>
      simp only [Option.map_none, Option.map_some, Option.none_or, orHead, Except.ok.injEq,
        Answer.block.injEq, ne_eq,
        not_true_eq_false, false_implies, reduceCtorEq, not_false_eq_true, true_implies, true_and]
      constructor
      · exact fun heq _ => heq.symm
      · intro hfits
        cases hsys : isSystemContract a with
        | true => exact (hfits hsys).symm
        | false =>
          have hne : (merged bs).deployed a ≠ none := hdep.trans_ne (Option.some_ne_none cls)
          exact (history_none ((hb.blank a hsys (not_not.mp (h.fresh a hsys hne))).2.2 key) m).2.symm

end

/-! ### Classes -/

/-- The definition of a class, on a database without later classes. -/
theorem query_class (h : Below (n + 1) db) (hash : Felt) :
    StateHistory.query db n (.classDefinition hash) =
      orHead (((db.classes hash).map fun dc => dc.definition).map .definition) (.error .keyNotFound) := by
  rw [query, classAt]
  cases hcls : db.classes hash with
  | none => rfl
  | some dc =>
    have := h.classes hash dc hcls
    simp only
    rw [if_neg (by omega)]
    rfl

theorem query_compiled (h : Below (n + 1) db) (hash : Felt) :
    StateHistory.query db n (.compiledClassHash hash) =
        orHead (((db.casmMetadata hash).map fun row => row.casmHash).map .felt) (.error .keyNotFound) ∧
      StateHistory.query db n (.compiledClassHashV2 hash) =
        orHead (((db.casmMetadata hash).map fun row => row.casmHashV2).map .felt) (.error .keyNotFound) := by
  simp only [query, compiledClassHash, compiledClassHashV2]
  cases hrow : db.casmMetadata hash with
  | none => exact ⟨rfl, rfl⟩
  | some row =>
    obtain ⟨hd, hm⟩ := h.metadata hash row hrow
    rw [Option.bind_some, CasmMetadata.casmHashAt_eq (Nat.le_of_lt_succ hd) (Nat.le_of_lt_succ hm)]
    exact ⟨rfl, rfl⟩

theorem orHead_or {x y : Option Answer} : orHead x (orHead y (.error e)) = orHead (x.or y) (.error e) := by
  cases x with
  | none => rfl
  | some x => rfl

theorem orHead_inj {x y : Option Answer} : orHead x (.error e) = orHead y (.error e) ↔ x = y := by
  cases x <;> cases y <;> simp [orHead]

/-- A definition came with some block exactly if one came last. -/
theorem latest_eq_none_iff_findSome? (f : Block → Option α) (bs : List Block) :
    latest f bs = none ↔ bs.findSome? f = none := by
  induction bs using reverseRecOn with
  | nil => exact ⟨fun _ => rfl, fun _ => rfl⟩
  | append_singleton bs b ih =>
    rw [latest_concat, findSome?_append, Option.or_eq_none_iff, Option.or_eq_none_iff, ih, and_comm]
    refine and_congr_right fun _ => ?_
    rw [findSome?_cons, findSome?_nil]
    cases f b <;> simp

section

variable (h : Follows db m bs db') (hb : Below (m + 1) db) (hb' : Below (m + bs.length + 1) db')

include h hb hb'

theorem Follows.class_iff :
    Agrees db m bs db' (.classDefinition hash) ↔ Fits db m bs db' (.classDefinition hash) := by
  rw [Agrees, Overlay.query, query_class hb', h.classes]
  simp only [overlayOf]
  rw [query_class hb, orHead_or, orHead_inj, ← Option.map_or,
    (Option.map_injective fun _ _ => Answer.definition.inj).eq_iff, Fits]
  have hnone := latest_eq_none_iff_findSome? (fun b => b.declaredClasses.lookup hash) bs
  cases hlatest : latest (fun b => b.declaredClasses.lookup hash) bs with
  | none =>
    rw [hnone.mp hlatest, Option.none_or, Option.or_none]
    simp
  | some cls =>
    rw [Option.some_or]
    exact ⟨fun heq x hx => by rw [← heq, hx], fun hfits => (hfits cls rfl).symm⟩

theorem Follows.compiled_iff :
    Agrees db m bs db' (.compiledClassHash hash) ↔ Fits db m bs db' (.compiledClassHash hash) := by
  rw [Agrees, Overlay.query, (query_compiled hb' hash).1]
  simp only [overlayOf]
  rw [(query_compiled hb hash).1, orHead_or, orHead_inj, ← Option.map_or,
    (Option.map_injective fun _ _ => Answer.felt.inj).eq_iff, Fits]
  by_cases hall : ∀ row, db'.casmMetadata hash = some row → row.migratedAt ≤ m
  · rw [(h.rows hash).notMigrated hall]
    refine ⟨fun _ row hrow hlt => ?_, fun _ => rfl⟩
    have := hall row hrow
    omega
  · push Not at hall
    obtain ⟨row, hrow, hlt⟩ := hall
    obtain ⟨hcasm, hoverlay⟩ := (h.rows hash).migrated row hrow hlt
    rw [hoverlay, hrow, Option.map_some, hcasm, Option.some.injEq]
    refine ⟨fun heq row' hrow' _ => ?_, fun hfits => (hfits row rfl hlt).symm⟩
    cases hrow'
    exact heq.symm

theorem Follows.compiledV2_iff :
    Agrees db m bs db' (.compiledClassHashV2 hash) ↔ Fits db m bs db' (.compiledClassHashV2 hash) := by
  rw [Agrees, Overlay.query, (query_compiled hb' hash).2, (h.rows hash).hashV2]
  simp only [overlayOf]
  rw [(query_compiled hb hash).2, orHead_or, orHead_inj, ← Option.map_or,
    (Option.map_injective fun _ _ => Answer.felt.inj).eq_iff, Fits, eq_comm]

end

/-- **A query on the overlay of blocks agrees with the stored state exactly if it fits.** -/
theorem Overlay.query_iff (hb : Below (m + 1) db) (hs : storeAll c (m + 1) bs db = .ok db') (q : Query) :
    (overlayOf db m bs).query q = StateHistory.query db' (m + bs.length) q ↔ Fits db m bs db' q := by
  have h := storeAll_follows hb hs
  have hb' : Below (m + bs.length + 1) db' := by
    have := storeAll_below hb hs
    rwa [Nat.add_right_comm] at this
  cases q with
  | contractClassHash addr => exact h.classHash_iff hb hb'
  | contractNonce addr => exact h.nonce_iff hb hb'
  | contractStorage addr key => exact h.storage_iff hb hb' key
  | contractStorageLastUpdatedBlock addr key => exact h.updated_iff hb key
  | classDefinition hash => exact h.class_iff hb hb'
  | compiledClassHash hash => exact h.compiled_iff hb hb'
  | compiledClassHashV2 hash => exact h.compiledV2_iff hb hb'

end Juno.Statebackend
