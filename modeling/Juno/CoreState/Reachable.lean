import Juno.CoreState.Chain

/-!
# The databases `Update` reaches

Runs of `Update` on the database, by blocks that meet a condition on the block and the
database it is applied to, and the ledger of every database that is reached.

## What is proved

* `LedgerOf.update` — one block; `Reachable.ledgerOf` — **a whole run**.
-/

namespace Juno.CoreState

open Lib Trie2 Ledger

variable {c : Crypto} {L : Ledger} {n : ℕ} {k : Felt} {m : Felt → Felt} {H : HashFn}

/-! ### Databases -/

variable (db : DB)

def DB.classLeaf (hash : Felt) : Felt := leafOf db.classNodes hash

def DB.contractLeaf (addr : Felt) : Felt := leafOf db.contractNodes addr

def DB.storageAfter (diff : StateDiff) (addr key : Felt) : Felt :=
  (diff.slot addr key).getD (db.contractStorage addr key)

/-- The database with other metadata of compiled classes. -/
def DB.withMetadata (metadata : Felt → Option CasmMetadata) : DB := { db with casmMetadata := metadata }

/-- No node of a trie of the database hashes to zero. -/
structure DB.HashesNonzero (c : Crypto) (db : DB) : Prop where
  classes : NonzeroHashes trieHeight c.poseidon db.classLeaf
  contracts : NonzeroHashes trieHeight c.pedersen db.contractLeaf
  storage : ∀ a, NonzeroHashes trieHeight c.pedersen (db.contractStorage a)

def DB.Empty : Prop := (∀ a, db.contracts a = none) ∧ ∀ hash, InRange hash → db.classLeaf hash = 0

theorem leafOf_storeOf (H : HashFn) (m : Felt → Felt) (hk : InRange k) :
    leafOf (storeOf trieHeight H m) k = m k := by
  rw [leafOf, (represents_storeOf trieHeight H m).leaf_row trieHeight_le hk]
  by_cases h0 : m k = 0
  · rw [if_pos h0, h0]
  · rw [if_neg h0]
    rfl

theorem nonzeroHashes_congr {m' : Felt → Felt} (h : ∀ k, InRange k → m k = m' k)
    (hm : NonzeroHashes trieHeight H m) : NonzeroHashes trieHeight H m' := by
  unfold NonzeroHashes at hm ⊢
  rw [← canon_onPaths_congr trieHeight_le h]
  exact hm

theorem mapRoot_ne_zero (hm : NonzeroHashes trieHeight H m) (hne : ¬ EmptyMap trieHeight m) :
    mapRoot H trieHeight m ≠ 0 := by
  rw [← canon_eq_none_iff_emptyMap trieHeight_le] at hne
  obtain ⟨t, ht⟩ := Option.ne_none_iff_exists'.mp hne
  rw [mapRoot, Patricia.commitment, ht]
  exact hm [] t (by rw [ht, Patricia.nodeAt?_some, Patricia.nodeAt_nil])

/-- A block: its header, its state update and the class definitions that come with it. -/
structure Block where
  header : Header
  update : StateUpdate
  declaredClasses : GoMap Felt ClassDefinition

abbrev Block.diff (b : Block) : StateDiff := b.update.stateDiff

/-- `Update` of a block, on a state opened at its old root as `Store` opens it. -/
def Block.apply (c : Crypto) (b : Block) (skipVerifyNewRoot : Bool) (db : DB) : Except StateError DB :=
  State.update c db b.update.oldRoot b.header b.update b.declaredClasses skipVerifyNewRoot

/-- `Revert` of a block, on a state opened at its new root as `RevertHead` opens it. -/
def Block.undo (c : Crypto) (b : Block) (db : DB) : Except StateError DB :=
  State.revert c db b.update.newRoot b.header b.update

/-- **A regular block**: its keys are in range, the zero root stands for an empty database only, and no system
contract that is there or that it deploys is left without storage. -/
structure Block.Regular (c : Crypto) (db : DB) (b : Block) : Prop where
  keys : b.diff.KeysInRange
  oldRoot : b.update.oldRoot = 0 → db.Empty
  /-- System contracts keep some storage. -/
  system : ∀ a, isSystemContract a = true → db.contracts a ≠ none ∨ a ∈ b.diff.deployedContracts →
    b.diff.Touches a ∨ a ∈ b.diff.deployedContracts → ∃ k, InRange k ∧ db.storageAfter b.diff a k ≠ 0
  /-- No node of the new storage of a system contract hashes to zero. -/
  nonzero : ∀ a, isSystemContract a = true → NonzeroHashes trieHeight c.pedersen (db.storageAfter b.diff a)

def Block.MigratesStored (b : Block) : Prop := ∀ hash ∈ b.diff.migratedClasses, db.classes hash ≠ none

/-- **The databases `Update` reaches** by regular blocks with growing numbers, with a bound on the numbers.
The metadata of compiled classes are written by others. -/
inductive Reachable (c : Crypto) : DB → ℕ → Prop where
  | empty : Reachable c DB.empty 0
  | update {db db' : DB} {n : ℕ} (b : Block) (skipVerifyNewRoot : Bool) (hdb : Reachable c db n)
    (hn : n ≤ b.header.number)
      (hb : b.Regular c db) (hmig : b.MigratesStored db) (hupdate : b.apply c skipVerifyNewRoot db = .ok db')
      (hhash : db'.HashesNonzero c) : Reachable c db' (b.header.number + 1)
  | metadata {db : DB} {n : ℕ} (metadata : Felt → Option CasmMetadata) (hdb : Reachable c db n) :
      Reachable c (db.withMetadata metadata) n

/-- The ledger of a database that is reached. -/
structure LedgerOf (c : Crypto) (db : DB) (n : ℕ) (L : Ledger) : Prop where
  toDB : db = L.toDB c
  ok : L.ContractsOk c n
  leaves : L.LeavesInRange
  hashes : db.HashesNonzero c

namespace LedgerOf

variable {db : DB} {b : Block} {skipVerifyNewRoot : Bool}

section

variable (h : LedgerOf c db n L)
include h

theorem contracts_eq_none (a : Felt) : db.contracts a = none ↔ L.contracts a = none := by
  rw [h.toDB]
  exact Option.map_eq_none_iff

theorem classes : db.classes = L.classes := by rw [h.toDB]; rfl

theorem classLeaf {hash : Felt} (hh : InRange hash) : db.classLeaf hash = L.classLeaves hash := by
  rw [h.toDB, DB.classLeaf, Ledger.toDB, leafOf_storeOf c.poseidon L.classLeaves hh]

theorem contractLeaf {a : Felt} (ha : InRange a) : db.contractLeaf a = L.leaf c a := by
  rw [h.toDB, DB.contractLeaf, Ledger.toDB, leafOf_storeOf c.pedersen (L.leaf c) ha]

theorem contractStorage (a : Felt) (hk : InRange k) : db.contractStorage a k = L.storage a k := by
  rw [h.toDB, DB.contractStorage, Ledger.toDB, leafOf_storeOf c.pedersen (L.storage a) hk]

theorem storageAfter (diff : StateDiff) (a : Felt) (hk : InRange k) :
    db.storageAfter diff a k = L.storageAfter diff a k := by
  rw [DB.storageAfter, h.contractStorage a hk, Ledger.storageAfter]

theorem opens {root : Felt} (hroot : root = 0 → db.Empty) : L.Opens c root := by
  have hcontracts : root = 0 → ∀ a, L.contracts a = none :=
    fun h0 a => (h.contracts_eq_none a).mp ((hroot h0).1 a)
  constructor
  case contracts => exact nonzeroHashes_congr (fun k hk => h.contractLeaf hk) h.hashes.contracts
  case classes => exact nonzeroHashes_congr (fun k hk => h.classLeaf hk) h.hashes.classes
  case storage => exact fun a => nonzeroHashes_congr (fun k hk => h.contractStorage a hk) (h.hashes.storage a)
  case contracts_zero => exact hcontracts
  case classes_zero =>
    intro h0 hash
    by_cases hh : InRange hash
    · rw [← h.classLeaf hh]
      exact (hroot h0).2 hash hh
    · exact h.leaves hash hh
  case storage_zero => exact fun h0 a => h.ok.storage_none a (hcontracts h0 a)

theorem regular (hb : b.Regular c db)
    (hacc : L.Accepts c b.header b.update b.declaredClasses skipVerifyNewRoot) :
    L.Regular c b.header.number b.diff := by
  have hnz : ∀ a, isSystemContract a = true → NonzeroHashes trieHeight c.pedersen (L.storageAfter b.diff a) :=
    fun a hsys => nonzeroHashes_congr (fun k hk => h.storageAfter b.diff a hk) (hb.nonzero a hsys)
  refine ⟨hacc.deployed, hacc.updatable, fun a hsys hthere htouch => ?_, fun a hsys hroot k => ?_⟩
  · rw [ne_eq, ← h.contracts_eq_none] at hthere
    obtain ⟨k, hk, hne⟩ := hb.system a hsys hthere htouch
    refine mapRoot_ne_zero (hnz a hsys) fun hempty => hne ?_
    rw [h.storageAfter b.diff a hk]
    exact hempty k hk
  · have hempty : EmptyMap trieHeight (L.storageAfter b.diff a) :=
      by_contra fun hne => mapRoot_ne_zero (hnz a hsys) hne hroot
    by_cases hk : InRange k
    · exact hempty k hk
    · rw [storageAfter_of_not_inRange hb.keys hk]
      exact h.ok.storage_inRange a k hk

theorem update (hn : n ≤ b.header.number) (hb : b.Regular c db) {db' : DB}
    (hupdate : b.apply c skipVerifyNewRoot db = .ok db') (hhash : db'.HashesNonzero c) :
    L.Accepts c b.header b.update b.declaredClasses skipVerifyNewRoot ∧
      LedgerOf c db' (b.header.number + 1) (L.updated c b.header.number b.diff b.declaredClasses) := by
  rw [h.toDB] at hupdate
  obtain ⟨hacc, hdb'⟩ :=
    (update_outcome (h.opens hb.oldRoot) h.ok.storage_zero b.header b.update b.declaredClasses
    skipVerifyNewRoot hb.keys).eq_ok_iff.mp hupdate
  have hreg := h.regular hb hacc
  exact ⟨hacc, hdb', h.ok.follows hn hreg hb.keys (follows_updated hreg _), h.leaves.updated hb.keys, hhash⟩

theorem withMetadata (metadata : Felt → Option CasmMetadata) :
    LedgerOf c (db.withMetadata metadata) n (L.withMetadata metadata) := by
  refine ⟨?_, ?_, h.leaves, ?_⟩
  · rw [h.toDB]
    rfl
  · exact ⟨h.ok.storage_none, h.ok.storage_zero, h.ok.storage_inRange, h.ok.system, h.ok.heights, h.ok.nonces,
      h.ok.classHashes, h.ok.slots⟩
  · exact ⟨h.hashes.classes, h.hashes.contracts, h.hashes.storage⟩

end

end LedgerOf

theorem nonzeroHashes_empty (H : HashFn) (hm : EmptyMap trieHeight m) : NonzeroHashes trieHeight H m := by
  intro q u hu
  rw [(canon_eq_none_iff_emptyMap trieHeight_le).mpr hm] at hu
  simp at hu

theorem toDB_empty (c : Crypto) : empty.toDB c = DB.empty := by
  have hnone : ∀ H : HashFn, storeOf trieHeight H (fun _ => 0) = fun _ => none :=
    fun H => storeOf_eq_none fun _ _ => rfl
  have hleaf : empty.leaf c = fun _ => 0 := rfl
  refine DB.ext ?_ ?_ ?_ rfl rfl rfl rfl rfl rfl
  · exact hnone _
  · rw [toDB, hleaf]
    exact hnone _
  · exact funext fun a => hnone _

theorem ledgerOf_empty (c : Crypto) : LedgerOf c DB.empty 0 empty :=
  ⟨(toDB_empty c).symm, contractsOk_empty, fun _ _ => rfl, nonzeroHashes_empty _ fun _ _ => rfl,
    nonzeroHashes_empty _ fun _ _ => rfl, fun _ => nonzeroHashes_empty _ fun _ _ => rfl⟩

/-- **A whole run**: every database that is reached is that of a ledger that keeps the invariant. -/
theorem Reachable.ledgerOf {db : DB} (h : Reachable c db n) : ∃ L, LedgerOf c db n L ∧ L.ClassesOk n := by
  induction h with
  | empty => exact ⟨Ledger.empty, ledgerOf_empty c, Ledger.classesOk_empty⟩
  | update b skipVerifyNewRoot _ hn hb hmig hupdate hhash ih =>
    obtain ⟨L, hL, hcls⟩ := ih
    refine ⟨_, (hL.update hn hb hupdate hhash).2, hcls.updated hn fun hash hm => ?_⟩
    rw [← hL.classes]
    exact hmig hash hm
  | metadata metadata _ ih =>
    obtain ⟨L, hL, hcls⟩ := ih
    exact ⟨_, hL.withMetadata metadata, hcls.leaves, hcls.declared⟩

end Juno.CoreState
