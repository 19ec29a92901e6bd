import Juno.CoreState.Revert

/-!
# The historical reader

Runs of `Update` and `Revert` from the empty database. A run has the blocks of the
current chain, each with the database right after it was applied, and the database now.

The main result is `history_reads`.
-/

namespace Juno.CoreState

open Lib Trie2 StateHistory Option Ledger List

variable {c : Crypto} {L L' M : Ledger} {n : ℕ} {blockNum : ℕ} {diff : StateDiff} {dbAfter : DB}
  {b : Block}

/-- **A run of `Update` and `Revert`** by regular blocks: the blocks of the current chain, the last one first,
each with the database right after it was applied, and the database now. -/
inductive Run (c : Crypto) : List (Block × DB) → DB → Prop where
  | start : Run c [] DB.empty
  | update {chain : List (Block × DB)} {db db' : DB} (b : Block) (skipVerifyNewRoot : Bool)
    (hrun : Run c chain db)
      (hnum : b.header.number = chain.length) (hb : b.Regular c db)
        (hupdate : b.apply c skipVerifyNewRoot db = .ok db')
      (hhash : db'.HashesNonzero c) : Run c ((b, db') :: chain) db'
  | revert {chain : List (Block × DB)} {db db' dbAfter : DB} {b : Block}
    (hrun : Run c ((b, dbAfter) :: chain) db)
      (hroot : b.update.newRoot = 0 → db.Empty) (hrevert : b.undo c db = .ok db')
        (hhash : db'.HashesNonzero c) :
      Run c chain db'
  /-- Others write the metadata of compiled classes. -/
  | metadata {chain : List (Block × DB)} {db : DB} (metadata : Felt → Option CasmMetadata)
    (hrun : Run c chain db) :
      Run c chain (db.withMetadata metadata)

/-! ### Chains of ledgers -/

structure Ledger.SameContracts (L L' : Ledger) : Prop where
  contracts : L'.contracts = L.contracts
  storage : L'.storage = L.storage
  nonceHistory : L'.nonceHistory = L.nonceHistory
  classHashHistory : L'.classHashHistory = L.classHashHistory
  storageHistory : L'.storageHistory = L.storageHistory

theorem Ledger.SameContracts.refl (L : Ledger) : L.SameContracts L := ⟨rfl, rfl, rfl, rfl, rfl⟩

theorem Ledger.SameContracts.trans (h : L.SameContracts L') (h' : L'.SameContracts M) : L.SameContracts M :=
  ⟨h'.contracts.trans h.contracts, h'.storage.trans h.storage, h'.nonceHistory.trans h.nonceHistory,
    h'.classHashHistory.trans h.classHashHistory, h'.storageHistory.trans h.storageHistory⟩

theorem Ledger.SameContracts.contractsOk (h : L.SameContracts L') (hok : L.ContractsOk c n) :
    L'.ContractsOk c n := by
  obtain ⟨h₁, h₂, h₃, h₄, h₅⟩ := h
  constructor
  case storage_none => rw [h₁, h₂]; exact hok.storage_none
  case storage_zero => rw [h₂]; exact hok.storage_zero
  case storage_inRange => rw [h₂]; exact hok.storage_inRange
  case system => rw [h₁, h₂]; exact hok.system
  case heights => rw [h₁]; exact hok.heights
  case nonces => unfold nonceOf; rw [h₁, h₃]; exact hok.nonces
  case classHashes => unfold classHashOf; rw [h₁, h₄]; exact hok.classHashes
  case slots => rw [h₂, h₅]; exact hok.slots

theorem Ledger.Follows.same (hf : L.Follows c blockNum diff L') (h : L'.SameContracts M) :
    L.Follows c blockNum diff M := by
  obtain ⟨h₁, h₂, h₃, h₄, h₅⟩ := h
  constructor
  case contracts => rw [h₁]; exact hf.contracts
  case storage => rw [h₂]; exact hf.storage
  case nonces => rw [h₃]; exact hf.nonces
  case classHashes => rw [h₄]; exact hf.classHashes
  case slots => rw [h₅]; exact hf.slots

/-- **The ledgers of a chain**: the contracts of the ledger after each block follow from those before it. -/
inductive Chain (c : Crypto) : List (Block × DB) → Ledger → Prop where
  | nil {L : Ledger} (hL : empty.SameContracts L) : Chain c [] L
  | cons {chain : List (Block × DB)} {L M L' : Ledger} {b : Block} {dbAfter : DB} (hchain : Chain c chain L)
      (hnum : b.header.number = chain.length) (hok : L.ContractsOk c chain.length) (hr : b.diff.KeysInRange)
      (hreg : L.Regular c b.header.number b.diff) (hM : LedgerOf c dbAfter (chain.length + 1) M)
      (hf : L.Follows c b.header.number b.diff M) (hL' : M.SameContracts L') :
        Chain c ((b, dbAfter) :: chain) L'

theorem Chain.same {chain : List (Block × DB)} (h : Chain c chain L) (hL : L.SameContracts L') :
    Chain c chain L' := by
  cases h with
  | nil hnil => exact .nil (hnil.trans hL)
  | cons hchain hnum hok hr hreg hM hf hsame => exact .cons hchain hnum hok hr hreg hM hf (hsame.trans hL)

/-- A revert gives back the contracts, the storage and the histories of the ledger before the block. -/
theorem Ledger.Follows.sameContracts_reverted (hf : L.Follows c blockNum diff L')
    (hok : L.ContractsOk c n) (hn : n ≤ blockNum) (hreg : L.Regular c blockNum diff) :
    L.SameContracts (L'.reverted c blockNum diff) := by
  obtain ⟨hnonces, hclassHashes, hslots⟩ := hf.restores_histories hok hn
  exact ⟨funext fun a => (hf.restores hok hn hreg a).1, funext fun a => (hf.restores hok hn hreg a).2,
    hnonces, hclassHashes,
    hslots⟩

theorem Ledger.LeavesInRange.reverted (h : L.LeavesInRange) (hr : diff.KeysInRange) :
    (L.reverted c blockNum diff).LeavesInRange := by
  intro hash hhash
  have hm : hash ∉ diff.migratedClasses := fun hm => hhash (hr.migrated hash hm)
  have hleaf : L.revertedLeaves c blockNum diff hash = 0 := by
    rw [revertedLeaves, GoMap.override_of_not_mem (by simpa using hm), h hash hhash, ite_self]
  exact hleaf

theorem Run.chain {chain : List (Block × DB)} {db : DB} (h : Run c chain db) :
    ∃ L, LedgerOf c db chain.length L ∧ Chain c chain L := by
  induction h with
  | start => exact ⟨empty, ledgerOf_empty c, .nil (.refl _)⟩
  | update b skipVerifyNewRoot _ hnum hb hupdate hhash ih =>
    obtain ⟨L, hL, hchain⟩ := ih
    obtain ⟨hacc, hL'⟩ := hL.update hnum.ge hb hupdate hhash
    have hreg := hL.regular hb hacc
    rw [hnum] at hL'
    exact ⟨_, hL', .cons hchain hnum hL.ok hb.keys hreg hL' (hnum ▸ follows_updated hreg _) (.refl _)⟩
  | revert hrun hroot hrevert hhash ih =>
    obtain ⟨L, hL, hchain⟩ := ih
    cases hchain with
    | cons hchain hnum hok hr hreg hM hf hsame =>
      have hf := hf.same hsame
      rw [hL.toDB] at hrevert
      obtain ⟨-, hdb'⟩ := (revert_outcome (hL.opens hroot) hL.ok.storage_zero _ _ hr).eq_ok_iff.mp hrevert
      have hback := hf.sameContracts_reverted hok hnum.ge hreg
      exact ⟨_, ⟨hdb', hback.contractsOk hok, hL.leaves.reverted hr, hhash⟩, hchain.same hback⟩
  | metadata metadata _ ih =>
    obtain ⟨L, hL, hchain⟩ := ih
    exact ⟨_, hL.withMetadata metadata, hchain.same ⟨rfl, rfl, rfl, rfl, rfl⟩⟩

/-! ### Reading -/

/-- Reading the histories of a ledger at a block gives the values of another ledger. -/
structure Ledger.Reads (L : Ledger) (blockNum : ℕ) (M : Ledger) : Prop where
  deployed : ∀ a, (∃ k, L.contracts a = some k ∧ k.deployedHeight ≤ blockNum) ↔ M.contracts a ≠ none
  nonce : ∀ a, State.valueBefore (L.nonceHistory a) (blockNum + 1) = M.nonceOf a
  classHash : ∀ a, State.valueBefore (L.classHashHistory a) (blockNum + 1) = M.classHashOf a
  slot : ∀ a k, State.valueBefore (L.storageHistory a k) (blockNum + 1) = M.storage a k

theorem Ledger.ContractsOk.reads (hok : L.ContractsOk c (n + 1)) : L.Reads n L := by
  refine ⟨fun a => ?_, fun a => (hok.nonces a).value, fun a => (hok.classHashes a).value,
    fun a k => (hok.slots a k).value⟩
  rw [ne_none_iff_exists']
  constructor
  · intro ⟨k, hk, _⟩
    exact ⟨k, hk⟩
  · intro ⟨k, hk⟩
    exact ⟨k, hk, Nat.lt_succ_iff.mp (hok.heights a k hk)⟩

/-- A later block does not change what is read at an earlier one. -/
theorem Ledger.Follows.reads (hf : L.Follows c blockNum diff L') (hreg : L.Regular c blockNum diff)
    (hn : n < blockNum) (h : L.Reads n M) : L'.Reads n M := by
  refine ⟨fun a => ?_, fun a => ?_, fun a => ?_, fun a k => ?_⟩
  · rw [← h.deployed, hf.contracts]
    by_cases hd : a ∈ diff.deployedContracts
    · rw [contractAfter_deployed hd, hreg.deployed a hd]
      simp only [some.injEq, exists_eq_left', reduceCtorEq, false_and, exists_false, iff_false, not_le]
      exact hn
    · cases hk : L.contracts a with
      | some k =>
        rw [contractAfter_there hd hk]
        simp only [some.injEq, exists_eq_left']
        rfl
      | none =>
        rw [contractAfter_made hd hk]
        simp only [ite_none_right_eq_some, some.injEq, reduceCtorEq, false_and, exists_false, iff_false]
        rintro ⟨k, ⟨-, rfl⟩, hle⟩
        exact absurd hle (not_le.mpr hn)
  · rw [hf.nonces, valueBefore_log _ hn, h.nonce]
  · rw [hf.classHashes, valueBefore_log _ hn, h.classHash]
  · rw [hf.slots, valueBefore_log _ hn, h.slot]

theorem Ledger.Reads.same (h : L.Reads n M) (hsame : L.SameContracts L') : L'.Reads n M := by
  obtain ⟨h₁, -, h₃, h₄, h₅⟩ := hsame
  constructor
  case deployed => rw [h₁]; exact h.deployed
  case nonce => rw [h₃]; exact h.nonce
  case classHash => rw [h₄]; exact h.classHash
  case slot => rw [h₅]; exact h.slot

/-- **Reading the histories of a chain**: at each block they give the values after the block. -/
theorem Chain.reads {chain : List (Block × DB)} (h : Chain c chain L) (hb : (b, dbAfter) ∈ chain) :
    b.header.number < chain.length ∧ ∃ M, LedgerOf c dbAfter (b.header.number + 1) M ∧
      L.Reads b.header.number M := by
  induction h with
  | nil _ => simp at hb
  | cons hchain hnum hok hr hreg hM hf hsame ih =>
    rcases mem_cons.mp hb with heq | hmem
    · obtain ⟨rfl, rfl⟩ := Prod.ext_iff.mp heq
      simp only
      rw [hnum]
      exact ⟨Nat.lt_succ_self _, _, hM, hM.ok.reads.same hsame⟩
    · obtain ⟨hlt, M, hMb, hreads⟩ := ih hmem
      refine ⟨hlt.trans (Nat.lt_succ_self _), M, hMb, ?_⟩
      exact (hf.reads hreg (hnum ▸ hlt) hreads).same hsame

theorem Chain.number {chain : List (Block × DB)} (h : Chain c chain L) {i : ℕ}
    (hb : chain.reverse[i]? = some (b, dbAfter)) : b.header.number = i := by
  induction h with
  | nil _ => simp at hb
  | @cons chain _ _ _ b' db' hchain hnum hok hr hreg hM hf hsame ih =>
    rw [reverse_cons, getElem?_append] at hb
    split_ifs at hb with hi
    · exact ih hb
    · rw [length_reverse] at hi hb
      obtain ⟨hlt, hget⟩ := List.getElem?_eq_some_iff.mp hb
      have hzero : i - chain.length = 0 := by simpa using hlt
      have hbb : b' = b := by simpa [hzero] using congrArg Prod.fst hget
      rw [← hbb, hnum]
      omega

/-! ### The readers -/

theorem LedgerOf.contractDeployedAt {db : DB} (h : LedgerOf c db n L) (a : Felt) (blockNum : ℕ) :
    db.contractDeployedAt a blockNum = true ↔ ∃ k, L.contracts a = some k ∧ k.deployedHeight ≤ blockNum := by
  have hrecord : db.contracts a = (L.contracts a).map fun k => k.record c (L.storage a) := by
    rw [h.toDB]
    rfl
  rw [DB.contractDeployedAt, hrecord]
  cases L.contracts a with
  | none => simp
  | some k => simp [Contract.record]

/-- The historical reader fails exactly when the contract did not exist. -/
theorem checkDeployed_of_reads {db : DB} (hL : LedgerOf c db n L) (h : L.Reads blockNum M) (a : Felt) :
    checkDeployed db blockNum a = if M.contracts a = none then .error .keyNotFound else .ok () := by
  rw [checkDeployed]
  by_cases hM : M.contracts a = none
  · rw [if_pos hM, if_neg]
    rw [hL.contractDeployedAt, h.deployed]
    exact not_not_intro hM
  · rw [if_neg hM, if_pos]
    rw [hL.contractDeployedAt, h.deployed]
    exact hM

theorem valuesAt_of_reads {db : DB} (hL : LedgerOf c db n L) (h : L.Reads blockNum M) (a : Felt) :
    db.contractNonceAt a blockNum = M.nonceOf a ∧ db.contractClassHashAt a blockNum = M.classHashOf a ∧
      ∀ k, db.contractStorageAt a k blockNum = M.storage a k := by
  rw [hL.toDB]
  refine ⟨?_, ?_, fun k => ?_⟩
  · rw [← h.nonce, valueBefore_eq_valueAt]
    rfl
  · rw [← h.classHash, valueBefore_eq_valueAt]
    rfl
  · rw [← h.slot, valueBefore_eq_valueAt]
    rfl

/-- **The historical reader.** In every run by regular blocks, at every block of the current chain, it returns
what the head reader returned right after the block, and fails exactly when the contract did not exist then.
-/
theorem history_reads (c : Crypto) {chain : List (Block × DB)} {db : DB} (hrun : Run c chain db)
    {blockNum : ℕ} {b : Block} {dbAfter : DB} (hb : chain.reverse[blockNum]? = some (b, dbAfter)) (a : Felt) :
    contractNonce db blockNum a = dbAfter.contractNonce a ∧
    contractClassHash db blockNum a = dbAfter.contractClassHash a ∧
    ∀ k, InRange k → contractStorage db blockNum a k =
      if dbAfter.contracts a = none then .error .keyNotFound else .ok (dbAfter.contractStorage a k) := by
  obtain ⟨L, hL, hchain⟩ := hrun.chain
  obtain ⟨-, M, hM, hreads⟩ := hchain.reads (mem_reverse.mp (mem_of_getElem? hb))
  rw [hchain.number hb] at hM hreads
  have hcheck := checkDeployed_of_reads hL hreads a
  obtain ⟨hnonce, hclassHash, hslot⟩ := valuesAt_of_reads hL hreads a
  have hrecord : dbAfter.contracts a = (M.contracts a).map fun k => k.record c (M.storage a) := by
    rw [hM.toDB]
    rfl
  simp only [contractNonce, contractClassHash, contractStorage, DB.contractNonce,
    DB.contractClassHash, hcheck, hnonce, hclassHash, hslot, hrecord]
  cases hk : M.contracts a with
  | none => exact ⟨rfl, rfl, fun _ _ => rfl⟩
  | some k =>
    refine ⟨?_, ?_, fun key hkey => ?_⟩
    · rw [nonceOf, hk]
      rfl
    · rw [classHashOf, hk]
      rfl
    · rw [hM.contractStorage a hkey]
      rfl

theorem writeBlock_regular {db : DB} {number : ℕ} {oldRoot newRoot addr key value : Felt}
    (hroot : oldRoot ≠ 0) (haddr : InRange addr) (hzero : addr ≠ 0) (hkey : InRange key)
    (hsys : isSystemContract addr = false) :
    (writeBlock number oldRoot newRoot addr key value).Regular constCrypto db := by
  have htouch : ∀ a, (writeBlock number oldRoot newRoot addr key value).diff.Touches a → a = addr := by
    intro a ha
    simpa [StateDiff.Touches, writeBlock, StateDiff.empty] using ha
  have hempty : ∀ (a : Felt), a ∉ (∅ : GoMap Felt Felt) := AList.notMem_empty
  refine ⟨⟨fun a ha => absurd ha (hempty a), fun a ha => htouch a ha ▸ haddr,
    fun a w hw k hk => ?_, fun h0 => ?_,
    fun hash hm => (by cases hm), fun hash hm => absurd hm (hempty hash),
      fun hash hm => absurd hm (hempty hash)⟩,
    fun h0 => absurd h0 hroot, fun a ha _ ht => ?_, fun a _ => nonzeroHashes_one trieHeight_le _⟩
  · simp only [writeBlock, GoMap.lookup_singleton, ite_none_right_eq_some, some.injEq] at hw
    obtain ⟨-, rfl⟩ := hw
    exact GoMap.mem_singleton.mp hk ▸ hkey
  · exact hzero (GoMap.mem_singleton.mp h0).symm
  · rcases ht with ht | hd
    · rw [htouch a ht, hsys] at ha
      exact absurd ha Bool.false_ne_true
    · exact absurd hd (hempty a)

/-- The first block writes 4 to a slot, the next one 6; the historical reader at block 0 finds 4. -/
theorem history_reads_second :
    ∃ db₀ db₁, firstBlock.apply constCrypto false DB.empty = .ok db₀ ∧
      (writeBlock 1 1 1 5 3 6).apply constCrypto false db₀ = .ok db₁ ∧ db₁.contractStorage 5 3 = 6 ∧
      contractStorage db₁ 0 5 3 = .ok 4 := by
  have hrun : (do
      let db₀ ← firstBlock.apply constCrypto false DB.empty
      let db₁ ← (writeBlock 1 1 1 5 3 6).apply constCrypto false db₀
      return ((db₀.contracts 5).isNone, db₀.contractStorage 5 3, db₁.contractStorage 5 3)) = .ok (false, 4,
        6) := by
    decide +kernel
  obtain ⟨db₀, h₀, hrun⟩ := bind_eq_ok.mp hrun
  obtain ⟨db₁, h₁, hrun⟩ := bind_eq_ok.mp hrun
  obtain ⟨hc, hs₀, hs₁⟩ : (db₀.contracts 5).isNone = false ∧ db₀.contractStorage 5 3 = 4 ∧
      db₁.contractStorage 5 3 = 6 := by
    simpa using Except.ok.inj hrun
  have hreach : Run constCrypto [(writeBlock 1 1 1 5 3 6, db₁), (firstBlock, db₀)] db₁ :=
    .update _ false (.update _ false .start rfl firstBlock_regular h₀ (hashesNonzero_const db₀)) rfl
      (writeBlock_regular (by decide) (by decide) (by decide) (by decide) rfl) h₁ (hashesNonzero_const db₁)
  have hblock : [(writeBlock 1 1 1 5 3 6, db₁), (firstBlock, db₀)].reverse[0]? = some (firstBlock, db₀) := rfl
  obtain ⟨-, -, hread⟩ := history_reads constCrypto hreach hblock 5
  refine ⟨db₀, db₁, h₀, h₁, hs₁, ?_⟩
  rw [hread 3 (by decide), if_neg fun hnone => by simp [hnone] at hc, hs₀]

/-- Block 0 writes a slot of the system contract `0x1`, and block 1 writes zero to it: the contract is purged,
and the historical reader at block 0 does not find it, though the head reader returned 7 right after block 0.
-/
theorem history_reads_purged :
    ∃ db₀ db₁, (writeBlock 0 0 7013 1 5 7).apply affineCrypto false DB.empty = .ok db₀ ∧
      (writeBlock 1 7013 0 1 5 0).apply affineCrypto false db₀ = .ok db₁ ∧
      db₀.contractStorage 1 5 = 7 ∧ (db₀.contracts 1).isSome = true ∧
      contractStorage db₁ 0 1 5 = .error .keyNotFound := by
  have hrun : (do
      let db₀ ← (writeBlock 0 0 7013 1 5 7).apply affineCrypto false DB.empty
      let db₁ ← (writeBlock 1 7013 0 1 5 0).apply affineCrypto false db₀
      return (db₀.contractStorage 1 5, (db₀.contracts 1).isSome,
        decide (contractStorage db₁ 0 1 5 = Except.error StateError.keyNotFound))) = .ok (7, true, true) := by
    decide +kernel
  obtain ⟨db₀, h₀, hrun⟩ := bind_eq_ok.mp hrun
  obtain ⟨db₁, h₁, hrun⟩ := bind_eq_ok.mp hrun
  obtain ⟨hs, hc, hread⟩ : db₀.contractStorage 1 5 = 7 ∧ (db₀.contracts 1).isSome = true ∧
      contractStorage db₁ 0 1 5 = .error .keyNotFound := by
    simpa using Except.ok.inj hrun
  exact ⟨db₀, db₁, h₀, h₁, hs, hc, hread⟩

/-! ### The head -/

section

variable {chain chain' : List (Block × DB)} {db db' : DB}

/-- The database right after the last block of the current chain was applied. -/
def afterHead : List (Block × DB) → DB
  | [] => DB.empty
  | (_, db) :: _ => db

/-- A database with the classes of another one. -/
def DB.withClasses (db classes : DB) : DB :=
  { db with
    classNodes := classes.classNodes
    classes := classes.classes
    casmMetadata := classes.casmMetadata }

theorem Ledger.SameContracts.toDB (h : M.SameContracts L) : L.toDB c = (M.toDB c).withClasses (L.toDB c) := by
  obtain ⟨h₁, h₂, h₃, h₄, h₅⟩ := h
  have hleaf : L.leaf c = M.leaf c := funext fun a => by rw [leaf, leaf, h₁, h₂]
  simp only [DB.withClasses, Ledger.toDB, hleaf, h₁, h₂, h₃, h₄, h₅]

/-- **Updates and reverts are exact.** Whatever was applied and reverted, the records of the contracts, the
nodes of their tries and their histories are those right after the last block. -/
theorem head_restored (hrun : Run c chain db) : db = (afterHead chain).withClasses db := by
  obtain ⟨L, hL, hchain⟩ := hrun.chain
  rw [hL.toDB]
  cases hchain with
  | nil hsame => rw [afterHead, ← toDB_empty c]; exact hsame.toDB
  | cons _ _ _ _ _ hM _ hsame => rw [afterHead, hM.toDB]; exact hsame.toDB

/-- The second block writes a slot of the contract that the first one deployed, and is reverted. -/
theorem exists_reverted :
    ∃ db₀ db₁ db₂, Run constCrypto [(firstBlock, db₀)] db₀ ∧
      (writeBlock 1 1 1 5 3 6).apply constCrypto false db₀ = .ok db₁ ∧
        Run constCrypto [(firstBlock, db₀)] db₂ ∧
      [db₀, db₁, db₂].map (·.contractStorage 5 3) = [4, 6, 4] := by
  have hrun : (do
      let db₀ ← firstBlock.apply constCrypto false DB.empty
      let db₁ ← (writeBlock 1 1 1 5 3 6).apply constCrypto false db₀
      let db₂ ← (writeBlock 1 1 1 5 3 6).undo constCrypto db₁
      return [db₀, db₁, db₂].map fun db : DB => db.contractStorage 5 3) = .ok [4, 6, 4] := by
    decide +kernel
  obtain ⟨db₀, h₀, hrun⟩ := bind_eq_ok.mp hrun
  obtain ⟨db₁, h₁, hrun⟩ := bind_eq_ok.mp hrun
  obtain ⟨db₂, h₂, hreads⟩ := bind_eq_ok.mp hrun
  have hfirst : Run constCrypto [(firstBlock, db₀)] db₀ :=
    .update _ false .start rfl firstBlock_regular h₀ (hashesNonzero_const db₀)
  exact ⟨db₀, db₁, db₂, hfirst, h₁,
    .revert (.update _ false hfirst rfl (writeBlock_regular (by decide) (by decide)
    (by decide) (by decide) rfl) h₁ (hashesNonzero_const db₁)) (fun h => absurd h (by decide)) h₂
    (hashesNonzero_const db₂), Except.ok.inj hreads⟩

theorem head_restored_first :
    ∃ db₀ db₁ db₂, Run constCrypto [(firstBlock, db₀)] db₂ ∧
      (writeBlock 1 1 1 5 3 6).apply constCrypto false db₀ = .ok db₁ ∧
      [db₀, db₁, db₂].map (·.contractStorage 5 3) = [4, 6, 4] ∧ db₂ = db₀.withClasses db₂ :=
  have ⟨db₀, db₁, db₂, _, h₁, h₂, hreads⟩ := exists_reverted
  ⟨db₀, db₁, db₂, h₂, h₁, hreads, head_restored h₂⟩

theorem storeOf_eq {H : HashFn} {m m' : Felt → Felt}
    (h : ∀ k, InRange k → leafOf (storeOf trieHeight H m) k = leafOf (storeOf trieHeight H m') k) :
    storeOf trieHeight H m = storeOf trieHeight H m' := by
  have hm : ∀ k, InRange k → m k = m' k :=
    fun k hk => by rw [← leafOf_storeOf H m hk, h k hk, leafOf_storeOf H m' hk]
  unfold storeOf
  rw [canon_onPaths_congr trieHeight_le hm]

/-- **No node is left behind.** Runs that end with the same leaves of a trie have the same nodes. -/
theorem nodes_of_leaves (hrun : Run c chain db) (hrun' : Run c chain' db') :
    ((∀ hash, InRange hash → db.classLeaf hash = db'.classLeaf hash) → db.classNodes = db'.classNodes) ∧
    ((∀ a, InRange a → db.contractLeaf a = db'.contractLeaf a) → db.contractNodes = db'.contractNodes) ∧
    ∀ a, (∀ k, InRange k → db.contractStorage a k = db'.contractStorage a k) →
      db.storageNodes a = db'.storageNodes a := by
  obtain ⟨L, hL, -⟩ := hrun.chain
  obtain ⟨L', hL', -⟩ := hrun'.chain
  rw [hL.toDB, hL'.toDB]
  exact ⟨storeOf_eq, storeOf_eq, fun _ => storeOf_eq⟩

theorem DB.leaves_withClasses (db classes : DB) : (db.withClasses classes).contractLeaf = db.contractLeaf ∧
    (db.withClasses classes).contractStorage = db.contractStorage := ⟨rfl, rfl⟩

theorem Run.leaves_afterHead (hrun : Run c chain db) :
    db.contractLeaf = (afterHead chain).contractLeaf ∧
      db.contractStorage = (afterHead chain).contractStorage := by
  obtain ⟨L, hL, hchain⟩ := hrun.chain
  rw [hL.toDB]
  cases hchain with
  | nil hsame => rw [afterHead, ← toDB_empty c, hsame.toDB]; exact DB.leaves_withClasses _ _
  | cons _ _ _ _ _ hM _ hsame => rw [afterHead, hM.toDB, hsame.toDB]; exact DB.leaves_withClasses _ _

/-- The nodes after the second block was applied and reverted are those after the first one. -/
theorem nodes_of_leaves_first :
    ∃ db₀ db₁ db₂, Run constCrypto [(firstBlock, db₀)] db₂ ∧
      (writeBlock 1 1 1 5 3 6).apply constCrypto false db₀ = .ok db₁ ∧
        db₁.contractStorage 5 3 ≠ db₀.contractStorage 5 3 ∧
      db₂.contractNodes = db₀.contractNodes ∧ db₂.storageNodes 5 = db₀.storageNodes 5 := by
  obtain ⟨db₀, db₁, db₂, h₀, h₁, h₂, hreads⟩ := exists_reverted
  obtain ⟨hleaf, hstorage⟩ := h₂.leaves_afterHead
  have hnodes := (nodes_of_leaves h₂ h₀).2
  simp only [map_cons, cons.injEq] at hreads
  refine ⟨db₀, db₁, db₂, h₂, h₁, ?_, hnodes.1 fun a _ => congrFun hleaf a, hnodes.2 5 fun k _ => ?_⟩
  · rw [hreads.1, hreads.2.1]
    decide
  · exact congrFun (congrFun hstorage 5) k

end

end Juno.CoreState
