import Juno.CoreState.Update

/-!
# What a block does to the ledger

The ledger after a block, address by address, and the invariant that the ledgers of a
chain keep: the histories record the values, nothing is stored for a contract that does
not exist, and a class leaf belongs to a stored class.

## What is proved

* `Ledger.ContractsOk.follows` and `Ledger.ClassesOk.updated` — **a block keeps the invariant**.
-/

namespace Juno.CoreState

open Lib Trie2 Ledger AList GoMap StateDiff Option

variable {c : Crypto} {L : Ledger} {blockNum n : ℕ} {obj : Object} {objs : Objects} {k : Contract}

/-! ### Recorded histories -/

/-- A history has no entry from a block on, and the value before the block is the given one. -/
structure Recorded (h : ℕ → Option Felt) (blockNum : ℕ) (v : Felt) : Prop where
  vacant : ∀ b, blockNum ≤ b → h b = none
  value : State.valueBefore h blockNum = v

variable (h : ℕ → Option Felt)

theorem valueBefore_eq_valueAt (n : ℕ) : State.valueBefore h (n + 1) = (valueAt h n).getD 0 :=
  if_pos (Nat.succ_pos n)

theorem valueBefore_succ (n : ℕ) : State.valueBefore h (n + 1) = (h n).getD (State.valueBefore h n) := by
  rw [valueBefore_eq_valueAt]
  cases n with
  | zero => rfl
  | succ n =>
    rw [valueBefore_eq_valueAt, valueAt]
    cases h (n + 1) with
    | none => rfl
    | some v => rfl

/-- The value before a block does not depend on the entries from the block on. -/
theorem valueBefore_congr {h h' : ℕ → Option Felt} (heq : ∀ b, b < n → h b = h' b) :
    State.valueBefore h n = State.valueBefore h' n := by
  induction n with
  | zero => rfl
  | succ n ih =>
    rw [valueBefore_succ, valueBefore_succ, heq n (Nat.lt_succ_self n), ih fun b hb => heq b (by omega)]

theorem valueBefore_log {m : ℕ} (hmn : m ≤ n) (entry : Option (Option Felt)) :
    State.valueBefore (log h n entry) m = State.valueBefore h m := by
  refine valueBefore_congr fun b hb => ?_
  cases entry with
  | none => rfl
  | some e => exact Function.update_of_ne (by omega) _ _

namespace Recorded

variable {h : ℕ → Option Felt} {n m : ℕ} {v : Felt}

theorem mono (hr : Recorded h n v) (hnm : n ≤ m) : Recorded h m v := by
  induction m, hnm using Nat.le_induction with
  | base => exact hr
  | succ m hnm ih =>
    refine ⟨fun b hb => ih.vacant b (by omega), ?_⟩
    rw [valueBefore_succ, hr.vacant m hnm, getD_none, ih.value]

theorem log (hr : Recorded h n v) (hnm : n ≤ m) (x : Option Felt) :
    Recorded (CoreState.log h m (x.map some)) (m + 1) (x.getD v) := by
  have hm := hr.mono hnm
  constructor
  · intro b hb
    cases x with
    | none => exact hr.vacant b (by omega)
    | some x =>
      refine (Function.update_of_ne (by omega) _ _).trans ?_
      exact hr.vacant b (by omega)
  · rw [valueBefore_succ, valueBefore_log h le_rfl, hm.value]
    cases x with
    | none => rw [map_none, CoreState.log, hm.vacant m le_rfl, getD_none]
    | some x => rw [map_some, CoreState.log, Function.update_self, getD_some]

theorem unlog (hr : Recorded h n v) (hnm : n ≤ m) {x y : Option Felt} (hxy : y = none → x = none) :
    CoreState.log (CoreState.log h m (x.map some)) m (y.map fun _ => none) = h := by
  rw [log_log]
  cases y with
  | none => rw [hxy rfl]; rfl
  | some y =>
    refine Function.update_eq_self_iff.mpr ?_
    exact (hr.vacant m hnm).symm

end Recorded

/-! ### The contracts after a block -/

variable (L)

/-- The nonce of a contract, zero if it does not exist. -/
def Ledger.nonceOf (a : Felt) : Felt := (L.contracts a).elim 0 (·.nonce)

/-- The class hash of a contract, zero if it does not exist. -/
def Ledger.classHashOf (a : Felt) : Felt := (L.contracts a).elim 0 (·.classHash)

def Ledger.storageAfter (diff : StateDiff) (a : Felt) : Felt → Felt := fun k =>
  (diff.slot a k).getD (L.storage a k)

/-- The contract after a block, if it exists. -/
def Ledger.contractWith (diff : StateDiff) (a : Felt) (deployedHeight : ℕ) : Contract :=
  ⟨(diff.nonces.lookup a).getD (L.nonceOf a), (diff.classHash a).getD (L.classHashOf a), deployedHeight⟩

variable {L}

/-- **The contracts after a block**: the deployed ones, those that were there, and system contracts with
storage. -/
def Ledger.contractAfter (c : Crypto) (L : Ledger) (blockNum : ℕ) (diff : StateDiff) (a : Felt) :
    Option Contract :=
  if a ∈ diff.deployedContracts then some (L.contractWith diff a blockNum)
  else
    match L.contracts a with
    | some k => some (L.contractWith diff a k.deployedHeight)
    | none =>
      if isSystemContract a = true ∧ a ∈ diff.storageDiffs ∧
        mapRoot c.pedersen trieHeight (L.storageAfter diff a) ≠ 0 then
        some (L.contractWith diff a blockNum)
      else none

/-- A block that deploys new contracts and changes contracts that exist. No system contract that was there, or
that it deploys, is left without storage. -/
structure Ledger.Regular (c : Crypto) (L : Ledger) (blockNum : ℕ) (diff : StateDiff) : Prop where
  deployed : ∀ addr ∈ diff.deployedContracts, L.contracts addr = none
  /-- The contracts the diff changes exist. -/
  updatable :
    L.ContractsUpdatable (deployedObjects blockNum diff.deployedContracts) blockNum
    diff.replacedClasses diff.nonces
    diff.storageDiffs
  keeps : ∀ a, isSystemContract a = true → L.contracts a ≠ none ∨ a ∈ diff.deployedContracts →
    diff.Touches a ∨ a ∈ diff.deployedContracts → mapRoot c.pedersen trieHeight (L.storageAfter diff a) ≠ 0
  root_zero : ∀ a, isSystemContract a = true → mapRoot c.pedersen trieHeight (L.storageAfter diff a) = 0 →
    ∀ k, L.storageAfter diff a k = 0

section

variable {blockNum : ℕ} {diff : StateDiff} {a : Felt}

theorem override_getD_empty (w : Option (GoMap Felt Felt)) (f : Felt → Felt) :
    (w.getD ∅).override f = fun k => (w.bind (·.lookup k)).getD (f k) := by
  cases w with
  | none => rfl
  | some w => rfl

theorem newStorage_updateObjs
    (hU : L.ContractsUpdatable (deployedObjects blockNum diff.deployedContracts) blockNum diff.replacedClasses
      diff.nonces diff.storageDiffs)
    (h : L.updateObjs blockNum diff a = some (some obj)) : L.newStorage a obj = L.storageAfter diff a := by
  rw [newStorage, updateContracts_writes hU (fun a obj => deployedObjects_writes) h, override_getD_empty]
  rfl

theorem storageAfter_of_not_mem (h : a ∉ diff.storageDiffs) : L.storageAfter diff a = L.storage a := by
  funext k
  rw [storageAfter, slot, lookup_eq_none.mpr h]
  rfl

theorem storageAfter_of_not_inRange (hr : diff.KeysInRange) {k : Felt} (hk : ¬ InRange k) :
    L.storageAfter diff a k = L.storage a k := by
  rw [storageAfter, slot]
  cases hw : diff.storageDiffs.lookup a with
  | none => rfl
  | some w =>
    rw [bind_some, lookup_eq_none.mpr fun hmem => hk (hr.slots a w hw k hmem)]
    rfl

theorem objectAt_deployed (L : Ledger) (blockNum : ℕ) {x : Felt}
    (h : diff.deployedContracts.lookup a = some x) :
    L.objectAt (deployedObjects blockNum diff.deployedContracts) a = some ⟨⟨0, x, blockNum⟩, ∅⟩ := by
  simp only [objectAt, deployedObjects, h, map_some]

theorem objectAt_not_deployed (L : Ledger) (blockNum : ℕ) (h : a ∉ diff.deployedContracts) :
    L.objectAt (deployedObjects blockNum diff.deployedContracts) a = (L.contracts a).map (⟨·, ∅⟩) := by
  simp only [objectAt, deployedObjects, lookup_eq_none.mpr h, map_none]

theorem commit_changed (h : objs a = some (some obj)) :
    (L.commit c objs).contracts a = (if L.purged c a obj then none else some obj.contract) ∧
      (L.commit c objs).storage a = if L.purged c a obj then fun _ => 0 else L.newStorage a obj := by
  by_cases hp : L.purged c a obj
  · simp [commit, kept_purged h hp, hp]
  · simp [commit, kept_some h hp, hp]

theorem commit_other (h : objs a = none) :
    (L.commit c objs).contracts a = L.contracts a ∧ (L.commit c objs).storage a = L.storage a := by
  simp only [commit, kept_none h]
  exact ⟨trivial, trivial⟩

/-- What the object of a contract is: there is none, or it was deployed, changed or made. -/
theorem updateObjs_cases (h : L.Regular c blockNum diff) (a : Felt) :
    (a ∉ diff.deployedContracts ∧ ¬ diff.Touches a ∧ L.updateObjs blockNum diff a = none) ∨
    (∃ obj, a ∈ diff.deployedContracts ∧ L.updateObjs blockNum diff a = some (some obj) ∧
      obj.contract = L.contractWith diff a blockNum) ∨
    (∃ k obj, a ∉ diff.deployedContracts ∧ diff.Touches a ∧ L.contracts a = some k ∧
      L.updateObjs blockNum diff a = some (some obj) ∧
        obj.contract = L.contractWith diff a k.deployedHeight) ∨
    (∃ obj, a ∉ diff.deployedContracts ∧ a ∈ diff.storageDiffs ∧ L.contracts a = none ∧
      isSystemContract a = true ∧
      L.updateObjs blockNum diff a = some (some obj) ∧ obj.contract = L.contractWith diff a blockNum) := by
  by_cases hd : a ∈ diff.deployedContracts
  · obtain ⟨x, hx⟩ := exists_lookup hd
    have hnew : L.contracts a = none := h.deployed a hd
    have hobj := objectAt_deployed L blockNum hx
    have hcontract : ∀ writes, (Object.change (diff.replacedClasses.lookup a) (diff.nonces.lookup a) writes
        ⟨⟨0, x, blockNum⟩, ∅⟩).contract = L.contractWith diff a blockNum := by
      intro writes
      simp only [Object.change, contractWith, nonceOf, classHashOf, hnew, classHash, hx]
      cases diff.replacedClasses.lookup a with
      | none => rfl
      | some y => rfl
    right; left
    by_cases ht : diff.Touches a
    · exact ⟨_, hd, updateContracts_some hobj ht, hcontract _⟩
    · simp only [Touches, not_or] at ht
      refine ⟨⟨⟨0, x, blockNum⟩, ∅⟩, hd, ?_, ?_⟩
      · rw [updateObjs, updateContracts_other ht.1 ht.2.1 ht.2.2, deployedObjects, hx]
        rfl
      · have := hcontract none
        rw [lookup_eq_none.mpr ht.1, lookup_eq_none.mpr ht.2.1] at this
        exact this
  · have hobj := objectAt_not_deployed L blockNum hd
    have hdep : diff.deployedContracts.lookup a = none := lookup_eq_none.mpr hd
    obtain ⟨hr, hn, hs, heq⟩ | ⟨obj, hobj', ht, heq⟩ | ⟨writes, hobj', hr, hn, hw, hsys, heq⟩ :=
      updateContracts_cases h.updatable a
    · refine .inl ⟨hd, by simp [Touches, hr, hn, hs], ?_⟩
      rw [updateObjs, heq, deployedObjects, hdep]
      rfl
    · rw [hobj, map_eq_some_iff] at hobj'
      obtain ⟨k, hk, rfl⟩ := hobj'
      refine .inr (.inr (.inl ⟨k, _, hd, ht, hk, heq, ?_⟩))
      simp only [Object.change, contractWith, nonceOf, classHashOf, hk, classHash, hdep,
        or_none, elim_some]
    · rw [hobj, map_eq_none_iff] at hobj'
      refine .inr (.inr (.inr ⟨_, hd, mem_of_lookup hw, hobj', hsys, heq, ?_⟩))
      simp only [contractWith, nonceOf, classHashOf, hobj', classHash, hdep,
        lookup_eq_none.mpr hr, lookup_eq_none.mpr hn, or_none, elim_none, getD_none]
      rfl

theorem Ledger.Regular.not_purged (h : L.Regular c blockNum diff)
    (hobj : L.updateObjs blockNum diff a = some (some obj))
    (hthere : L.contracts a ≠ none ∨ a ∈ diff.deployedContracts)
    (ht : diff.Touches a ∨ a ∈ diff.deployedContracts) : ¬ L.purged c a obj := by
  intro ⟨hsys, hroot⟩
  rw [newStorage_updateObjs h.updatable hobj] at hroot
  exact h.keeps a hsys hthere ht hroot

theorem contractWith_eq (hd : a ∉ diff.deployedContracts) (ht : ¬ diff.Touches a)
    (hk : L.contracts a = some k) : L.contractWith diff a k.deployedHeight = k := by
  simp only [Touches, not_or] at ht
  simp only [contractWith, classHash, lookup_eq_none.mpr hd, lookup_eq_none.mpr ht.1,
    lookup_eq_none.mpr ht.2.1, nonceOf, classHashOf, hk, or_none, getD_none, elim_some]

theorem commit_contracts_updateObjs (h : L.Regular c blockNum diff) (a : Felt) :
    (L.commit c (L.updateObjs blockNum diff)).contracts a = L.contractAfter c blockNum diff a := by
  obtain ⟨hd, ht, heq⟩ | ⟨obj, hd, heq, hk'⟩ | ⟨k, obj, hd, ht, hk, heq, hk'⟩ | ⟨obj, hd, hs, hk,
      hsys, heq, hk'⟩ :=
    updateObjs_cases h a
  · rw [(commit_other heq).1, contractAfter, if_neg hd]
    cases hk : L.contracts a with
    | some k => exact congrArg some (contractWith_eq hd ht hk).symm
    | none =>
      rw [if_neg]
      exact fun h => ht (.inr (.inr h.2.1))
  · rw [(commit_changed heq).1, if_neg (h.not_purged heq (.inr hd) (.inr hd)), hk', contractAfter, if_pos hd]
  · rw [(commit_changed heq).1, if_neg (h.not_purged heq (.inl (by simp [hk])) (.inl ht)), hk', contractAfter,
      if_neg hd, hk]
  · rw [(commit_changed heq).1, contractAfter, if_neg hd, hk, hk']
    simp only [purged, newStorage_updateObjs h.updatable heq, hsys, hs, true_and, ne_eq]
    by_cases hroot : mapRoot c.pedersen trieHeight (L.storageAfter diff a) = 0
    · simp [hroot]
    · simp [hroot]

theorem commit_storage_updateObjs (h : L.Regular c blockNum diff) (a : Felt) :
    (L.commit c (L.updateObjs blockNum diff)).storage a = L.storageAfter diff a := by
  have hsome : ∀ obj, L.updateObjs blockNum diff a = some (some obj) →
      (L.commit c (L.updateObjs blockNum diff)).storage a = L.storageAfter diff a := by
    intro obj heq
    rw [(commit_changed heq).2, newStorage_updateObjs h.updatable heq]
    split_ifs with hp
    · obtain ⟨hsys, hroot⟩ := hp
      rw [newStorage_updateObjs h.updatable heq] at hroot
      funext k
      exact (h.root_zero a hsys hroot k).symm
    · rfl
  obtain ⟨-, ht, heq⟩ | ⟨obj, -, heq, -⟩ | ⟨k, obj, -, -, -, heq, -⟩ | ⟨obj, -, -, -, -, heq, -⟩ :=
    updateObjs_cases h a
  · rw [(commit_other heq).2, storageAfter_of_not_mem fun hs => ht (.inr (.inr hs))]
  · exact hsome obj heq
  · exact hsome obj heq
  · exact hsome obj heq

theorem contractAfter_deployed (hd : a ∈ diff.deployedContracts) :
    L.contractAfter c blockNum diff a = some (L.contractWith diff a blockNum) := if_pos hd

theorem contractAfter_there (hd : a ∉ diff.deployedContracts) (hk : L.contracts a = some k) :
    L.contractAfter c blockNum diff a = some (L.contractWith diff a k.deployedHeight) := by
  rw [contractAfter, if_neg hd, hk]

theorem contractAfter_made (hd : a ∉ diff.deployedContracts) (hk : L.contracts a = none) :
    L.contractAfter c blockNum diff a =
      if isSystemContract a = true ∧ a ∈ diff.storageDiffs ∧
        mapRoot c.pedersen trieHeight (L.storageAfter diff a) ≠ 0 then
        some (L.contractWith diff a blockNum)
      else none := by
  rw [contractAfter, if_neg hd, hk]

/-- Neither a nonce nor a class hash is set for a contract that does not exist. -/
theorem Ledger.Regular.not_mem (h : L.Regular c blockNum diff) (hd : a ∉ diff.deployedContracts)
    (hk : L.contracts a = none) :
    a ∉ diff.replacedClasses ∧ a ∉ diff.nonces ∧ (a ∈ diff.storageDiffs → isSystemContract a = true) := by
  obtain ⟨hU, hS⟩ := contractsUpdatable_iff.mp h.updatable
  have hnone : L.objectAt (deployedObjects blockNum diff.deployedContracts) a = none := by
    rw [objectAt_not_deployed L blockNum hd, hk]
    rfl
  refine ⟨fun hr =>
    by simpa [hnone] using hU a (.inl hr), fun hn => by simpa [hnone] using hU a (.inr hn), fun hs => ?_⟩
  exact (hS a hs).resolve_left (by simp [hnone])

theorem nonceOf_contractAfter (h : L.Regular c blockNum diff) (a : Felt) :
    (L.contractAfter c blockNum diff a).elim 0 (·.nonce) = (diff.nonces.lookup a).getD (L.nonceOf a) ∧
      (L.contractAfter c blockNum diff a).elim 0 (·.classHash) =
        (diff.classHash a).getD (L.classHashOf a) := by
  by_cases hd : a ∈ diff.deployedContracts
  · rw [contractAfter_deployed hd]
    exact ⟨rfl, rfl⟩
  · cases hk : L.contracts a with
    | some k =>
      rw [contractAfter_there hd hk]
      exact ⟨rfl, rfl⟩
    | none =>
      obtain ⟨hr, hn, -⟩ := h.not_mem hd hk
      rw [contractAfter_made hd hk]
      split_ifs
      · exact ⟨rfl, rfl⟩
      · simp [classHash, lookup_eq_none.mpr hr, lookup_eq_none.mpr hn, lookup_eq_none.mpr hd,
          nonceOf, classHashOf, hk]

end

/-! ### The invariant -/

variable {diff : StateDiff} {declaredClasses : GoMap Felt ClassDefinition}

/-- The invariant of the contracts: `blockNum` is above every block applied. -/
structure Ledger.ContractsOk (c : Crypto) (L : Ledger) (blockNum : ℕ) : Prop where
  storage_none : ∀ a, L.contracts a = none → ∀ k, L.storage a k = 0
  storage_zero : ∀ k, L.storage 0 k = 0
  storage_inRange : ∀ a k, ¬ InRange k → L.storage a k = 0
  system : ∀ a, isSystemContract a = true → L.contracts a ≠ none →
    mapRoot c.pedersen trieHeight (L.storage a) ≠ 0
  heights : ∀ a k, L.contracts a = some k → k.deployedHeight < blockNum
  nonces : ∀ a, Recorded (L.nonceHistory a) blockNum (L.nonceOf a)
  classHashes : ∀ a, Recorded (L.classHashHistory a) blockNum (L.classHashOf a)
  slots : ∀ a k, Recorded (L.storageHistory a k) blockNum (L.storage a k)

structure Ledger.ClassesOk (L : Ledger) (blockNum : ℕ) : Prop where
  leaves : ∀ hash, L.classLeaves hash ≠ 0 → L.classes hash ≠ none
  declared : ∀ hash dc, L.classes hash = some dc → dc.declaredAt < blockNum

def Ledger.LeavesInRange (L : Ledger) : Prop := ∀ hash, ¬ InRange hash → L.classLeaves hash = 0

theorem recorded_empty : Recorded (fun _ => none) 0 0 := ⟨fun _ _ => rfl, rfl⟩

theorem Ledger.contractsOk_empty : empty.ContractsOk c 0 :=
  ⟨fun _ _ _ => rfl, fun _ => rfl, fun _ _ _ => rfl, fun _ _ h => absurd rfl h,
    fun _ _ h => by simp [empty] at h,
    fun _ => recorded_empty, fun _ => recorded_empty, fun _ _ => recorded_empty⟩

theorem Ledger.classesOk_empty : empty.ClassesOk 0 :=
  ⟨fun _ h => absurd rfl h, fun _ _ h => by simp [empty] at h⟩

theorem updated_classes (c : Crypto) (L : Ledger) (blockNum : ℕ) (diff : StateDiff)
    (declaredClasses : GoMap Felt ClassDefinition) (hash : Felt) :
    (L.updated c blockNum diff declaredClasses).classes hash =
      (L.classes hash).or ((declaredClasses.lookup hash).map (⟨blockNum, ·⟩)) := by
  simp only [updated, writeHistory, write, newClasses, override, lookup_mapVals,
    lookup_filter]
  cases L.classes hash with
  | none | some =>
    cases declaredClasses.lookup hash with
    | none => rfl
    | some d => rfl

/-- A class whose leaf a block changes is declared or migrated by it. -/
theorem updatedLeaves_of_not_mem (c : Crypto) (leaves : Felt → Felt) {hash : Felt}
    (hm : hash ∉ diff.migratedClasses) (hd : hash ∉ diff.declaredV1Classes ∨ hash ∉ declaredClasses) :
    updatedLeaves c leaves diff declaredClasses hash = leaves hash := by
  rw [updatedLeaves, override_of_not_mem (by simpa using hm), override_of_not_mem]
  rw [mem_mapVals, ← lookup_isSome, lookup_filter]
  rcases hd with hd | hd
  · simp [lookup_eq_none.mpr hd]
  · simp [lookup_eq_none.mpr hd]

theorem updatedLeaves_declared (c : Crypto) (leaves : Felt → Felt) {hash casm : Felt}
    (hm : hash ∉ diff.migratedClasses) (hv1 : diff.declaredV1Classes.lookup hash = some casm)
    (hd : hash ∈ declaredClasses) :
    updatedLeaves c leaves diff declaredClasses hash = State.classLeaf c casm := by
  rw [updatedLeaves, override_of_not_mem (by simpa using hm)]
  refine override_of_lookup ?_
  rw [lookup_mapVals, lookup_filter, hv1, filter_some, if_pos (lookup_isSome.mpr hd)]
  rfl

structure Ledger.Follows (c : Crypto) (L : Ledger) (blockNum : ℕ) (diff : StateDiff)
    (L' : Ledger) : Prop where
  contracts : ∀ a, L'.contracts a = L.contractAfter c blockNum diff a
  storage : ∀ a, L'.storage a = L.storageAfter diff a
  nonces : ∀ a, L'.nonceHistory a = log (L.nonceHistory a) blockNum ((diff.nonces.lookup a).map some)
  classHashes : ∀ a, L'.classHashHistory a = log (L.classHashHistory a) blockNum ((diff.classHash a).map some)
  slots : ∀ a k, L'.storageHistory a k = log (L.storageHistory a k) blockNum ((diff.slot a k).map some)

theorem follows_updated (h : L.Regular c blockNum diff) (declaredClasses : GoMap Felt ClassDefinition) :
    L.Follows c blockNum diff (L.updated c blockNum diff declaredClasses) :=
  ⟨commit_contracts_updateObjs h, commit_storage_updateObjs h, fun _ => rfl, fun _ => rfl, fun _ _ => rfl⟩

theorem Ledger.ContractsOk.follows {L' : Ledger} (hok : L.ContractsOk c n) (hn : n ≤ blockNum)
    (h : L.Regular c blockNum diff) (hr : diff.KeysInRange) (hf : L.Follows c blockNum diff L') :
    L'.ContractsOk c (blockNum + 1) := by
  constructor
  case storage_none =>
    intro a ha k
    rw [hf.contracts] at ha
    rw [hf.storage]
    have hd : a ∉ diff.deployedContracts := fun hd => by simp [contractAfter_deployed hd] at ha
    cases hk : L.contracts a with
    | some k => simp [contractAfter_there hd hk] at ha
    | none =>
      by_cases hs : a ∈ diff.storageDiffs
      · have hsys := (h.not_mem hd hk).2.2 hs
        rw [contractAfter_made hd hk] at ha
        refine h.root_zero a hsys (by_contra fun hroot => ?_) k
        simp [hsys, hs, hroot] at ha
      · rw [storageAfter_of_not_mem hs, hok.storage_none a hk]
  case storage_zero =>
    intro k
    rw [hf.storage, storageAfter_of_not_mem hr.zero, hok.storage_zero]
  case storage_inRange =>
    intro a k hk
    rw [hf.storage, storageAfter_of_not_inRange hr hk, hok.storage_inRange a k hk]
  case system =>
    intro a hsys ha
    rw [hf.contracts] at ha
    rw [hf.storage]
    by_cases hd : a ∈ diff.deployedContracts
    · exact h.keeps a hsys (.inr hd) (.inr hd)
    · cases hk : L.contracts a with
      | some k =>
        by_cases hs : a ∈ diff.storageDiffs
        · exact h.keeps a hsys (.inl (by simp [hk])) (.inl (.inr (.inr hs)))
        · rw [storageAfter_of_not_mem hs]
          exact hok.system a hsys (by simp [hk])
      | none =>
        rw [contractAfter_made hd hk] at ha
        intro hroot
        simp [hroot] at ha
  case heights =>
    intro a k ha
    rw [hf.contracts] at ha
    by_cases hd : a ∈ diff.deployedContracts
    · rw [contractAfter_deployed hd, some.injEq] at ha
      subst ha
      exact Nat.lt_succ_self _
    · cases hk : L.contracts a with
      | some k' =>
        rw [contractAfter_there hd hk, some.injEq] at ha
        subst ha
        exact (hok.heights a k' hk).trans_le (by omega)
      | none =>
        rw [contractAfter_made hd hk, ite_none_right_eq_some, some.injEq] at ha
        obtain ⟨-, rfl⟩ := ha
        exact Nat.lt_succ_self _
  case nonces =>
    intro a
    rw [hf.nonces, nonceOf, hf.contracts, (nonceOf_contractAfter h a).1]
    exact (hok.nonces a).log hn (diff.nonces.lookup a)
  case classHashes =>
    intro a
    rw [hf.classHashes, classHashOf, hf.contracts, (nonceOf_contractAfter h a).2]
    exact (hok.classHashes a).log hn (diff.classHash a)
  case slots =>
    intro a k
    rw [hf.slots, hf.storage]
    exact (hok.slots a k).log hn (diff.slot a k)

theorem Ledger.ClassesOk.updated (hok : L.ClassesOk n) (hn : n ≤ blockNum)
    (hmig : ∀ hash ∈ diff.migratedClasses, L.classes hash ≠ none) :
    (L.updated c blockNum diff declaredClasses).ClassesOk (blockNum + 1) := by
  constructor
  case leaves =>
    intro hash hleaf
    rw [updated_classes]
    by_cases hm : hash ∈ diff.migratedClasses
    · obtain ⟨dc, hdc⟩ := ne_none_iff_exists'.mp (hmig hash hm)
      simp [hdc]
    · by_cases hd : hash ∈ declaredClasses
      · obtain ⟨d, hd⟩ := exists_lookup hd
        simp [hd]
      · have hleaf' : L.classLeaves hash ≠ 0 := fun h0 =>
          hleaf ((updatedLeaves_of_not_mem c L.classLeaves hm (.inr hd)).trans h0)
        obtain ⟨dc, hdc⟩ := ne_none_iff_exists'.mp (hok.leaves hash hleaf')
        simp [hdc]
  case declared =>
    intro hash dc hdc
    rw [updated_classes, Option.or_eq_some_iff] at hdc
    rcases hdc with hdc | ⟨-, hdc⟩
    · exact (hok.declared hash dc hdc).trans_le (by omega)
    · obtain ⟨d, -, rfl⟩ := map_eq_some_iff.mp hdc
      exact Nat.lt_succ_self _

theorem Ledger.LeavesInRange.updated (h : L.LeavesInRange) (hr : diff.KeysInRange) :
    (L.updated c blockNum diff declaredClasses).LeavesInRange := by
  intro hash hhash
  have hsame : updatedLeaves c L.classLeaves diff declaredClasses hash = L.classLeaves hash :=
    updatedLeaves_of_not_mem c L.classLeaves (fun hm => hhash (hr.migrated hash hm))
      (.inl fun hd => hhash (hr.declaredV1 hash hd))
  exact hsame.trans (h hash hhash)

end Juno.CoreState
