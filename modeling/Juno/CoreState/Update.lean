import Juno.CoreState.Commit

/-!
# Update and Revert refine the ledger

On the database of a ledger, `Update` succeeds exactly when the ledger accepts the
update, and leaves the database of the updated ledger; `Revert` likewise.

The main results are `update_outcome` and `revert_outcome`.
-/

namespace Juno.CoreState

open Lib Trie2 GoMap Ledger Function Object Option AList

variable {c : Crypto} {L : Ledger}

/-! ### Opening -/

variable {root : Felt}

/-- What a ledger must be like for its tries to be opened at a root. -/
structure Ledger.Opens (c : Crypto) (L : Ledger) (root : Felt) : Prop where
  contracts : NonzeroHashes trieHeight c.pedersen (L.leaf c)
  classes : NonzeroHashes trieHeight c.poseidon L.classLeaves
  storage : ∀ a, NonzeroHashes trieHeight c.pedersen (L.storage a)
  contracts_zero : root = 0 → ∀ a, L.contracts a = none
  classes_zero : root = 0 → ∀ h, L.classLeaves h = 0
  storage_zero : root = 0 → ∀ a k, L.storage a k = 0

/-- A state that was opened on the database of a ledger, and in which contracts were changed. -/
structure Opened (c : Crypto) (L : Ledger) (root : Felt) (s : State) (objs : Objects)
    (leaves : Felt → Felt) : Prop where
  initRoot : s.initRoot = root
  disk : s.disk = L.toDB c
  tracks : Tracks (fun _ => Of) objs s.stateObjects
  contractTrie :
    Holds True trieHeight c.pedersen (some (storeOf trieHeight c.pedersen (L.leaf c))) 0
    s.contractTrie (L.leaf c)
  classTrie :
    Holds True trieHeight c.poseidon (some (storeOf trieHeight c.poseidon L.classLeaves)) 0 s.classTrie leaves

theorem openAt_ok (h : L.Opens c root) (protocolVersion : Option BlockVersion) :
    ∃ s, State.openAt c (L.toDB c) root protocolVersion = (do
        let comm ← L.commitment c protocolVersion
        return (comm, s)) ∧ Opened c L root s (fun _ => none) L.classLeaves := by
  obtain ⟨t₁, ht₁, hold₁⟩ :=
    new_holds True 0 trieHeight_le (represents_storeOf trieHeight c.pedersen (L.leaf c))
    (fun h0 a _ => by rw [leaf, h.contracts_zero h0 a]) fun _ => h.contracts
  obtain ⟨t₂, ht₂, hold₂⟩ :=
    new_holds True 0 trieHeight_le (represents_storeOf trieHeight c.poseidon L.classLeaves)
    (fun h0 a _ => h.classes_zero h0 a) fun _ => h.classes
  obtain ⟨t₁', hhash₁, hold₁'⟩ := fromTrie_hash hold₁
  obtain ⟨t₂', hhash₂, hold₂'⟩ := fromTrie_hash hold₂
  refine ⟨⟨root, L.toDB c, t₁', t₂', ∅⟩, ?_,
    ⟨rfl, rfl, fun a => by rw [lookup_empty]; exact .none, hold₁', hold₂'⟩⟩
  simp only [State.openAt, DB.contractTrie, DB.classTrie, toDB, ht₁, ht₂, ok_bind, hhash₁, hhash₂]
  rfl

theorem verifyComm_outcome (h : L.Opens c root) (comm : Felt) (protocolVersion : Option BlockVersion) :
    Outcome (State.verifyComm c (L.toDB c) root comm protocolVersion)
      (L.commitment c protocolVersion = .ok comm)
      fun s => Opened c L root s (fun _ => none) L.classLeaves := by
  obtain ⟨s, hopen, hs⟩ := openAt_ok h protocolVersion
  rw [State.verifyComm, hopen]
  cases hcomm : L.commitment c protocolVersion with
  | error e => exact .of_error rfl (by simp)
  | ok comm' =>
    simp only [ok_bind, pure_eq_ok, Except.ok.injEq]
    by_cases heq : comm' = comm
    · subst heq
      exact .of_ok (if_neg (not_not_intro rfl)) rfl hs
    · exact .of_error (if_pos heq) heq

/-! ### The class trie -/

variable {objs : Objects} {leaves : Felt → Felt} {diff : StateDiff} {s : State}

theorem Opened.updateTrie_classTrie (h : Opened c L root s objs leaves) {w : GoMap Felt Felt}
    (hw : ∀ k ∈ w, InRange k) :
    ∃ t, updateTrie s.classTrie w.entries = .ok t ∧
      Opened c L root { s with classTrie := t } objs (w.override leaves) := by
  obtain ⟨t, ht, hold⟩ := updateTrie_ok h.classTrie hw
  exact ⟨t, ht, h.initRoot, h.disk, h.tracks, h.contractTrie, hold⟩

theorem updateClassTrie_ok (h : Opened c L root s objs leaves)
    (declaredClasses : GoMap Felt ClassDefinition)
    (hdeclared : ∀ k ∈ diff.declaredV1Classes, InRange k)
    (hmigrated : ∀ k ∈ diff.migratedClasses, InRange k) :
    ∃ s', s.updateClassTrie c diff.declaredV1Classes declaredClasses diff.migratedClasses = .ok s' ∧
      Opened c L root s' objs (updatedLeaves c leaves diff declaredClasses) := by
  obtain ⟨t₁, ht₁, h₁⟩ := h.updateTrie_classTrie
    (w := (diff.declaredV1Classes.filter fun hash _ => (declaredClasses.lookup hash).isSome).mapVals
      fun _ => State.classLeaf c)
    (fun k hk => hdeclared k (mem_of_mem_filter ((mem_mapVals _ _ _).mp hk)))
  obtain ⟨t₂, ht₂, h₂⟩ :=
      h₁.updateTrie_classTrie (w := diff.migratedClasses.mapVals fun _ => State.classLeaf c)
    (fun k hk => hmigrated k ((mem_mapVals _ _ _).mp hk))
  refine ⟨{ s with classTrie := t₂ }, ?_, h₂⟩
  simp only [State.updateClassTrie, ht₁, ok_bind]
  rw [show updateTrie t₁ _ = _ from ht₂]
  rfl

/-! ### State objects -/

variable {a : Felt} {obj : Object} {so : StateObject}

section

variable {root : Felt} {s : State} {objs : Objects} {leaves : Felt → Felt}

theorem Opened.setObject (h : Opened c L root s objs leaves) (a : Felt) {obj : Option Object}
    {so : Option StateObject} (hrel : Option.Rel Of obj so) :
    Opened c L root (s.setObject a so) (update objs a (some obj)) leaves := by
  refine { h with tracks := fun x => ?_ }
  by_cases hx : x = a
  · subst hx
    rw [State.setObject, update_self, lookup_insert]
    exact .some hrel
  · rw [State.setObject, update_of_ne hx, lookup_insert_ne hx]
    exact h.tracks x

theorem Object.of_newStateObject (k : Contract) (storage : Felt → Felt) :
    Of ⟨k, ∅⟩ (newStateObject (k.record c storage)) := ⟨_, rfl⟩

/-- Getting an object: it is found when the ledger has one. -/
theorem getStateObject_spec (h : Opened c L root s objs leaves) (ha : objs a ≠ some none) :
    match L.objectAt objs a with
    | some obj => ∃ so, s.getStateObject a = .ok so ∧ obj.Of so
    | none => s.getStateObject a = .error .keyNotFound := by
  have hrel := h.tracks a
  unfold State.getStateObject objectAt
  generalize objs a = x at hrel ha
  generalize s.stateObjects.lookup a = y at hrel
  rcases hrel with @⟨obj, so, hso⟩ | _
  · rcases hso with @⟨obj, so, hso⟩ | _
    · exact ⟨so, rfl, hso⟩
    · exact absurd rfl ha
  · rw [h.disk]
    simp only [toDB]
    cases L.contracts a with
    | none => rfl
    | some k => exact ⟨_, rfl, of_newStateObject k (L.storage a)⟩

section

variable {α : Type} {make : Felt → Option Object} {make' : Felt → Option StateObject}
  {set : α → Object → Object}
  {set' : α → StateObject → StateObject}

theorem updateObject_outcome (h : Opened c L root s objs leaves) (ha : objs a ≠ some none)
    (hmake : Option.Rel Of (make a) (make' a)) (hset : ∀ x obj so, obj.Of so → (set x obj).Of (set' x so))
    (x : α) :
    Outcome (s.updateObject make' set' a x) (((L.objectAt objs a).or (make a)).isSome = true) fun s' =>
      Opened c L root s' (update objs a (some (((L.objectAt objs a).or (make a)).map (set x)))) leaves := by
  have hspec := getStateObject_spec h ha
  unfold State.updateObject
  cases hat : L.objectAt objs a with
  | some obj =>
    rw [hat] at hspec
    obtain ⟨so, hget, hso⟩ := hspec
    rw [hget, some_or]
    exact .of_ok rfl rfl (h.setObject a (.some (hset x obj so hso)))
  | none =>
    rw [hat] at hspec
    rw [hspec, none_or]
    generalize make a = mk at hmake
    generalize make' a = mk' at hmake
    rcases hmake with @⟨obj, so, hso⟩ | _
    · exact .of_ok rfl rfl (h.setObject a (.some (hset x obj so hso)))
    · exact .of_error rfl (by simp)

/-- **A loop over a part of a diff.** It succeeds when every contract has an object, or gets one. -/
theorem updateObjects_outcome (h : Opened c L root s objs leaves) (hlive : ∀ a, objs a ≠ some none)
    (diff : GoMap Felt α) (hmake : ∀ a, Option.Rel Of (make a) (make' a))
    (hset : ∀ x obj so, obj.Of so → (set x obj).Of (set' x so)) :
    Outcome (s.updateObjects diff make' set') (L.Updatable objs diff make)
      fun s' => Opened c L root s' (L.updateObjects objs diff make set) leaves := by
  refine foldlM_outcome (R := fun s' o => Opened c L root s' o leaves) (fun a ha => by rw [updateObjects, ha])
    (fun s' o a x hs' hx hoa => ?_) h
  have hobj : L.objectAt o a = L.objectAt objs a := by rw [objectAt, objectAt, hoa]
  rw [updateObjects, hx, ← hobj]
  exact updateObject_outcome hs' (by rw [hoa]; exact hlive a) (hmake a) hset x

end

theorem updateObjects_live {α : Type} (hlive : ∀ a, objs a ≠ some none) {diff : GoMap Felt α}
    {make : Felt → Option Object} (set : α → Object → Object) (hU : L.Updatable objs diff make) (a : Felt) :
    L.updateObjects objs diff make set a ≠ some none := by
  rw [updateObjects]
  cases hd : diff.lookup a with
  | none => exact hlive a
  | some x =>
    obtain ⟨obj, hobj⟩ := isSome_iff_exists.mp (hU a (mem_of_lookup hd))
    simp [hobj]

theorem makeSystemContract_rel (blockNum : ℕ) (a : Felt) : Option.Rel Of (makeSystemContract blockNum a)
    (if isSystemContract a then some (newStateObject (newContractDeployed systemContractsClassHash blockNum))
      else none) := by
  unfold makeSystemContract
  split_ifs
  · exact .some ⟨_, rfl⟩
  · exact .none

theorem Object.Of.setClassHash (h : obj.Of so) (x : Felt) :
    (obj.setClassHash x).Of { so with contract := { so.contract with classHash := x } } := by
  obtain ⟨root, rfl⟩ := h
  exact ⟨root, rfl⟩

theorem Object.Of.setNonce (h : obj.Of so) (x : Felt) :
    (obj.setNonce x).Of { so with contract := { so.contract with nonce := x } } := by
  obtain ⟨root, rfl⟩ := h
  exact ⟨root, rfl⟩

theorem Object.Of.setWrites (h : obj.Of so) (x : GoMap Felt Felt) :
    (obj.setWrites x).Of { so with dirtyStorage := x } := by
  obtain ⟨root, rfl⟩ := h
  exact ⟨root, rfl⟩

theorem updateContracts_outcome (h : Opened c L root s objs leaves) (hlive : ∀ a, objs a ≠ some none)
    (blockNum : ℕ) (replacedClasses nonces : GoMap Felt Felt) (storageDiffs : GoMap Felt (GoMap Felt Felt)) :
    Outcome (s.updateContracts blockNum replacedClasses nonces storageDiffs)
      (L.ContractsUpdatable objs blockNum replacedClasses nonces storageDiffs) fun s' =>
        Opened c L root s' (L.updateContracts objs blockNum replacedClasses nonces storageDiffs) leaves := by
  refine Outcome.bind (updateObjects_outcome h hlive replacedClasses (fun _ => .none)
    fun x obj so hso => hso.setClassHash x) fun hU₁ s₁ h₁ => ?_
  have hlive₁ := updateObjects_live hlive setClassHash hU₁
  refine Outcome.bind (updateObjects_outcome h₁ hlive₁ nonces (fun _ => .none)
    fun x obj so hso => hso.setNonce x) fun hU₂ s₂ h₂ => ?_
  have hlive₂ := updateObjects_live hlive₁ setNonce hU₂
  exact updateObjects_outcome h₂ hlive₂ storageDiffs (makeSystemContract_rel blockNum)
    fun x obj so hso => hso.setWrites x

theorem deployContracts_outcome (h : Opened c L root s (fun _ => none) leaves) (blockNum : ℕ)
    (deployed : GoMap Felt Felt) :
    Outcome (s.deployContracts blockNum deployed) (∀ a ∈ deployed, L.contracts a = none) fun s' =>
      Opened c L root s' (deployedObjects blockNum deployed) leaves := by
  refine foldlM_outcome (R := fun s' o => Opened c L root s' o leaves)
    (fun a ha => by rw [deployedObjects, ha]; rfl)
    (fun s' o a x hs' hx _ => ?_) h
  unfold State.deployContract
  rw [hs'.disk, deployedObjects, hx]
  cases ha : L.contracts a with
  | none =>
    refine .of_ok (if_neg ?_) rfl (hs'.setObject a (.some ⟨0, rfl⟩))
    simp [toDB, ha]
  | some k =>
    refine .of_error (if_pos ?_) (by simp)
    simp [toDB, ha]

end

/-! ### Histories -/

section

variable (db : DB) (blockNum : ℕ) (m : GoMap Felt Felt) (entry : Felt → Option Felt)

theorem nonceHistory_loop :
    m.entries.foldl (fun db e => State.setNonceHistory db e.1 blockNum (entry e.2)) db =
      { db with
        nonceHistory := fun a => log (db.nonceHistory a) blockNum ((m.lookup a).map entry) } := by
  refine foldl_writes (R := fun db' h => db' = { db with nonceHistory := h }) (fun a ha => ?_)
    (fun db' h a v hdb' hv ha => ?_) rfl
  · rw [ha]
    rfl
  · subst hdb'
    rw [hv, ← ha]
    rfl

theorem classHashHistory_loop :
    m.entries.foldl (fun db e => State.setClassHashHistory db e.1 blockNum (entry e.2)) db =
      { db with
        classHashHistory := fun a => log (db.classHashHistory a) blockNum ((m.lookup a).map entry) } := by
  refine foldl_writes (R := fun db' h => db' = { db with classHashHistory := h }) (fun a ha => ?_)
    (fun db' h a v hdb' hv ha => ?_) rfl
  · rw [ha]
    rfl
  · subst hdb'
    rw [hv, ← ha]
    rfl

theorem slotHistory_loop (addr : Felt) (m : GoMap Felt Felt) (entry : Felt → Option Felt) :
    m.entries.foldl (fun db w => State.setStorageHistory db addr w.1 blockNum (entry w.2)) db =
      { db with
        storageHistory := update db.storageHistory addr fun key =>
          log (db.storageHistory addr key) blockNum ((m.lookup key).map entry) } := by
  refine foldl_writes (s := db) (f := db.storageHistory addr) (R := fun db' h => db' = { db with
    storageHistory := update db.storageHistory addr h }) (fun a ha => ?_) (fun db' h a v hdb' hv ha => ?_) ?_
  · rw [ha]
    rfl
  · subst hdb'
    simp only [State.setStorageHistory, update_self, update_idem, ha, hv, map_some, log]
  · rw [update_eq_self]

theorem storageHistory_loop (m : GoMap Felt (GoMap Felt Felt)) (entry : Felt → Option Felt) :
    m.entries.foldl (fun db e =>
        e.2.entries.foldl (fun db w => State.setStorageHistory db e.1 w.1 blockNum (entry w.2)) db) db =
      { db with
        storageHistory := fun a key =>
          log (db.storageHistory a key) blockNum (((m.lookup a).bind (·.lookup key)).map entry) } := by
  refine foldl_writes (R := fun db' h => db' = { db with storageHistory := h }) (fun a ha => ?_)
    (fun db' h a w hdb' hw ha => ?_) rfl
  · rw [ha]
    rfl
  · subst hdb'
    rw [slotHistory_loop, hw, ← ha]
    rfl

/-- The loop over the deployed contracts of a diff in `deleteHistory`. -/
theorem deployedHistory_loop : m.entries.foldl (fun db e =>
        State.setClassHashHistory (State.setNonceHistory db e.1 blockNum none) e.1 blockNum none) db =
      { db with
        nonceHistory := fun a => log (db.nonceHistory a) blockNum ((m.lookup a).map fun _ => none)
        classHashHistory :=
          fun a => log (db.classHashHistory a) blockNum ((m.lookup a).map fun _ => none) } := by
  refine foldl_writes (s := db) (f := fun a => (db.nonceHistory a, db.classHashHistory a)) (F := fun a =>
    (log (db.nonceHistory a) blockNum ((m.lookup a).map fun _ => none),
      log (db.classHashHistory a) blockNum ((m.lookup a).map fun _ => none)))
    (R := fun db' h => db' = { db with
      nonceHistory := Prod.fst ∘ h
      classHashHistory := Prod.snd ∘ h }) (fun a ha => by rw [ha]; rfl) (fun db' h a v hdb' hv ha => ?_) rfl
  subst hdb'
  simp only [comp_update, State.setClassHashHistory, State.setNonceHistory, comp_apply, ha, hv, map_some, log]

theorem log_log (h : ℕ → Option Felt) (x y : Option (Option Felt)) :
    log (log h blockNum x) blockNum y = log h blockNum (y.or x) := by
  cases y with
  | none => rfl
  | some y =>
    cases x with
    | none => rfl
    | some x => exact update_idem _ _ _

end

theorem writeHistory_toDB (L : Ledger) (blockNum : ℕ) (diff : StateDiff) :
    State.writeHistory (L.toDB c) blockNum diff = (L.writeHistory blockNum diff).toDB c := by
  simp only [State.writeHistory, storageHistory_loop _ _ _ some, nonceHistory_loop _ _ _ some,
    classHashHistory_loop _ _ _ some, log_log, ← map_or]
  rfl

theorem deleteHistory_toDB (L : Ledger) (blockNum : ℕ) (diff : StateDiff) :
    State.deleteHistory (L.toDB c) blockNum diff = (L.deleteHistory blockNum diff).toDB c := by
  have hor : ∀ x y : Option Felt, (x.map fun _ => (none : Option Felt)).or (y.map fun _ => none) =
      (y.or x).map fun _ => none := by
    intro x y
    cases x with
    | none | some => cases y with | none => rfl | some y => rfl
  simp only [State.deleteHistory, storageHistory_loop _ _ _ fun _ => none, nonceHistory_loop _ _ _
    fun _ => none,
    classHashHistory_loop _ _ _ fun _ => none, deployedHistory_loop, log_log, hor]
  rfl

/-! ### The classes in `Revert` -/

variable {blockNum : ℕ} {hash : Felt} {W : Type}

section

variable {root : Felt} {s : State} {objs : Objects} {leaves : Felt → Felt}

theorem Opened.update_classTrie (h : Opened c L root s objs leaves) {k : Felt} (hk : InRange k) (v : Felt) :
    ∃ t, fromTrie (s.classTrie.update k v) = .ok ((), t) ∧
      Opened c L root { s with classTrie := t } objs (update leaves k v) := by
  obtain ⟨t, ht, hold⟩ := fromTrie_update h.classTrie hk v
  exact ⟨t, ht, h.initRoot, h.disk, h.tracks, h.contractTrie, hold⟩

/-- A function, after the classes visited that satisfy a condition were written. -/
def visitedWrite (p : Felt → Bool) (x : W) (f : Felt → W) (visited : List Felt) : Felt → W := fun hash =>
  if hash ∈ visited ∧ p hash = true then x else f hash

theorem visitedWrite_append (p : Felt → Bool) (x : W) (f : Felt → W) (visited : List Felt)
    (hash : Felt) : visitedWrite p x f (visited ++ [hash]) =
      if p hash then update (visitedWrite p x f visited) hash x else visitedWrite p x f visited := by
  funext h
  by_cases hh : h = hash
  · subst hh
    cases hp : p h <;> simp [visitedWrite, hp]
  · cases p hash <;> simp [visitedWrite, hh]

/-- What the loop over the declared classes has done. -/
def ClassesReverted (c : Crypto) (L : Ledger) (root : Felt) (objs : Objects) (blockNum : ℕ)
    (r : State × GoMap Felt (Option ClassDefinition)) (visited : List Felt) : Prop :=
  Opened c L root r.1 objs
      (visitedWrite (fun hash => L.declaredAt blockNum hash && L.isSierra hash) 0 L.classLeaves visited) ∧
    (fun hash => r.2.lookup hash) = visitedWrite (L.declaredAt blockNum) (some none) (fun _ => none) visited

theorem revertClass_outcome {dirty : GoMap Felt (Option ClassDefinition)} {visited : List Felt}
    (h : ClassesReverted c L root objs blockNum (s, dirty) visited) (hin : InRange hash) :
    Outcome (State.revertClass blockNum s dirty hash) (L.classes hash ≠ none)
      fun r => ClassesReverted c L root objs blockNum r (visited ++ [hash]) := by
  obtain ⟨hs, hdirty⟩ := h
  have hs' : Opened c L root s objs _ := hs
  have hdisk : s.disk.classes hash = L.classes hash := by
    rw [hs'.disk]
    rfl
  unfold State.revertClass
  rw [hdisk]
  cases hcls' : L.classes hash with
  | none => exact .of_error rfl (by simp)
  | some dc =>
    have hsome : some dc ≠ none := by simp
    by_cases hat : dc.declaredAt = blockNum
    · have hdec : L.declaredAt blockNum hash = true := by simp [declaredAt, hcls', hat]
      have hins : (fun h => (dirty.insert hash none).lookup h) =
          visitedWrite (L.declaredAt blockNum) (some none) (fun _ => none) (visited ++ [hash]) := by
        rw [visitedWrite_append, if_pos hdec, lookup_insert_eq]
        exact congrArg (update · hash (some none)) hdirty
      by_cases hsierra : dc.definition.isSierra
      · obtain ⟨t, ht, hopened⟩ := hs'.update_classTrie hin 0
        refine .of_ok (a := ({ s with classTrie := t }, dirty.insert hash none)) ?_ hsome ⟨?_, hins⟩
        · simp only [hat, ne_eq, not_true_eq_false, if_false, hsierra, if_true, ht, ok_bind]
          rfl
        · rw [visitedWrite_append, if_pos (by simp [hdec, isSierra, hcls', hsierra])]
          exact hopened
      · refine .of_ok (a := (s, dirty.insert hash none)) ?_ hsome ⟨?_, hins⟩
        · simp only [hat, ne_eq, not_true_eq_false, if_false, hsierra]
          rfl
        · rw [visitedWrite_append, if_neg (by simp [isSierra, hcls', hsierra])]
          exact hs
    · have hdec : L.declaredAt blockNum hash = false := by simp [declaredAt, hcls', hat]
      refine .of_ok (a := (s, dirty)) (if_pos hat) hsome ⟨?_, ?_⟩
      · rw [visitedWrite_append, if_neg (by simp [hdec])]
        exact hs
      · rw [visitedWrite_append, if_neg (by simp [hdec])]
        exact hdirty

theorem revertClasses_outcome (h : Opened c L root s objs L.classLeaves) (blockNum : ℕ) {hashes : List Felt}
    (hin : ∀ hash ∈ hashes, InRange hash) :
    Outcome (s.revertClasses blockNum hashes) (∀ hash ∈ hashes, L.classes hash ≠ none)
      fun r => ClassesReverted c L root objs blockNum r hashes := by
  have hstart : ClassesReverted c L root objs blockNum (s, ∅) [] := by
    constructor
    · have : visitedWrite (fun hash => L.declaredAt blockNum hash && L.isSierra hash) 0 L.classLeaves [] =
          L.classLeaves := by
        funext hash
        simp [visitedWrite]
      rw [this]
      exact h
    · funext hash
      simp [visitedWrite]
  exact Outcome.foldlM (R := fun r visited => ClassesReverted c L root objs blockNum r visited)
    (fun r visited hash hmem hr => revertClass_outcome hr (hin hash hmem)) hstart

theorem revertMigrated_outcome (h : Opened c L root s objs leaves) {migratedClasses : GoMap Felt Felt}
    (hin : ∀ hash ∈ migratedClasses, InRange hash) :
    Outcome (s.revertMigrated c migratedClasses) (∀ hash ∈ migratedClasses, L.unmigratedLeaf c hash ≠ none)
      fun s' =>
      Opened c L root s' objs
        ((migratedClasses.mapVals fun hash _ => (L.unmigratedLeaf c hash).getD 0).override leaves) := by
  refine foldlM_outcome (R := fun s' leaves => Opened c L root s' objs leaves) (fun hash hnone => ?_)
    (fun s' leaves' hash x hs' hk _ => ?_) h
  · rw [override, lookup_mapVals, hnone]
    rfl
  have hdisk : s'.disk.casmMetadata hash = L.casmMetadata hash := by
    rw [hs'.disk]
    rfl
  rw [override, lookup_mapVals, hk]
  unfold State.revertMigratedClass unmigratedLeaf
  rw [hdisk]
  cases hmeta' : L.casmMetadata hash with
  | none => exact .of_error rfl (by simp)
  | some metadata =>
    cases hun : metadata.unmigrate with
    | error e =>
      simp only [hun]
      exact .of_error rfl (by simp)
    | ok metadata' =>
      obtain ⟨t, ht, hopened⟩ := hs'.update_classTrie (hin hash (mem_of_lookup hk))
        (State.classLeaf c metadata'.casmHash)
      simp only [hun, ht, ok_bind, map_some]
      exact .of_ok rfl (by simp) hopened

end

/-! ### Update -/

variable {storageDiffs : GoMap Felt (GoMap Felt Felt)}

/-- The storage writes of the objects after a diff are those of the diff. -/
theorem updateContracts_writes {replacedClasses nonces : GoMap Felt Felt}
    (hU : L.ContractsUpdatable objs blockNum replacedClasses nonces storageDiffs)
    (hbase : ∀ a obj, objs a = some (some obj) → obj.writes = ∅)
    (ha : L.updateContracts objs blockNum replacedClasses nonces storageDiffs a = some (some obj)) :
    obj.writes = (storageDiffs.lookup a).getD ∅ := by
  obtain ⟨-, -, hsto, heq⟩ | ⟨obj', hobj, -, heq⟩ | ⟨writes, -, -, -, hw, -, heq⟩ :=
    updateContracts_cases hU a
  · rw [heq] at ha
    rw [lookup_eq_none.mpr hsto, hbase a obj ha]
    rfl
  · rw [heq, some.injEq, some.injEq] at ha
    have hwrites : obj'.writes = ∅ := by
      unfold objectAt at hobj
      cases hoa : objs a with
      | some o =>
        rw [hoa] at hobj
        exact hbase a obj' (hoa.trans (congrArg some hobj))
      | none =>
        simp only [hoa, map_eq_some_iff] at hobj
        obtain ⟨k, -, rfl⟩ := hobj
        rfl
    rw [← ha, change, hwrites]
  · rw [heq, some.injEq, some.injEq] at ha
    rw [← ha, hw]
    rfl

theorem Opened.committable (h : Opened c L root s objs leaves) (hopen : L.Opens c root)
    (hzero : ∀ k, L.storage 0 k = 0) (haddr : ∀ a, objs a ≠ none → InRange a)
    (hwrites : ∀ a obj, objs a = some (some obj) → obj.writes = (storageDiffs.lookup a).getD ∅)
    (hslots : ∀ a writes, storageDiffs.lookup a = some writes → ∀ k ∈ writes, InRange k)
    (h0 : 0 ∉ storageDiffs) : Committable c L s objs leaves := by
  refine ⟨h.disk, h.tracks, haddr,
    fun a obj hobj => ⟨fun k hk => ?_, hopen.storage a, fun hr => ?_, fun ha => ?_⟩, hzero,
    h.contractTrie, h.classTrie⟩
  · rw [hwrites a obj hobj] at hk
    cases hsto : storageDiffs.lookup a with
    | none =>
      rw [hsto] at hk
      exact absurd hk (notMem_empty k)
    | some w =>
      rw [hsto] at hk
      exact hslots a w hsto k hk
  · rw [h.initRoot] at hr
    exact fun k _ => hopen.storage_zero hr a k
  · subst ha
    rw [hwrites 0 obj hobj, lookup_eq_none.mpr h0]
    rfl

variable {deployed : GoMap Felt Felt}

theorem deployedObjects_writes (h : deployedObjects blockNum deployed a = some (some obj)) :
    obj.writes = ∅ := by
  simp only [deployedObjects, map_eq_some_iff, some.injEq] at h
  obtain ⟨x, -, rfl⟩ := h
  rfl

theorem deployedObjects_live (a : Felt) : deployedObjects blockNum deployed a ≠ some none := by
  simp [deployedObjects]

theorem updateObjs_inRange (hr : diff.KeysInRange)
    (hU : L.ContractsUpdatable (deployedObjects blockNum diff.deployedContracts) blockNum diff.replacedClasses
      diff.nonces diff.storageDiffs)
    (ha : L.updateObjs blockNum diff a ≠ none) : InRange a := by
  obtain ⟨-, -, -, heq⟩ | ⟨obj, -, htouch, -⟩ | ⟨writes, -, -, -, hw, -, -⟩ := updateContracts_cases hU a
  · refine hr.deployed a (Classical.byContradiction fun hd => ha ?_)
    rw [updateObjs, heq, deployedObjects, lookup_eq_none.mpr hd]
    rfl
  · exact hr.touched a htouch
  · exact hr.touched a (.inr (.inr (mem_of_lookup hw)))

/-- **`Update` refines the ledger**: it succeeds exactly when the ledger accepts the update, and leaves the
database of the updated ledger. -/
theorem update_outcome (hopen : L.Opens c root) (hzero : ∀ k, L.storage 0 k = 0) (header : Header)
    (update : StateUpdate) (declaredClasses : GoMap Felt ClassDefinition) (skipVerifyNewRoot : Bool)
    (hr : update.stateDiff.KeysInRange) :
    Outcome (State.update c (L.toDB c) root header update declaredClasses skipVerifyNewRoot)
      (L.Accepts c header update declaredClasses skipVerifyNewRoot)
      (· = (L.updated c header.number update.stateDiff declaredClasses).toDB c) := by
  refine Outcome.congr (C := _ ∧ _ ∧ _ ∧ _) ?_
    ⟨fun h => ⟨h.1, h.2.1, h.2.2.1, h.2.2.2⟩, fun h => ⟨h.oldRoot, h.deployed, h.updatable, h.newRoot⟩⟩
  refine (verifyComm_outcome hopen update.oldRoot header.protocolVersion).bind fun _ s hs => ?_
  obtain ⟨s₁, hs₁, h₁⟩ := updateClassTrie_ok hs declaredClasses hr.declaredV1 hr.migrated
  refine Outcome.bind_ok hs₁ ?_
  refine (deployContracts_outcome h₁ header.number update.stateDiff.deployedContracts).bind fun _ s₂ h₂ => ?_
  refine (updateContracts_outcome h₂ deployedObjects_live header.number _ _ _).bind fun hU s₃ h₃ => ?_
  have hcom : Committable c L s₃ (L.updateObjs header.number update.stateDiff) _ :=
    h₃.committable hopen hzero (fun a ha => updateObjs_inRange hr hU ha)
      (fun a obj hobj => updateContracts_writes hU (fun a obj => deployedObjects_writes) hobj)
        hr.slots hr.zero
  obtain ⟨nodes, s', hcommit, hflush⟩ :=
    commit_flush hcom header.protocolVersion header.number (L.newClasses declaredClasses)
  rw [hcommit]
  cases hcomm : (L.write c (L.updateObjs header.number update.stateDiff)
      (updatedLeaves c L.classLeaves update.stateDiff declaredClasses) header.number
      (L.newClasses declaredClasses)).commitment c header.protocolVersion with
  | error e => exact .of_error rfl fun ⟨newComm, hnew, _⟩ => absurd (hcomm.symm.trans hnew) (by simp)
  | ok newComm =>
    have hupdated :
      (L.updated c header.number update.stateDiff declaredClasses).commitment c header.protocolVersion =
        .ok newComm := hcomm
    simp only [ok_bind, pure_eq_ok]
    split_ifs with hne
    · refine .of_error rfl fun ⟨newComm', hnew, hroot⟩ => ?_
      obtain rfl := Except.ok.inj (hupdated.symm.trans hnew)
      simp only [Bool.and_eq_true, Bool.not_eq_true', bne_iff_ne, ne_eq] at hne
      exact hne.2 (hroot hne.1)
    · refine .of_ok rfl ⟨newComm, hupdated, fun hskip => ?_⟩ ?_
      · by_contra hroot
        exact hne (by simp [hskip, hroot])
      · rw [updated, ← writeHistory_toDB, ← hflush]
        rfl

/-! ### Revert -/

theorem removeDeployed_opened (h : Opened c L root s objs leaves) (deployed : GoMap Felt Felt) :
    Opened c L root (s.removeDeployed deployed) (fun a => if a ∈ deployed then some none else objs a)
      leaves := by
  refine foldl_writes (R := fun s' o => Opened c L root s' o leaves)
    (fun a ha => if_neg (lookup_eq_none.mp ha))
    (fun s' o a _ hs' ha _ => ?_) h
  rw [if_pos (mem_of_lookup ha)]
  exact hs'.setObject a .none

theorem revertObjs_inRange (hr : diff.KeysInRange)
    (hU : L.ContractsUpdatable (fun _ => none) blockNum (L.reverseClasses blockNum diff)
      (L.reverseNonces blockNum diff) (L.reverseStorage blockNum diff))
    (ha : L.revertObjs blockNum diff a ≠ none) : InRange a := by
  by_cases hd : a ∈ diff.deployedContracts
  · exact hr.deployed a hd
  · rw [revertObjs, if_neg hd] at ha
    obtain ⟨-, -, -, heq⟩ | ⟨obj, -, htouch, -⟩ | ⟨writes, -, -, -, hw, -, -⟩ := updateContracts_cases hU a
    · exact absurd heq ha
    · simp only [mem_reverseClasses, mem_reverseNonces, mem_reverseStorage] at htouch
      exact hr.touched a htouch
    · exact hr.touched a (.inr (.inr (L.mem_reverseStorage.mp (mem_of_lookup hw))))

theorem declaredHashes_inRange (hr : diff.KeysInRange) (h : hash ∈ declaredHashes diff) : InRange hash := by
  rcases List.mem_append.mp h with h₀ | h₁
  · exact hr.declaredV0 hash h₀
  · exact hr.declaredV1 hash (mem_keys.mpr h₁)

/-- **`Revert` refines the ledger**: it succeeds exactly when the ledger can be reverted, and leaves the
database of the reverted ledger. -/
theorem revert_outcome (hopen : L.Opens c root) (hzero : ∀ k, L.storage 0 k = 0) (header : Header)
    (update : StateUpdate) (hr : update.stateDiff.KeysInRange) :
    Outcome (State.revert c (L.toDB c) root header update) (L.Reverts c header update)
      (· = (L.reverted c header.number update.stateDiff).toDB c) := by
  refine Outcome.congr (C := _ ∧ _ ∧ _ ∧ _ ∧ _) ?_
    ⟨fun h => ⟨h.1, h.2.1, h.2.2.1, h.2.2.2.1, h.2.2.2.2⟩,
      fun h => ⟨h.newRoot, h.classes, h.migrated, h.updatable, h.oldRoot⟩⟩
  refine (verifyComm_outcome hopen update.newRoot header.protocolVersion).bind fun _ s hs => ?_
  refine (revertClasses_outcome hs header.number fun hash hmem => declaredHashes_inRange hr hmem).bind
    fun _ r hr₁ => ?_
  obtain ⟨s₁, dirty⟩ := r
  obtain ⟨h₁, hdirty⟩ := hr₁
  refine (revertMigrated_outcome h₁ hr.migrated).bind fun _ s₂ h₂ => ?_
  refine (updateContracts_outcome h₂ (by simp) header.number _ _ _).bind fun hU s₃ h₃ => ?_
  have h₄ := removeDeployed_opened h₃ update.stateDiff.deployedContracts
  have hslots : ∀ a writes, (L.reverseStorage header.number update.stateDiff).lookup a = some writes →
      ∀ k ∈ writes, InRange k := by
    intro a writes hw k hk
    rw [reverseStorage, lookup_mapVals, map_eq_some_iff] at hw
    obtain ⟨w, hw, rfl⟩ := hw
    exact hr.slots a w hw k ((mem_mapVals _ _ _).mp hk)
  have hcom :
    Committable c L (s₃.removeDeployed update.stateDiff.deployedContracts)
    (L.revertObjs header.number update.stateDiff)
      (L.revertedLeaves c header.number update.stateDiff) := by
    refine h₄.committable hopen hzero
      (fun a ha => ?_) (fun a obj hobj => ?_) hslots ?_
    · exact revertObjs_inRange hr hU ha
    · by_cases hd : a ∈ update.stateDiff.deployedContracts
      · simp [hd] at hobj
      · rw [if_neg hd] at hobj
        exact updateContracts_writes hU (by simp) hobj
    · exact fun h => hr.zero (L.mem_reverseStorage.mp h)
  obtain ⟨nodes, s', hcommit, hflush⟩ := commit_flush hcom header.protocolVersion header.number dirty
  have hclasses : (dirty.mapVals fun _ cls => cls.map (⟨header.number, ·⟩)).override L.classes = fun hash =>
      if hash ∈ declaredHashes update.stateDiff ∧ L.declaredAt header.number hash = true then none
        else L.classes hash := by
    funext hash
    have hlookup : dirty.lookup hash = if hash ∈ declaredHashes update.stateDiff ∧
      L.declaredAt header.number hash = true
      then some none else none := congrFun hdirty hash
    rw [override, lookup_mapVals, hlookup]
    by_cases hp : hash ∈ declaredHashes update.stateDiff ∧ L.declaredAt header.number hash = true
    · rw [if_pos hp, if_pos hp]
      rfl
    · rw [if_neg hp, if_neg hp]
      rfl
  have hwrite :
    (L.write c (L.revertObjs header.number update.stateDiff)
    (L.revertedLeaves c header.number update.stateDiff)
      header.number dirty).deleteHistory header.number update.stateDiff =
        L.reverted c header.number update.stateDiff := by
    rw [write, hclasses, reverted]
  dsimp only
  rw [hcommit]
  cases hcomm :
    (L.write c (L.revertObjs header.number update.stateDiff)
    (L.revertedLeaves c header.number update.stateDiff)
      header.number dirty).commitment c header.protocolVersion with
  | error e =>
    rw [← hwrite]
    exact .of_error rfl fun hold => absurd (hcomm.symm.trans hold) (by simp)
  | ok newComm =>
    have hreverted : (L.reverted c header.number update.stateDiff).commitment c header.protocolVersion =
        .ok newComm := by
      rw [← hwrite]
      exact hcomm
    simp only [ok_bind, pure_eq_ok]
    by_cases hroot : newComm = update.oldRoot
    · subst hroot
      refine .of_ok (if_neg (not_not_intro rfl)) hreverted ?_
      rw [← hwrite, ← deleteHistory_toDB, ← hflush]
    · refine .of_error (if_pos hroot) fun hold => hroot ?_
      exact Except.ok.inj (hreverted.symm.trans hold)

end Juno.CoreState
