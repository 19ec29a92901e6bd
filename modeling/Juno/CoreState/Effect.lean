import Juno.CoreState.Reachable

/-!
# What a block leaves in the rows

`Update` of a block that is accepted, on **any** database: which contracts have a record
afterwards, which class definitions are stored, and what the histories are. None of
this depends on the tries, a system contract apart, which is deleted when its storage
root is zero.

## What is proved

* `Block.apply_effect` — **what a block leaves**.
-/

namespace Juno.CoreState

open Lib Trie2 State Option GoMap

variable {c : Crypto} {db : DB} {blockNum : ℕ} {touched : Felt → Prop} {s s' : State}
  {protocolVersion : Option BlockVersion} {α : Type}

/-! ### Contracts that are being changed -/

/-- The deployment height of a contract that is being changed. -/
def HeightOf (db : DB) (blockNum : ℕ) (a : Felt) (height : ℕ) : Prop :=
  height = blockNum ∨ ∃ k, db.contracts a = some k ∧ k.deployedHeight = height

/-- **The contracts that are being changed** are those that were touched; only a system contract is to be
deleted. -/
structure Changing (db : DB) (blockNum : ℕ) (touched : Felt → Prop) (s : State) : Prop where
  disk : s.disk = db
  keys : ∀ a, s.stateObjects.lookup a ≠ none ↔ touched a
  deleted : ∀ a, s.stateObjects.lookup a = some none → isSystemContract a = true
  /-- A contract keeps its height; a new one has that of the block. -/
  height : ∀ a obj, s.stateObjects.lookup a = some (some obj) →
    HeightOf db blockNum a obj.contract.deployedHeight

namespace Changing

theorem congr {touched' : Felt → Prop} (h : Changing db blockNum touched s)
    (hiff : ∀ a, touched a ↔ touched' a) : Changing db blockNum touched' s :=
  ⟨h.disk, fun a => (h.keys a).trans (hiff a), h.deleted, h.height⟩

variable {obj : Option StateObject} {a : Felt}

theorem setObject (h : Changing db blockNum touched s) (hdeleted : obj = none → isSystemContract a = true)
    (hheight : ∀ o, obj = some o → HeightOf db blockNum a o.contract.deployedHeight) :
    Changing db blockNum (fun x => x = a ∨ touched x) (s.setObject a obj) := by
  have hlook : ∀ x, (s.setObject a obj).stateObjects.lookup x = if x = a then some obj
      else s.stateObjects.lookup x :=
    fun x => (congrFun (lookup_insert_eq _ a obj) x).trans (Function.update_apply _ _ _ _)
  refine ⟨h.disk, fun x => ?_, fun x hx => ?_, fun x o hx => ?_⟩
  · rw [hlook]
    split_ifs with hxa
    · simp [hxa]
    · simp [hxa, h.keys x]
  · rw [hlook] at hx
    split_ifs at hx with hxa
    · exact hxa ▸ hdeleted (some.inj hx)
    · exact h.deleted x hx
  · rw [hlook] at hx
    split_ifs at hx with hxa
    · exact hxa ▸ hheight o (some.inj hx)
    · exact h.height x o hx

/-- A loop that touches the keys of a list; `P` is what a key needs that was not touched before. -/
theorem foldlM {l : List (Σ _ : Felt, α)} (hl : l.NodupKeys)
    {step : State → (Σ _ : Felt, α) → Except StateError State} {P : Felt → Prop}
    (hstep : ∀ touched s e s', Changing db blockNum touched s → step s e = .ok s' →
      Changing db blockNum (fun x => x = e.1 ∨ touched x) s' ∧ (touched e.1 ∨ P e.1))
    (h : Changing db blockNum touched s) (hok : l.foldlM step s = .ok s') :
    Changing db blockNum (fun x => x ∈ l.keys ∨ touched x) s' ∧ ∀ a ∈ l.keys, touched a ∨ P a := by
  induction l generalizing touched s with
  | nil =>
    cases hok
    exact ⟨h.congr fun a => by simp, fun a ha => by cases ha⟩
  | cons e l ih =>
    rw [List.nodupKeys_cons] at hl
    rw [List.foldlM_cons] at hok
    obtain ⟨s₁, hs₁, hok⟩ := bind_eq_ok.mp hok
    obtain ⟨h₁, hneed⟩ := hstep touched s e s₁ h hs₁
    obtain ⟨h', hneeds⟩ := ih hl.2 h₁ hok
    refine ⟨h'.congr fun a => ?_, fun a ha => ?_⟩
    · rw [List.keys_cons, List.mem_cons]
      tauto
    · rw [List.keys_cons, List.mem_cons] at ha
      rcases ha with rfl | ha
      · exact hneed
      · rcases hneeds a ha with (rfl | htouched) | hP
        · exact absurd ha hl.1
        · exact .inl htouched
        · exact .inr hP

theorem keys_entries (m : GoMap Felt α) (a : Felt) : a ∈ m.entries.keys ↔ a ∈ m := Iff.rfl

theorem deployContracts (h : Changing db blockNum (fun _ => False) s) {deployed : GoMap Felt Felt}
    (hok : s.deployContracts blockNum deployed = .ok s') :
    Changing db blockNum (· ∈ deployed) s' ∧ ∀ a ∈ deployed, db.contracts a = none := by
  have hstep : ∀ touched s (e : Σ _ : Felt, Felt) s', Changing db blockNum touched s →
      s.deployContract blockNum e.1 e.2 = .ok s' →
      Changing db blockNum (fun x => x = e.1 ∨ touched x) s' ∧ (touched e.1 ∨ db.contracts e.1 = none) := by
    intro touched s e s' h hok
    rw [deployContract, h.disk] at hok
    split_ifs at hok with hsome
    cases hok
    refine ⟨h.setObject (fun hnone => by cases hnone) fun o ho => ?_, .inr ?_⟩
    · cases ho
      exact .inl rfl
    · rwa [isSome_iff_ne_none, not_not] at hsome
  obtain ⟨h', hneeds⟩ := h.foldlM (P := fun a => db.contracts a = none) deployed.nodupKeys hstep hok
  refine ⟨h'.congr fun a => ?_, fun a ha => ?_⟩
  · rw [keys_entries]
    simp
  · exact (hneeds a ha).resolve_left fun hf => hf

section

variable (h : Changing db blockNum touched s)
include h

theorem getStateObject {obj : StateObject} (hok : s.getStateObject a = .ok obj) :
    HeightOf db blockNum a obj.contract.deployedHeight ∧ (touched a ∨ db.contracts a ≠ none) := by
  rw [State.getStateObject] at hok
  cases hlook : s.stateObjects.lookup a with
  | none =>
    rw [hlook, h.disk] at hok
    cases hk : db.contracts a with
    | none =>
      rw [hk] at hok
      cases hok
    | some k =>
      rw [hk] at hok
      cases hok
      exact ⟨.inr ⟨k, hk, rfl⟩, .inr (some_ne_none k)⟩
  | some o =>
    rw [hlook] at hok
    cases o with
    | none => cases hok
    | some o =>
      cases hok
      refine ⟨h.height a obj hlook, .inl ((h.keys a).mp ?_)⟩
      rw [hlook]
      exact some_ne_none _

theorem updateObjects {diff : GoMap Felt α} {make : Felt → Option StateObject}
    {set : α → StateObject → StateObject}
    (hset : ∀ x obj, (set x obj).contract.deployedHeight = obj.contract.deployedHeight)
    (hmake : ∀ a obj, make a = some obj → obj.contract.deployedHeight = blockNum)
    (hok : s.updateObjects diff make set = .ok s') :
    Changing db blockNum (fun a => a ∈ diff ∨ touched a) s' ∧
      ∀ a ∈ diff, touched a ∨ (db.contracts a ≠ none ∨ make a ≠ none) := by
  have hstep : ∀ touched s (e : Σ _ : Felt, α) s', Changing db blockNum touched s →
      s.updateObject make set e.1 e.2 = .ok s' →
      Changing db blockNum (fun x => x = e.1 ∨ touched x) s' ∧
        (touched e.1 ∨ (db.contracts e.1 ≠ none ∨ make e.1 ≠ none)) := by
    intro touched s e s' h hok
    have hdone : ∀ obj, HeightOf db blockNum e.1 obj.contract.deployedHeight →
        Changing db blockNum (fun x => x = e.1 ∨ touched x) (s.setObject e.1 (some (set e.2 obj))) := by
      intro obj hobj
      refine h.setObject (fun hnone => by cases hnone) fun o ho => ?_
      cases ho
      rw [hset]
      exact hobj
    rw [updateObject] at hok
    cases hget : s.getStateObject e.1 with
    | ok obj =>
      rw [hget] at hok
      cases hok
      obtain ⟨hheight, hthere⟩ := h.getStateObject hget
      exact ⟨hdone obj hheight, hthere.imp_right .inl⟩
    | error err =>
      rw [hget] at hok
      simp only at hok
      split at hok
      · rename_i obj hobj
        cases hok
        exact ⟨hdone obj (.inl (hmake e.1 obj hobj)), .inr (.inr (by rw [hobj]; exact some_ne_none _))⟩
      · cases hok
  exact h.foldlM (P := fun a => db.contracts a ≠ none ∨ make a ≠ none) diff.nodupKeys hstep hok

/-- What `updateContracts` touches, and what it needs of a contract that is not a system contract. -/
theorem updateContracts {replacedClasses nonces : GoMap Felt Felt}
    {storageDiffs : GoMap Felt (GoMap Felt Felt)}
    (hok : s.updateContracts blockNum replacedClasses nonces storageDiffs = .ok s') :
    Changing db blockNum (fun a => (a ∈ replacedClasses ∨ a ∈ nonces ∨ a ∈ storageDiffs) ∨ touched a) s' ∧
      ∀ a, isSystemContract a = false → (a ∈ replacedClasses ∨ a ∈ nonces ∨ a ∈ storageDiffs) →
        touched a ∨ db.contracts a ≠ none := by
  rw [State.updateContracts] at hok
  obtain ⟨s₁, hs₁, hok⟩ := bind_eq_ok.mp hok
  obtain ⟨s₂, hs₂, hs₃⟩ := bind_eq_ok.mp hok
  have hnever : ∀ (a : Felt) (obj : StateObject), (none : Option StateObject) = some obj →
      obj.contract.deployedHeight = blockNum :=
    fun _ _ hnone => by cases hnone
  obtain ⟨h₁, hneed₁⟩ := h.updateObjects (by intro _ _; rfl) hnever hs₁
  obtain ⟨h₂, hneed₂⟩ := h₁.updateObjects (by intro _ _; rfl) hnever hs₂
  obtain ⟨h₃, hneed₃⟩ := h₂.updateObjects (by intro _ _; rfl) (by
    intro a obj hobj
    split_ifs at hobj
    cases hobj
    rfl) hs₃
  have hrep : ∀ a ∈ replacedClasses, touched a ∨ db.contracts a ≠ none := fun a ha =>
    (hneed₁ a ha).imp_right fun hor => hor.resolve_right fun hne => hne rfl
  have hnonce : ∀ a ∈ nonces, touched a ∨ db.contracts a ≠ none := by
    intro a ha
    rcases hneed₂ a ha with (hmem | htouched) | hor
    · exact hrep a hmem
    · exact .inl htouched
    · exact .inr (hor.resolve_right fun hne => hne rfl)
  refine ⟨h₃.congr fun a => by tauto, fun a hsys ha => ?_⟩
  rcases ha with ha | ha | ha
  · exact hrep a ha
  · exact hnonce a ha
  · rcases hneed₃ a ha with (hmem | hmem | htouched) | hthere | hmake
    · exact hnonce a hmem
    · exact hrep a hmem
    · exact .inl htouched
    · exact .inr hthere
    · rw [hsys] at hmake
      exact absurd rfl hmake

/-- An object that is set in place of another of the same contract. -/
theorem replaceObject (ha : touched a) (hdeleted : obj = none → isSystemContract a = true)
    (hheight : ∀ o, obj = some o → HeightOf db blockNum a o.contract.deployedHeight) :
    Changing db blockNum touched (s.setObject a obj) := by
  refine (h.setObject hdeleted hheight).congr fun x => ⟨fun hx => ?_, .inr⟩
  rcases hx with rfl | hx
  · exact ha
  · exact hx

theorem withContractTrie (t : Trie) : Changing db blockNum touched { s with contractTrie := t } := { h with }

theorem withClassTrie (t : Trie) : Changing db blockNum touched { s with classTrie := t } := { h with }

end

theorem commit_height {obj : StateObject} {r : Option NodeSet × StateObject} {initRoot : Felt}
    (hok : obj.commit c db initRoot a = .ok r) :
    r.2.contract.deployedHeight = obj.contract.deployedHeight := by
  rw [StateObject.commit] at hok
  cases htr : obj.storageTrie with
  | some tr =>
    simp only [htr, ok_bind] at hok
    obtain ⟨tr', -, hok⟩ := bind_eq_ok.mp hok
    obtain ⟨r', -, hok⟩ := bind_eq_ok.mp hok
    cases hok
    rfl
  | none =>
    cases hopen : db.contractStorageTrie c initRoot a with
    | ok tr =>
      simp only [htr, hopen, ok_bind] at hok
      obtain ⟨tr', -, hok⟩ := bind_eq_ok.mp hok
      obtain ⟨r', -, hok⟩ := bind_eq_ok.mp hok
      cases hok
      rfl
    | error e =>
      rw [htr, hopen] at hok
      cases hok

theorem getStorageRoot_height {obj : StateObject} {r : Felt × StateObject}
    (hok : obj.getStorageRoot = .ok r) :
    r.2.contract.deployedHeight = obj.contract.deployedHeight := by
  rw [StateObject.getStorageRoot] at hok
  cases htr : obj.storageTrie with
  | none =>
    rw [htr] at hok
    cases hok
    rfl
  | some tr =>
    rw [htr] at hok
    obtain ⟨r, -, hok⟩ := bind_eq_ok.mp hok
    cases hok
    rfl

/-- The objects of a state, as a loop over them finds them. -/
def Entry (db : DB) (blockNum : ℕ) (touched : Felt → Prop) (a : Felt) (obj : Option StateObject) : Prop :=
  touched a ∧ ∀ o, obj = some o → HeightOf db blockNum a o.contract.deployedHeight

section

variable (h : Changing db blockNum touched s)
include h

theorem entries : ∀ e ∈ s.stateObjects.entries, Entry db blockNum touched e.1 e.2 := by
  intro e he
  have hlook : s.stateObjects.lookup e.1 = some e.2 := AList.mem_lookup_iff.mpr he
  refine ⟨(h.keys e.1).mp (hlook.trans_ne (some_ne_none _)), fun o ho => h.height e.1 o ?_⟩
  rw [hlook, ho]

theorem commitObjects {r : State × MergeNodeSet}
    (hok : s.commitObjects c = .ok r) : Changing db blockNum touched r.1 := by
  refine foldlM_keeps (I := fun x => Changing db blockNum touched x.1) (fun x e x' he hx hok => ?_) h hok
  obtain ⟨htouched, hheight⟩ := h.entries e he
  cases hobj : e.2 with
  | none =>
    simp only [hobj, commitObject] at hok
    cases hok
    exact hx
  | some obj =>
    simp only [hobj, commitObject] at hok
    obtain ⟨r₂, hr₂, hok⟩ := bind_eq_ok.mp hok
    cases hok
    refine hx.replaceObject htouched (fun hnone => by cases hnone) fun o ho => ?_
    cases ho
    rw [commit_height hr₂]
    exact hheight obj hobj

theorem commitContract (hobj : Entry db blockNum touched a obj)
    (hok : s.commitContract c a obj = .ok s') : Changing db blockNum touched s' := by
  rw [commitContract.eq_def] at hok
  obtain ⟨r, -, hok⟩ := bind_eq_ok.mp hok
  cases hsys : isSystemContract a with
  | false =>
    rw [hsys] at hok
    cases hok
    exact h.withContractTrie _
  | true =>
    rw [hsys] at hok
    cases obj with
    | none =>
      cases hok
      exact h.withContractTrie _
    | some o =>
      obtain ⟨r₁, hr₁, hok⟩ := bind_eq_ok.mp hok
      simp only at hok
      split_ifs at hok
      · obtain ⟨r₂, -, hok⟩ := bind_eq_ok.mp hok
        cases hok
        exact (h.withContractTrie _).replaceObject hobj.1 (fun _ => hsys) fun o' ho' => by cases ho'
      · cases hok
        refine (h.withContractTrie _).replaceObject hobj.1 (fun _ => hsys) fun o' ho' => ?_
        cases ho'
        rw [getStorageRoot_height hr₁]
        exact hobj.2 o rfl

theorem commitContracts (hok : s.commitContracts c = .ok s') : Changing db blockNum touched s' := by
  exact foldlM_keeps (fun s e s' he hs hok => hs.commitContract (h.entries e he) hok) h hok

theorem commit {r : Felt × NodeUpdate × State} (hok : s.commit c protocolVersion = .ok r) :
    Changing db blockNum touched r.2.2 := by
  rw [State.commit] at hok
  obtain ⟨r₁, hr₁, hok⟩ := bind_eq_ok.mp hok
  obtain ⟨s₂, hs₂, hok⟩ := bind_eq_ok.mp hok
  obtain ⟨r₃, -, hok⟩ := bind_eq_ok.mp hok
  obtain ⟨r₄, -, hok⟩ := bind_eq_ok.mp hok
  obtain ⟨newComm, -, hok⟩ := bind_eq_ok.mp hok
  cases hok
  exact (((h.commitObjects hr₁).commitContracts hs₂).withClassTrie r₃.2).withContractTrie r₄.2

end

end Changing

theorem verifyComm_changing (blockNum : ℕ) {stateRoot comm : Felt}
    (hok : State.verifyComm c db stateRoot comm protocolVersion = .ok s) :
    Changing db blockNum (fun _ => False) s := by
  rw [verifyComm] at hok
  obtain ⟨r, hr, hok⟩ := bind_eq_ok.mp hok
  have hrs : r.2 = s := by
    simp only at hok
    split_ifs at hok
    cases hok
    rfl
  rw [openAt] at hr
  cases ht₁ : db.contractTrie c stateRoot with
  | error e =>
    rw [ht₁] at hr
    cases hr
  | ok t₁ =>
  rw [ht₁] at hr
  cases ht₂ : db.classTrie c stateRoot with
  | error e =>
    rw [ht₂] at hr
    cases hr
  | ok t₂ =>
  rw [ht₂] at hr
  simp only [ok_bind] at hr
  obtain ⟨r₃, -, hr⟩ := bind_eq_ok.mp hr
  obtain ⟨r₄, -, hr⟩ := bind_eq_ok.mp hr
  obtain ⟨commitment, -, hr⟩ := bind_eq_ok.mp hr
  cases hr
  subst hrs
  have hnone : ∀ a, (∅ : GoMap Felt (Option StateObject)).lookup a = none := fun a => AList.lookup_empty a
  refine ⟨rfl, fun a => ?_, fun a ha => ?_, fun a obj ha => ?_⟩
  · rw [hnone]
    simp
  · rw [hnone] at ha
    cases ha
  · rw [hnone] at ha
    cases ha

theorem updateClassTrie_changing {declaredClasses migratedClasses : GoMap Felt Felt}
    {classDefs : GoMap Felt ClassDefinition} (h : Changing db blockNum touched s)
    (hok : s.updateClassTrie c declaredClasses classDefs migratedClasses = .ok s') :
    Changing db blockNum touched s' := by
  rw [updateClassTrie] at hok
  obtain ⟨t₁, -, hok⟩ := bind_eq_ok.mp hok
  obtain ⟨t₂, -, hok⟩ := bind_eq_ok.mp hok
  cases hok
  exact h.withClassTrie t₂

/-! ### The rows -/

theorem writeHistory_eq (db : DB) (blockNum : ℕ) (diff : StateDiff) :
    State.writeHistory db blockNum diff =
      { db with
        nonceHistory := fun a => log (db.nonceHistory a) blockNum ((diff.nonces.lookup a).map some)
        classHashHistory := fun a => log (db.classHashHistory a) blockNum ((diff.classHash a).map some)
        storageHistory :=
          fun a key => log (db.storageHistory a key) blockNum ((diff.slot a key).map some) } := by
  simp only [writeHistory, storageHistory_loop _ _ _ some, nonceHistory_loop _ _ _ some,
    classHashHistory_loop _ _ _ some, log_log, ← map_or]
  rfl

/-- What a block that is accepted leaves in the rows. -/
structure Block.Effect (db : DB) (b : Block) (db' : DB) : Prop where
  fresh : ∀ a ∈ b.diff.deployedContracts, db.contracts a = none
  there : ∀ a, isSystemContract a = false → b.diff.Touches a → a ∈ b.diff.deployedContracts ∨
    db.contracts a ≠ none
  contracts : ∀ a, isSystemContract a = false →
    (db'.contracts a ≠ none ↔ a ∈ b.diff.deployedContracts ∨ db.contracts a ≠ none)
  heights : ∀ a k, db'.contracts a = some k → HeightOf db b.header.number a k.deployedHeight
  /-- Class definitions are stored unless there is one. -/
  classes :
    ∀ hash, db'.classes hash =
    (db.classes hash).or ((b.declaredClasses.lookup hash).map (⟨b.header.number, ·⟩))
  nonceHistory :
    ∀ a, db'.nonceHistory a = log (db.nonceHistory a) b.header.number ((b.diff.nonces.lookup a).map some)
  classHashHistory :
    ∀ a, db'.classHashHistory a = log (db.classHashHistory a) b.header.number ((b.diff.classHash a).map some)
  storageHistory : ∀ a key,
    db'.storageHistory a key = log (db.storageHistory a key) b.header.number ((b.diff.slot a key).map some)

theorem Block.apply_effect {b : Block} {skipVerifyNewRoot : Bool} {db' : DB}
    (hok : b.apply c skipVerifyNewRoot db = .ok db') : b.Effect db db' := by
  rw [Block.apply, update] at hok
  obtain ⟨s₁, hs₁, hok⟩ := bind_eq_ok.mp hok
  obtain ⟨s₂, hs₂, hok⟩ := bind_eq_ok.mp hok
  obtain ⟨s₃, hs₃, hok⟩ := bind_eq_ok.mp hok
  obtain ⟨s₄, hs₄, hok⟩ := bind_eq_ok.mp hok
  obtain ⟨r, hr, hok⟩ := bind_eq_ok.mp hok
  obtain ⟨h₃, hfresh⟩ :=
    (updateClassTrie_changing (verifyComm_changing b.header.number hs₁) hs₂).deployContracts hs₃
  obtain ⟨h₄, hthere⟩ := h₃.updateContracts hs₄
  have h₅ := h₄.commit hr
  have hdb' : db' = writeHistory (r.2.2.flush b.header.number r.2.1
      ((b.declaredClasses.filter fun hash _ => (db.classes hash).isNone).mapVals fun _ => some))
        b.header.number b.diff := by
    simp only at hok
    split_ifs at hok
    cases hok
    rfl
  rw [flush, h₅.disk, flushObjects_eq, flushClasses_eq, writeHistory_eq] at hdb'
  have hcontracts :
      db'.contracts = (r.2.2.stateObjects.mapVals fun _ obj => obj.map (·.contract)).override
      db.contracts := by
    rw [hdb']
    rfl
  have hclasses : db'.classes = ((((b.declaredClasses.filter fun hash _ => (db.classes hash).isNone).mapVals
      fun _ => some)).mapVals fun _ (cls : Option ClassDefinition) => cls.map (⟨b.header.number,
        ·⟩)).override db.classes := by
    rw [hdb']
    rfl
  refine ⟨hfresh, fun a hsys ha => hthere a hsys ha, fun a hsys => ?_, fun a k hk => ?_,
    fun hash => ?_, fun a => ?_,
    fun a => ?_, fun a key => ?_⟩
  · rw [hcontracts, override, lookup_mapVals]
    cases hlook : r.2.2.stateObjects.lookup a with
    | none =>
      have hnot :
          ¬ ((a ∈ b.diff.replacedClasses ∨ a ∈ b.diff.nonces ∨ a ∈ b.diff.storageDiffs) ∨
          a ∈ b.diff.deployedContracts) :=
        fun htouched => (h₅.keys a).mpr htouched hlook
      rw [not_or] at hnot
      simp only [map_none, getD_none]
      exact ⟨.inr, fun hor => hor.resolve_left hnot.2⟩
    | some o =>
      have htouched := (h₅.keys a).mp (hlook.trans_ne (some_ne_none _))
      cases o with
      | none =>
        rw [h₅.deleted a hlook] at hsys
        exact absurd hsys (Bool.false_ne_true ∘ Eq.symm)
      | some o =>
        simp only [map_some, getD_some]
        refine ⟨fun _ => ?_, fun _ => some_ne_none _⟩
        rcases htouched with htouched | hd
        · exact hthere a hsys htouched
        · exact .inl hd
  · rw [hcontracts, override, lookup_mapVals] at hk
    cases hlook : r.2.2.stateObjects.lookup a with
    | none =>
      rw [hlook] at hk
      exact .inr ⟨k, hk, rfl⟩
    | some o =>
      rw [hlook] at hk
      cases o with
      | none => exact absurd (Eq.symm hk) (some_ne_none _)
      | some o =>
        cases hk
        exact h₅.height a o hlook
  · rw [hclasses, override, lookup_mapVals, lookup_mapVals, lookup_filter]
    cases hd : b.declaredClasses.lookup hash with
    | none => simp [Option.filter]
    | some d =>
      cases hk : db.classes hash with
      | none | some => simp [Option.filter]
  · rw [hdb']
    rfl
  · rw [hdb']
    rfl
  · rw [hdb']
    rfl

end Juno.CoreState
