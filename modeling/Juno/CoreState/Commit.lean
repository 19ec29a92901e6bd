import Juno.CoreState.Ledger

/-!
# Committing the state

`commit` and `flush` on the database of a ledger: the database they leave is that of the
ledger with the changed contracts written (`Ledger.commit`).

The main result is `commit_flush`.
-/

namespace Juno.CoreState

open Lib Trie2 Ledger Function GoMap MergeNodeSet Option Object

variable {c : Crypto} {L : Ledger}

theorem trieHeight_le : trieHeight ≤ 251 := le_rfl

theorem not_panics (m : Felt → Felt) (op : TrieOp) : ¬ Panics trieHeight m op := by
  simp [Panics, trieHeight]

/-! ### Tries -/

variable {k : Felt}

section

variable {nz : Prop} {H : HashFn} {rd : NodeReader} {owner : Felt} {t : Trie} {m : Felt → Felt}

section

variable (h : Holds nz trieHeight H rd owner t m)
include h

theorem fromTrie_update (hk : InRange k) (v : Felt) :
    ∃ t', fromTrie (t.update k v) = .ok ((), t') ∧ Holds nz trieHeight H rd owner t' (update m k v) := by
  obtain ⟨t', ht', h'⟩ := h.update trieHeight_le hk v
  exact ⟨t', by rw [ht', fromTrie], h'⟩

theorem fromTrie_hash :
    ∃ t', fromTrie t.hash = .ok (mapRoot H trieHeight m, t') ∧ Holds nz trieHeight H rd owner t' m := by
  obtain ⟨t', ht', h'⟩ := h.hash trieHeight_le (not_panics m _)
  exact ⟨t', by rw [ht', fromTrie], h'⟩

theorem updateTrie_ok {w : GoMap Felt Felt} (hw : ∀ k ∈ w, InRange k) :
    ∃ t', updateTrie t w.entries = .ok t' ∧ Holds nz trieHeight H rd owner t' (w.override m) := by
  refine foldlM_writes (fun k hk => by rw [override, hk]; rfl) (fun t f k v ht hk _ => ?_) h
  rw [override_of_lookup hk]
  obtain ⟨t', ht', h'⟩ := fromTrie_update ht (hw k (mem_of_lookup hk)) v
  exact ⟨t', by rw [ht', ok_bind]; rfl, h'⟩

end

theorem fromTrie_commit {m₀ : Felt → Felt}
    (h : Holds True trieHeight H (some (storeOf trieHeight H m₀)) owner t m) :
    ∃ ns t', fromTrie t.commit = .ok ((mapRoot H trieHeight m, ns), t') ∧ (∀ n ∈ ns, n.owner = owner) ∧
      (storeOf trieHeight H m₀).commit ns = storeOf trieHeight H m ∧
      ∃ t'', fromTrie t'.hash = .ok (mapRoot H trieHeight m, t'') := by
  obtain ⟨ns, t', hcommit, howner, hrep, hhash⟩ :=
    h.commit trivial trieHeight_le (represents_storeOf _ _ _) (not_panics m _)
  refine ⟨ns, t', by rw [hcommit, fromTrie], howner, hrep.eq_storeOf, t'.hash.2, ?_⟩
  rw [show t'.hash = (t'.hash.1, t'.hash.2) from rfl, hhash, fromTrie]

theorem storeOf_eq_none (hm : EmptyMap trieHeight m) : storeOf trieHeight H m = fun _ => none := by
  funext key
  rw [storeOf, (canon_eq_none_iff_emptyMap trieHeight_le).mpr hm]
  simp

theorem new_vacant {S : NodeStore} {comm : Felt} (hS : S = fun _ => none) :
    Trie.new owner comm trieHeight H S = .ok ⟨trieHeight, owner, .nil, H, some S, false, newTracer⟩ := by
  subst hS
  unfold Trie.new
  split_ifs
  · rfl
  · rfl

/-- Committing a trie nothing was written to, over an empty store. -/
theorem fromTrie_commit_vacant :
    fromTrie (⟨trieHeight, owner, .nil, H, rd, false, newTracer⟩ : Trie).commit =
      .ok ((0, none), ⟨trieHeight, owner, .nil, H, rd, true, newTracer⟩) := rfl

end

/-! ### One contract -/

/-- The state object of an object, before its storage trie is opened. -/
def Object.Of (obj : Object) (so : StateObject) : Prop :=
  ∃ root, so = ⟨⟨obj.contract.nonce, obj.contract.classHash, obj.contract.deployedHeight, root⟩,
    obj.writes, none⟩

def Object.Committed (c : Crypto) (L : Ledger) (addr : Felt) (obj : Object) (so : StateObject) : Prop :=
  so.contract = obj.contract.record c (L.newStorage addr obj) ∧
    ∃ so', so.getStorageRoot = .ok (mapRoot c.pedersen trieHeight (L.newStorage addr obj), so') ∧
      so'.contract = so.contract

/-- What the storage of a contract must be like for its trie to be opened and committed. -/
structure StorageOk (c : Crypto) (L : Ledger) (initRoot addr : Felt) (obj : Object) : Prop where
  writes_lt : ∀ k ∈ obj.writes, InRange k
  nonzero : NonzeroHashes trieHeight c.pedersen (L.storage addr)
  root_zero : initRoot = 0 → EmptyMap trieHeight (L.storage addr)
  addr_zero : addr = 0 → obj.writes = ∅

/-- **One contract is committed**: its record has the root of the new storage, and its nodes turn the stored
rows into those of the new storage. -/
theorem StateObject.commit_ok {initRoot addr : Felt} {obj : Object} {so : StateObject} (hso : obj.Of so)
    (h : StorageOk c L initRoot addr obj) (hz : ∀ k, L.storage 0 k = 0) :
    ∃ nodes so', so.commit c (L.toDB c) initRoot addr = .ok (nodes, so') ∧ obj.Committed c L addr so' ∧
      (∀ n ∈ nodes, n.owner = addr) ∧ (addr = 0 → nodes = none) ∧
      (storeOf trieHeight c.pedersen (L.storage addr)).commit nodes =
        storeOf trieHeight c.pedersen (L.newStorage addr obj) := by
  obtain ⟨root, rfl⟩ := hso
  obtain ⟨t, ht, hold⟩ := new_holds True addr trieHeight_le
    (represents_storeOf trieHeight c.pedersen (L.storage addr)) h.root_zero fun _ => h.nonzero
  obtain ⟨t₁, ht₁, hold₁⟩ := updateTrie_ok hold h.writes_lt
  obtain ⟨ns, t₂, ht₂, howner, hrows, t₃, hhash⟩ := fromTrie_commit hold₁
  refine ⟨ns, ⟨obj.contract.record c (L.newStorage addr obj), obj.writes, some t₂⟩, ?_, ⟨rfl, ?_⟩,
    howner, ?_, hrows⟩
  · simp only [StateObject.commit, DB.contractStorageTrie, toDB, ht, ok_bind, ht₁, ht₂]
    rfl
  · refine ⟨⟨obj.contract.record c (L.newStorage addr obj), obj.writes, some t₃⟩, ?_, rfl⟩
    simp only [StateObject.getStorageRoot, newStorage, hhash, ok_bind]
    rfl
  · intro h0
    subst h0
    rw [new_vacant (storeOf_eq_none fun k _ => hz k), Except.ok.injEq] at ht
    rw [h.addr_zero rfl] at ht₁
    obtain rfl : t = t₁ := Except.ok.inj ht₁
    rw [← ht, fromTrie_commit_vacant, Except.ok.injEq] at ht₂
    exact (congrArg (fun r => r.1.2) ht₂).symm

/-! ### The storage tries -/

/-- The state objects are those of the given objects. -/
def Tracks (R : Felt → Object → StateObject → Prop) (objs : Objects)
    (states : GoMap Felt (Option StateObject)) : Prop :=
  ∀ a, Option.Rel (Option.Rel (R a)) (objs a) (states.lookup a)

variable {objs : Objects} {states : GoMap Felt (Option StateObject)}

theorem Tracks.eq_none {R : Felt → Object → StateObject → Prop} (h : Tracks R objs states)
    {a : Felt} (ha : states.lookup a = none) : objs a = none := by
  have := h a
  rw [ha] at this
  generalize objs a = obj at this
  cases this
  rfl

structure Committable (c : Crypto) (L : Ledger) (s : State) (objs : Objects)
    (leaves : Felt → Felt) : Prop where
  disk : s.disk = L.toDB c
  tracks : Tracks (fun _ => Of) objs s.stateObjects
  addr_lt : ∀ a, objs a ≠ none → InRange a
  storage : ∀ a obj, objs a = some (some obj) → StorageOk c L s.initRoot a obj
  storage_zero : ∀ k, L.storage 0 k = 0
  contractTrie :
    Holds True trieHeight c.pedersen (some (storeOf trieHeight c.pedersen (L.leaf c))) 0
    s.contractTrie (L.leaf c)
  classTrie :
    Holds True trieHeight c.poseidon (some (storeOf trieHeight c.poseidon L.classLeaves)) 0 s.classTrie leaves

/-- The rows of a storage trie after the merged nodes are written. -/
def MergeNodeSet.applyChild (m : MergeNodeSet) (addr : Felt) (S : NodeStore) : NodeStore :=
  match m.childSets addr with
  | none => S
  | some nodes => S.apply nodes

/-- The storage of a contract after the storage tries are committed. -/
def Ledger.written (L : Ledger) (objs : Objects) (addr : Felt) : Felt → Felt :=
  match objs addr with
  | some (some obj) => L.newStorage addr obj
  | _ => L.storage addr

variable {nodes : Option NodeSet} {m : MergeNodeSet}

/-- The nodes of a storage trie are the only ones of its contract. -/
theorem MergeNodeSet.merge_child {addr : Felt} (howner : ∀ n ∈ nodes, n.owner = addr)
    (hzero : addr = 0 → nodes = none) (hm : m.childSets addr = none) :
    m.merge nodes = ⟨m.ownerSet, update m.childSets addr (nodes.map (·.nodes))⟩ := by
  cases nodes with
  | none => rw [merge, map_none, ← hm, update_eq_self]
  | some ns =>
    have hns : ns.owner = addr := howner ns rfl
    have h0 : ns.owner ≠ 0 := fun h0 => by simpa using hzero (hns ▸ h0)
    rw [merge, if_neg h0, hns, hm]
    rfl

theorem MergeNodeSet.applyChild_merged (o : Path → Option TrieNode)
    (ch : Felt → Option (Path → Option TrieNode)) (addr : Felt) (nodes : Option NodeSet) (S : NodeStore) :
    (⟨o, update ch addr (nodes.map (·.nodes))⟩ : MergeNodeSet).applyChild addr S = S.commit nodes := by
  simp only [applyChild, update_self]
  cases nodes with
  | none => rfl
  | some ns => rfl

/-- What the first loop of `commit` has done when it has visited some of the contracts. -/
def Ledger.StoragesCommitted (c : Crypto) (L : Ledger) (s : State) (objs : Objects) (s' : State)
    (merged : MergeNodeSet) (h : Felt → Bool) : Prop :=
  ∃ states, s' = { s with stateObjects := states } ∧ merged.ownerSet = (fun _ => none) ∧ ∀ a,
    (h a = true → Option.Rel (Option.Rel (Committed c L a)) (objs a) (states.lookup a) ∧
      merged.applyChild a (storeOf trieHeight c.pedersen (L.storage a)) =
        storeOf trieHeight c.pedersen (L.written objs a)) ∧
    (h a = false → states.lookup a = s.stateObjects.lookup a ∧ merged.childSets a = none)

section

variable {s s' : State} {objs : Objects} {leaves : Felt → Felt} {h : Felt → Bool}
  {so : Option StateObject}

theorem Ledger.StoragesCommitted.commitObject (hc : Committable c L s objs leaves)
    {merged : MergeNodeSet} (hv : L.StoragesCommitted c s objs s' merged h)
    (hk : s.stateObjects.lookup k = some so) (hnew : h k = false) :
    ∃ s'' merged', s'.commitObject c merged k so = .ok (s'', merged') ∧
      L.StoragesCommitted c s objs s'' merged' (update h k true) := by
  obtain ⟨states, rfl, hown, hv⟩ := hv
  obtain ⟨hl, hch⟩ := (hv k).2 hnew
  have htrack := hc.tracks k
  rw [hk] at htrack
  generalize hobj : objs k = obj at htrack
  rcases htrack with @⟨obj, so, hrel⟩ | _
  rcases hrel with @⟨obj, so, hso⟩ | _
  · obtain ⟨nodes, so', hcommit, hcom, howner, hzero, hrows⟩ :=
      StateObject.commit_ok hso (hc.storage k obj hobj) hc.storage_zero
    refine ⟨{ s with stateObjects := states.insert k (some so') }, merged.merge nodes, ?_, _, rfl,
      ?_, fun a => ?_⟩
    · simp only [State.commitObject, hc.disk, hcommit, ok_bind]
      rfl
    · rw [merge_child howner hzero hch]
      exact hown
    · rw [merge_child howner hzero hch]
      by_cases ha : a = k
      · subst ha
        refine ⟨fun _ => ⟨?_, ?_⟩, fun hf => by simp at hf⟩
        · rw [AList.lookup_insert, hobj]
          exact .some (.some hcom)
        · rw [applyChild_merged, hrows, written, hobj]
      · simp only [applyChild, update_of_ne ha, AList.lookup_insert_ne ha]
        exact hv a
  · refine ⟨_, _, rfl, states, rfl, hown, fun a => ?_⟩
    by_cases ha : a = k
    · subst ha
      refine ⟨fun _ => ⟨?_, ?_⟩, fun hf => by simp at hf⟩
      · rw [hl, hk, hobj]
        exact .some .none
      · rw [applyChild, hch, written, hobj]
    · rw [update_of_ne ha]
      exact hv a

theorem commitObjects_ok (hc : Committable c L s objs leaves) :
    ∃ states merged, s.commitObjects c = .ok ({ s with stateObjects := states }, merged) ∧
      Tracks (Committed c L) objs states ∧ merged.ownerSet = (fun _ => none) ∧
      ∀ a, merged.applyChild a (storeOf trieHeight c.pedersen (L.storage a)) =
        storeOf trieHeight c.pedersen (L.written objs a) := by
  have hstart : L.StoragesCommitted c s objs s newMergeNodeSet fun _ => false :=
    ⟨s.stateObjects, rfl, rfl, fun a => ⟨fun hf => by simp at hf, fun _ => ⟨rfl, rfl⟩⟩⟩
  obtain ⟨⟨s', merged⟩, hrun, states, hs', hown, hv⟩ : ∃ r, s.commitObjects c = .ok r ∧
      L.StoragesCommitted c s objs r.1 r.2 fun a => (s.stateObjects.lookup a).isSome := by
    refine foldlM_visits (R := fun (r : State × MergeNodeSet) h => L.StoragesCommitted c s objs r.1 r.2 h)
      (fun r h k so hr hk hnew => ?_) hstart
    obtain ⟨s'', merged', hstep, hvis⟩ := hr.commitObject hc hk hnew
    exact ⟨(s'', merged'), hstep, hvis⟩
  simp only at hs'
  subst hs'
  refine ⟨states, merged, hrun, fun a => ?_, hown, fun a => ?_⟩
  · cases hl : s.stateObjects.lookup a with
    | some so => exact ((hv a).1 (by simp [hl])).1
    | none =>
      obtain ⟨heq, -⟩ := (hv a).2 (by simp [hl])
      rw [heq, hl, hc.tracks.eq_none hl]
      exact .none
  · cases hl : s.stateObjects.lookup a with
    | some so => exact ((hv a).1 (by simp [hl])).2
    | none =>
      obtain ⟨heq, hch⟩ := (hv a).2 (by simp [hl])
      rw [applyChild, hch, written, hc.tracks.eq_none hl]

/-! ### The contract trie -/

def Object.Final (c : Crypto) (L : Ledger) (addr : Felt) (obj : Object) (so : StateObject) : Prop :=
  so.contract = obj.contract.record c (L.newStorage addr obj)

/-- What the second loop of `commit` has done when it has visited some of the contracts. -/
def Ledger.LeavesWritten (c : Crypto) (L : Ledger) (s : State) (objs : Objects) (s' : State)
    (h : Felt → Bool) :
    Prop :=
  ∃ tr states, s' = { s with contractTrie := tr, stateObjects := states } ∧
    Holds True trieHeight c.pedersen (some (storeOf trieHeight c.pedersen (L.leaf c))) 0 tr
      (fun a => if h a then (L.commit c objs).leaf c a else L.leaf c a) ∧ ∀ a,
    (h a = true → Option.Rel (Option.Rel (Final c L a)) (L.kept c objs a) (states.lookup a)) ∧
    (h a = false → states.lookup a = s.stateObjects.lookup a)

/-- A step of the second loop writes the leaf and the object of the contract it visits. -/
theorem Ledger.LeavesWritten.write (hv : L.LeavesWritten c s objs s' h) (tr : Trie)
    (htr : Holds True trieHeight c.pedersen (some (storeOf trieHeight c.pedersen (L.leaf c))) 0 tr
      (update (fun a => if h a then (L.commit c objs).leaf c a else L.leaf c a) k
      ((L.commit c objs).leaf c k)))
    (states : GoMap Felt (Option StateObject))
    (hk : Option.Rel (Option.Rel (Final c L k)) (L.kept c objs k) (states.lookup k))
    (hother : ∀ a, a ≠ k → states.lookup a = s'.stateObjects.lookup a) :
    L.LeavesWritten c s objs { s' with contractTrie := tr, stateObjects := states } (update h k true) := by
  obtain ⟨tr₀, states₀, rfl, -, hv⟩ := hv
  refine ⟨tr, states, rfl, ?_, fun a => ?_⟩
  · rw [visited_update]
    exact htr
  · by_cases ha : a = k
    · subst ha
      exact ⟨fun _ => hk, fun hf => by simp at hf⟩
    · rw [update_of_ne ha, hother a ha]
      exact hv a

theorem Ledger.LeavesWritten.commitContract (htrack : Tracks (Committed c L) objs s.stateObjects)
    (hlt : ∀ a, objs a ≠ none → InRange a) (hv : L.LeavesWritten c s objs s' h)
    (hk : s.stateObjects.lookup k = some so) (hnew : h k = false) :
    ∃ s'', s'.commitContract c k so = .ok s'' ∧ L.LeavesWritten c s objs s'' (update h k true) := by
  have hv' := hv
  obtain ⟨tr, states, rfl, htr, hrel⟩ := hv
  have hl : states.lookup k = some so := ((hrel k).2 hnew).trans hk
  have htrack := htrack k
  rw [hk] at htrack
  generalize hobj : objs k = obj at htrack
  rcases htrack with @⟨obj, so, hso⟩ | _
  have hkin : InRange k := hlt k (by simp [hobj])
  rcases hso with @⟨obj, so, hcon, so', hroot, hcon'⟩ | _
  · obtain ⟨tr₁, htr₁, hold₁⟩ := fromTrie_update htr hkin (so.contract.commitment c)
    cases hsys : isSystemContract k with
    | false =>
      have hp : ¬ L.purged c k obj := fun hp => Bool.false_ne_true (hsys.symm.trans hp.1)
      refine ⟨_, ?_, hv'.write tr₁ ?_ states ?_ fun a _ => rfl⟩
      · simp only [State.commitContract, htr₁, ok_bind, hsys]
        rfl
      · rw [leaf_commit_some (kept_some hobj hp), ← hcon]
        exact hold₁
      · rw [kept_some hobj hp, hl]
        exact .some (.some hcon)
    | true =>
      by_cases hzero : mapRoot c.pedersen trieHeight (L.newStorage k obj) = 0
      · have hp : L.purged c k obj := ⟨hsys, hzero⟩
        have hkept := kept_purged hobj hp
        obtain ⟨tr₂, htr₂, hold₂⟩ := fromTrie_update hold₁ hkin 0
        refine ⟨_, ?_, hv'.write tr₂ ?_ (states.insert k none) ?_ fun a ha => AList.lookup_insert_ne ha⟩
        · simp only [State.commitContract, htr₁, ok_bind, hsys, hroot, if_pos hzero, htr₂]
          rfl
        · rw [leaf_commit_deleted hkept]
          rw [update_idem] at hold₂
          exact hold₂
        · rw [hkept, AList.lookup_insert]
          exact .some .none
      · have hp : ¬ L.purged c k obj := fun hp => hzero hp.2
        refine ⟨_, ?_, hv'.write tr₁ ?_ (states.insert k (some so')) ?_ fun a ha =>
          AList.lookup_insert_ne ha⟩
        · simp only [State.commitContract, htr₁, ok_bind, hsys, hroot, if_neg hzero]
          rfl
        · rw [leaf_commit_some (kept_some hobj hp), ← hcon]
          exact hold₁
        · rw [kept_some hobj hp, AList.lookup_insert]
          exact .some (.some (hcon'.trans hcon))
  · have hkept : L.kept c objs k = some none := kept_deleted hobj
    obtain ⟨tr₁, htr₁, hold₁⟩ := fromTrie_update htr hkin 0
    refine ⟨_, ?_, hv'.write tr₁ ?_ states ?_ fun a _ => rfl⟩
    · simp only [State.commitContract, htr₁, ok_bind]
      cases isSystemContract k with
      | false => rfl
      | true => rfl
    · rw [leaf_commit_deleted hkept]
      exact hold₁
    · rw [hkept, hl]
      exact .some .none

theorem commitContracts_ok (htrack : Tracks (Committed c L) objs s.stateObjects)
    (hlt : ∀ a, objs a ≠ none → InRange a)
    (htr : Holds True trieHeight c.pedersen (some (storeOf trieHeight c.pedersen (L.leaf c))) 0
      s.contractTrie (L.leaf c)) :
    ∃ tr states, s.commitContracts c = .ok { s with contractTrie := tr, stateObjects := states } ∧
      Holds True trieHeight c.pedersen (some (storeOf trieHeight c.pedersen (L.leaf c))) 0 tr
        ((L.commit c objs).leaf c) ∧
      Tracks (Final c L) (L.kept c objs) states := by
  have hstart : L.LeavesWritten c s objs s fun _ => false :=
    ⟨s.contractTrie, s.stateObjects, rfl,
      by simpa using htr, fun a => ⟨fun hf => by simp at hf, fun _ => rfl⟩⟩
  obtain ⟨s', hrun, tr, states, rfl, hold, hv⟩ : ∃ s', s.commitContracts c = .ok s' ∧
      L.LeavesWritten c s objs s' fun a => (s.stateObjects.lookup a).isSome :=
    foldlM_visits (fun s' h k so hr hk hnew => hr.commitContract htrack hlt hk hnew) hstart
  refine ⟨tr, states, hrun, ?_, fun a => ?_⟩
  · have : (fun a => if (s.stateObjects.lookup a).isSome then (L.commit c objs).leaf c a else L.leaf c a) =
        (L.commit c objs).leaf c := by
      funext a
      cases hl : s.stateObjects.lookup a with
      | some so => rfl
      | none => exact (leaf_commit_none (kept_none (htrack.eq_none hl))).symm
    exact this ▸ hold
  · cases hl : s.stateObjects.lookup a with
    | some so => exact (hv a).1 (by simp [hl])
    | none =>
      rw [(hv a).2 (by simp [hl]), hl, kept_none (htrack.eq_none hl)]
      exact .none

end

/-! ### Writing -/

/-- The rows of a storage trie after `flush`; those of the zero address are never deleted. -/
def flushedNodes (S : NodeStore) (addr : Felt) (obj : Option StateObject) : NodeStore :=
  match obj with
  | none => if addr = 0 then S else fun _ => none
  | some _ => S

theorem flushObjects_eq (db : DB) (states : GoMap Felt (Option StateObject)) :
    State.flushObjects db states =
      { db with
        contracts := (states.mapVals fun _ obj => obj.map (·.contract)).override db.contracts
        storageNodes :=
          (states.mapVals fun a obj => flushedNodes (db.storageNodes a) a obj).override
            db.storageNodes } := by
  refine foldl_writes (s := db) (f := fun a => (db.contracts a, db.storageNodes a)) (F := fun a =>
    ((states.mapVals fun _ obj => obj.map (·.contract)).override db.contracts a,
      (states.mapVals fun a obj => flushedNodes (db.storageNodes a) a obj).override db.storageNodes a))
    (R := fun db' h => db' = { db with
      contracts := Prod.fst ∘ h
      storageNodes := Prod.snd ∘ h }) (fun k hk => ?_) (fun db' h k obj hdb' hk hf => ?_) rfl
  · simp only [override, lookup_mapVals, hk]
    rfl
  subst hdb'
  -- a contract is visited once: its rows are still those of the database
  have hrows : update (Prod.snd ∘ h) k (db.storageNodes k) = Prod.snd ∘ h :=
    update_eq_self_iff.mpr (congrArg Prod.snd hf).symm
  rw [comp_update, comp_update]
  cases obj with
  | some obj =>
    simp only [State.flushObject, override, lookup_mapVals, hk, map_some, getD_some, flushedNodes, hrows]
  | none =>
    simp only [State.flushObject, State.deleteStorageNodes, override, lookup_mapVals, hk, map_some, getD_some,
      flushedNodes, map_none]
    split_ifs
    · rw [hrows]
    · rfl

theorem flushClasses_eq (db : DB) (blockNum : ℕ) (classes : GoMap Felt (Option ClassDefinition)) :
    State.flushClasses db blockNum classes =
      { db with
        classes := (classes.mapVals fun _ cls => cls.map (⟨blockNum, ·⟩)).override db.classes } := by
  refine foldl_writes (R := fun db' h => db' = { db with classes := h }) (fun k hk => ?_)
    (fun db' h k cls hdb' hk _ => ?_) rfl
  · rw [override, lookup_mapVals, hk]
    rfl
  · subst hdb'
    rw [override, lookup_mapVals, hk]
    rfl

/-! ### Commit and flush -/

theorem apply_none (S : NodeStore) : (S.apply fun _ => none) = S := rfl

/-- The nodes of the contract trie are the only ones without an owner. -/
theorem MergeNodeSet.merge_owner (howner : ∀ n ∈ nodes, n.owner = 0)
    (hm : m.ownerSet = fun _ => none) (S : NodeStore) :
    S.apply (m.merge nodes).ownerSet = S.commit nodes ∧ (m.merge nodes).childSets = m.childSets := by
  cases nodes with
  | none =>
    rw [merge, hm]
    exact ⟨apply_none S, rfl⟩
  | some ns =>
    have hmerge : mergeNodes (fun _ => none) ns.nodes = ns.nodes := by
      funext path
      rw [mergeNodes]
      cases ns.nodes path with
      | none => rfl
      | some n => rfl
    rw [merge, if_pos (howner ns rfl), hm, hmerge]
    exact ⟨rfl, rfl⟩

variable {leaves : Felt → Felt} {s : State}

theorem Committable.written_zero (hc : Committable c L s objs leaves) : L.written objs 0 = L.storage 0 := by
  unfold written
  split
  · next obj hobj => rw [newStorage, (hc.storage 0 obj hobj).addr_zero rfl, override_empty]
  · rfl

/-- The rows of a storage trie and the record of a contract after `flush`. -/
theorem flushed_contract (hc : Committable c L s objs leaves)
    (htrack : Tracks (Final c L) (L.kept c objs) states) {S : Felt → NodeStore}
    (hS : ∀ a, S a = storeOf trieHeight c.pedersen (L.written objs a)) (a : Felt) :
    (states.mapVals fun a obj => flushedNodes (S a) a obj).override S a =
        storeOf trieHeight c.pedersen ((L.commit c objs).storage a) ∧
      (states.mapVals fun _ obj => obj.map (·.contract)).override (L.toDB c).contracts a =
        ((L.commit c objs).contracts a).map fun k => k.record c ((L.commit c objs).storage a) := by
  have hrel := htrack a
  simp only [override, lookup_mapVals]
  generalize hkept : L.kept c objs a = obj at hrel
  generalize states.lookup a = so at hrel
  rcases hrel with @⟨obj, so, hrel⟩ | _
  · rcases hrel with @⟨obj, so, hfinal⟩ | _
    · obtain ⟨hobj, -⟩ := kept_eq_some hkept
      simp only [commit, hkept, map_some, getD_some, flushedNodes, hS, written, hobj]
      exact ⟨trivial, congrArg some hfinal⟩
    · refine ⟨?_, by simp only [commit, hkept, map_none, map_some, getD_some]⟩
      simp only [commit, hkept, map_some, getD_some, flushedNodes]
      rw [storeOf_eq_none fun _ _ => rfl]
      split_ifs with h0
      · subst h0
        rw [hS, hc.written_zero, storeOf_eq_none fun k _ => hc.storage_zero k]
      · rfl
  · have hobj := kept_eq_none hkept
    simp only [commit, hkept, map_none, getD_none, hS, written, hobj]
    exact ⟨trivial, rfl⟩

/-- **Commit and flush**: the database after them is that of the ledger with the changes written, and the
commitment that of the ledger. -/
theorem commit_flush (hc : Committable c L s objs leaves) (protocolVersion : Option BlockVersion)
    (blockNum : ℕ) (classes : GoMap Felt (Option ClassDefinition)) :
    ∃ nodes s', s.commit c protocolVersion = (do
        let newComm ← (L.write c objs leaves blockNum classes).commitment c protocolVersion
        return (newComm, nodes, s')) ∧
      s'.flush blockNum nodes classes = (L.write c objs leaves blockNum classes).toDB c := by
  obtain ⟨states₁, merged, hobjs, htrack₁, hown, hrows⟩ := commitObjects_ok hc
  obtain ⟨tr, states, hcontracts, hold, htrack⟩ :=
    commitContracts_ok (s := { s with stateObjects := states₁ }) htrack₁ hc.addr_lt hc.contractTrie
  obtain ⟨classNodes, classTrie, hclass, -, hclassRows, -⟩ := fromTrie_commit hc.classTrie
  obtain ⟨nodes, tr', hcontract, howner, hcontractRows, -⟩ := fromTrie_commit hold
  obtain ⟨howned, hchildren⟩ := merge_owner howner hown (storeOf trieHeight c.pedersen (L.leaf c))
  refine ⟨⟨classNodes, merged.merge nodes⟩,
    ⟨s.initRoot, s.disk, tr', classTrie, states⟩, ?_, ?_⟩
  · simp only [State.commit, hobjs, ok_bind, hcontracts, hclass, hcontract]
    rfl
  · have happly : State.applyNodes s.disk ⟨classNodes, merged.merge nodes⟩ =
        { L.toDB c with
          classNodes := storeOf trieHeight c.poseidon leaves
          contractNodes := storeOf trieHeight c.pedersen ((L.commit c objs).leaf c)
          storageNodes := fun a => storeOf trieHeight c.pedersen (L.written objs a) } := by
      rw [hc.disk, State.applyNodes]
      refine DB.ext ?_ ?_ ?_ rfl rfl rfl rfl rfl rfl
      · rw [← hclassRows]
        cases classNodes with
        | none => rfl
        | some ns => rfl
      · rw [← hcontractRows, ← howned]
        rfl
      · funext a
        refine Eq.trans ?_ (hrows a)
        rw [applyChild, ← hchildren]
        rfl
    rw [State.flush, flushClasses_eq, flushObjects_eq, happly]
    have hflushed :=
        flushed_contract hc htrack (S := fun a => storeOf trieHeight c.pedersen (L.written objs a))
          fun _ => rfl
    ext1
    · rfl
    · rfl
    · exact funext fun a => (hflushed a).1
    · exact funext fun a => (hflushed a).2
    · rfl
    · rfl
    · rfl
    · rfl
    · rfl

end Juno.CoreState
