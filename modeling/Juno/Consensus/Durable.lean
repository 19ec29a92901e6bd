import Juno.Consensus.Driver

/-!
# What the driver's log is good for

The flushed entries of the log are a run of the state machine (`Logs`), and so are they together
with the pending ones. Everything that was ever sent is an action of the first; the machine in
memory is like that of the second, with what is still to be executed.

## The model

`Admits` says which events are treated well: an input is accepted by the machine (`Accepts`), and a
block fetch fails only when there is nothing that would be executed again. `Todo` says that what is
left of `execute` can be carried out, and `Driver.Inv` is the invariant.
-/

/-! ### The log -/

namespace Juno.Walstore.System

variable {E : Type} {getHeight : E → ℕ} {s : System E}

def Open (s : System E) : Prop := ∃ store, s.store = some store ∧ store.closed = false

structure Recorded (s : System E) (r : Record E) (s' : System E) : Prop where
  flushed : s'.flushed = s.flushed
  pending : s'.pending = s.pending ++ [r]
  isOpen : s'.Open

variable (getHeight) in
theorem setWALEntry_effect (h : s.Open) (e : E) :
    Recorded s (.entry e) (s.step getHeight (.setWALEntry e)) := by
  obtain ⟨store, hstore, hopen⟩ := h
  have hset : (store.setWALEntry getHeight e).1 = true ∧
      (store.setWALEntry getHeight e).2.closed = false := by
    unfold WALStore.setWALEntry
    rw [if_neg (by simp [hopen])]
    split
    · exact ⟨rfl, hopen⟩
    · exact ⟨rfl, hopen⟩
  have hstep : s.step getHeight (.setWALEntry e) =
      { s with store := some (store.setWALEntry getHeight e).2, pending := s.pending ++ [.entry e] } := by
    simp [step, hstore, hset.1]
  rw [hstep]
  exact ⟨rfl, rfl, _, rfl, hset.2⟩

variable (getHeight) in
theorem deleteWALEntries_effect (h : s.Open) (height : ℕ) :
    Recorded s (.prune height) (s.step getHeight (.deleteWALEntries height)) := by
  obtain ⟨store, hstore, hopen⟩ := h
  have hdelete : (store.deleteWALEntries height).1 = true ∧
      (store.deleteWALEntries height).2.closed = false := by
    unfold WALStore.deleteWALEntries
    rw [if_neg (by simp [hopen])]
    split
    · exact ⟨rfl, hopen⟩
    · split
      · exact ⟨rfl, hopen⟩
      · exact ⟨rfl, hopen⟩
  have hstep : s.step getHeight (.deleteWALEntries height) =
      { s with store := some (store.deleteWALEntries height).2
               pending := s.pending ++ [.prune height] } := by
    simp [step, hstore, hdelete.1]
  rw [hstep]
  exact ⟨rfl, rfl, _, rfl, hdelete.2⟩

/-- The pending records were flushed, or both lists are as they were. -/
def FlushedOrNot (s s' : System E) : Prop :=
  (s'.flushed = s.flushed ++ s.pending ∧ s'.pending = []) ∨ (s'.flushed = s.flushed ∧ s'.pending = s.pending)

theorem flushedAs_flushedOrNot (s : System E) (o : WALStore.Flushed) (store : WALStore E) (disk : Disk E) :
    FlushedOrNot s (s.flushedAs o store disk) := by
  unfold flushedAs
  split
  · exact .inl ⟨rfl, rfl⟩
  · exact .inr ⟨rfl, rfl⟩

theorem flush_effect (hinv : s.Inv getHeight) (h : s.Open) {f : Faults} (hf : f.leaves = false) :
    FlushedOrNot s (s.step getHeight (.flush f)) ∧ (s.step getHeight (.flush f)).Open ∧
      ((s.store.any fun store => (store.flushLocked getHeight s.disk f).1.ok) = true →
        (s.step getHeight (.flush f)).flushed = s.flushed ++ s.pending ∧
          (s.step getHeight (.flush f)).pending = []) := by
  obtain ⟨store, hstore, hopen⟩ := h
  have hclosed := ((hinv.store store hstore).flushLocked hf rfl).2.1
  have hstep : s.step getHeight (.flush f) = s.flushedAs (store.flushLocked getHeight s.disk f).1
      (store.flushLocked getHeight s.disk f).2.1 (store.flushLocked getHeight s.disk f).2.2 := by
    simp [step, hstore]
  rw [hstep, hstore]
  refine ⟨flushedAs_flushedOrNot _ _ _ _, ?_, fun hok => ?_⟩
  · unfold flushedAs
    split
    · exact ⟨_, rfl, hclosed.trans hopen⟩
    · exact ⟨_, rfl, hclosed.trans hopen⟩
  · have hok : (store.flushLocked getHeight s.disk f).1.ok = true := hok
    unfold flushedAs
    rw [hok, Bool.true_or, if_pos rfl]
    exact ⟨rfl, rfl⟩

theorem not_open_close (s : System E) (f : Faults) : ¬ (s.step getHeight (.close f)).Open := by
  rintro ⟨store, hstore, hopen⟩
  unfold step at hstore
  cases hold : s.store with
  | none => simp [hold] at hstore
  | some old =>
    cases hclosed : old.closed with
    | true =>
      simp only [hold, hclosed, if_true] at hstore
      rw [← Option.some.inj hstore, hclosed] at hopen
      cases hopen
    | false =>
      have hclose : (old.close getHeight s.disk f).2.1.closed = true := by
        unfold WALStore.close
        rw [if_neg (by simp [hclosed])]
      simp only [hold, hclosed, Bool.false_eq_true, if_false] at hstore
      have hstore : some (old.close getHeight s.disk f).2.1 = some store := by
        rw [← hstore]
        unfold flushedAs
        split <;> rfl
      rw [← Option.some.inj hstore, hclose] at hopen
      cases hopen

theorem reopen_effect (hinv : s.Inv getHeight) (h : ¬ s.Open) :
    (s.step getHeight .reopen).flushed = s.flushed ∧ (s.step getHeight .reopen).pending = [] ∧
      (s.step getHeight .reopen).Open := by
  obtain ⟨store, disk, hnew, -, -⟩ := newTendermintWALStore_ok hinv.logs hinv.holds
  have hopen : store.closed = false := by
    unfold newTendermintWALStore at hnew
    simp only at hnew
    split at hnew
    · cases hnew
    · obtain ⟨rfl, -⟩ := Prod.mk.inj (Option.some.inj hnew)
      rfl
  have hreopen : s.reopen getHeight = { s with disk := disk, store := some store, pending := [] } := by
    unfold reopen
    simp only [hnew]
  have hstep : s.step getHeight .reopen = s.reopen getHeight := by
    unfold step
    cases hstore : s.store with
    | none => rfl
    | some old =>
      cases hclosed : old.closed with
      | true => simp only [hclosed, if_true]
      | false => exact absurd ⟨old, hstore, hclosed⟩ h
  rw [hstep, hreopen]
  exact ⟨rfl, rfl, store, rfl, hopen⟩

variable (getHeight) in
theorem close_effect (s : System E) (f : Faults) : FlushedOrNot s (s.step getHeight (.close f)) := by
  unfold step
  cases s.store with
  | none => exact .inr ⟨rfl, rfl⟩
  | some store =>
    simp only
    split
    · exact .inr ⟨rfl, rfl⟩
    · exact flushedAs_flushedOrNot _ _ _ _

theorem Inv.groups (h : s.Inv getHeight) {store : WALStore E} (hstore : s.store = some store) :
    Groups getHeight (above getHeight (maxPrune s.flushed) (entries s.flushed))
      store.index.loadAllEntries := by
  have hok := h.store store hstore
  rw [← hok.holds.live, ← hok.pruned]
  exact hok.index.loadAllEntries

end Juno.Walstore.System

namespace Juno.Walstore

variable {E : Type} {getHeight : E → ℕ}

theorem atHeight_above {height k : ℕ} (hk : height < k) (es : List E) :
    atHeight getHeight (above getHeight height es) k = atHeight getHeight es k := by
  unfold atHeight above
  rw [List.filter_filter]
  refine List.filter_congr fun e _ => ?_
  rw [Bool.eq_iff_iff, Bool.and_eq_true, decide_eq_true_eq, decide_eq_true_eq]
  omega

end Juno.Walstore

namespace Juno.Consensus

open Juno.Tendermint List State
open Juno.Walstore (entries maxPrune atHeight)

variable {σ V H A : Type} [Hashed V H] [DecidableEq H] [DecidableEq A]

/-! ### What is left to do -/

variable {m : StateMachine σ V H A} {more l : List (Action V H A × StateMachine σ V H A)}
  {e : WALEntry V H A} {isReplaying : Bool} {p : Proposal V A}

section

variable (app : Application σ V) (vals : Validators A)

/-- What is left of `execute` can be carried out. The flushed entries have led to the actions `durable` and to
the height `top`, all entries so far to the actions `as` and the machine `s`. What is sent is durable; a block
that is committed is not before the chain, not after the durable height, nor after the height `limit` of the
machine in memory; what is pruned is on the chain; and `fin` holds of the machine of all entries. -/
def Todo (fin : StateMachine σ V H A → Prop) (limit : ℕ) : List (Action V H A) → ℕ → List (Action V H A) →
    StateMachine σ V H A → ℕ → List (Micro σ V H A) → Prop
  | _, _, _, s, _, [] => fin s
  | durable, top, as, s, head, .setWALEntry e after :: rest =>
    s.Follows app e ∧ Alike vals Set.univ (s.processWAL app e).2 after ∧
      Todo fin limit durable top (as ++ (s.processWAL app e).1) (s.processWAL app e).2 head rest
  | _, _, as, s, head, .flush :: rest => Todo fin limit as s.state.height as s head rest
  | durable, top, as, s, head, .broadcast a :: rest => a ∈ durable ∧ Todo fin limit durable top as s head rest
  | durable, top, as, s, head, .onCommit p :: rest =>
    (head ≤ p.height ∧ p.height < top ∧ p.height < limit) ∧ Todo fin limit durable top as s p.height rest
  | durable, top, as, s, head, .deleteWALEntries height :: rest =>
    height ≤ head ∧ Todo fin limit durable top as s head rest
  | _, _, _, s, _, .committed :: rest => rest = [] ∧ fin s

variable {app vals} {fin : StateMachine σ V H A → Prop} {limit top head : ℕ}
  {durable as : List (Action V H A)}
  {s s' : StateMachine σ V H A}

theorem todo_commit (hhead : head ≤ p.height) (htop : p.height < top) (hlimit : p.height < limit)
    (hfin : fin s) : Todo app vals fin limit durable top as s head (commit p) :=
  ⟨⟨hhead, htop, hlimit⟩, le_rfl, rfl, hfin⟩

/-- Actions that are known are executed: in a replay they are durable, and else the log is flushed before
them. After a commit nothing is executed. -/
theorem todo_execute {l : List (Action V H A)} (hknown : ∀ a ∈ l, a.isVisible = true → a ∈ as)
    (hlog : isReplaying = false → ∀ e, .writeWAL e ∉ l)
    (hcommit : ∀ p, .commit p ∈ l → head ≤ p.height ∧ p.height < s.state.height ∧ p.height < limit ∧ fin s)
    (hmore : (∀ p, .commit p ∉ l) → ∀ durable top,
      (isReplaying = true → durable = as ∧ top = s.state.height) →
      Todo app vals fin limit durable top as s head (execute isReplaying more))
    (hdurable : isReplaying = true → durable = as ∧ top = s.state.height) :
    Todo app vals fin limit durable top as s head
      (execute isReplaying (l.map (fun a => (a, m)) ++ more)) := by
  induction l generalizing durable top with
  | nil => exact hmore (fun p => not_mem_nil) _ _ hdurable
  | cons a l ih =>
    have hmem : ∀ {a'}, a' ∈ l → a' ∈ a :: l := fun h => mem_cons_of_mem _ h
    have hrest : a.isCommit = false → ∀ {durable top},
      (isReplaying = true → durable = as ∧ top = s.state.height) →
        Todo app vals fin limit durable top as s head
          (execute isReplaying (l.map (fun a => (a, m)) ++ more)) :=
      fun ha _ _ hdurable => ih (fun a' ha' => hknown a' (hmem ha')) (fun hl e he => hlog hl e (hmem he))
        (fun p hp => hcommit p (hmem hp))
        (fun hno => hmore fun p hp => (mem_cons.mp hp).elim (a.ne_commit ha p) (hno p)) hdurable
    have hsend : a.isVisible = true → a.isCommit = false →
        Todo app vals fin limit durable top as s head
          ((if !isReplaying && true then [.flush] else []) ++
            .broadcast a :: execute isReplaying (l.map (fun a => (a, m)) ++ more)) := by
      intro hvisible ha
      have hin := hknown a mem_cons_self hvisible
      cases isReplaying with
      | true => exact ⟨(hdurable rfl).1 ▸ hin, hrest ha hdurable⟩
      | false => exact ⟨hin, hrest ha fun hr => absurd hr Bool.false_ne_true⟩
    rw [map_cons, cons_append]
    cases a with
    | writeWAL e =>
      cases isReplaying with
      | true => exact hrest rfl hdurable
      | false => exact absurd mem_cons_self (hlog rfl e)
    | broadcastProposal | broadcastPrevote | broadcastPrecommit => exact hsend rfl rfl
    | scheduleTimeout | triggerSync =>
      cases isReplaying with
      | true | false => exact hrest rfl hdurable
    | commit p =>
      obtain ⟨hhead, htop, hlimit, hfin⟩ := hcommit p mem_cons_self
      cases isReplaying with
      | true => exact todo_commit hhead ((hdurable rfl).2 ▸ htop) hlimit hfin
      | false => exact todo_commit hhead htop hlimit hfin

section

omit [Hashed V H] [DecidableEq H] [DecidableEq A]

/-- `execute` returns true if there is a commit among the actions. -/
theorem committed_mem_execute : .committed ∈ execute isReplaying l ↔ ∃ p m, (.commit p, m) ∈ l := by
  induction l with
  | nil => simp [execute]
  | cons x l ih =>
    obtain ⟨a, m⟩ := x
    cases a with
    | commit p =>
      refine ⟨fun _ => ⟨p, m, mem_cons_self⟩, fun _ => ?_⟩
      simp [execute, commit]
    | _ => simp [execute, ih]

theorem setWALEntry_notMem_execute : .setWALEntry e m ∉ execute true l := by
  induction l with
  | nil => exact not_mem_nil
  | cons x l ih =>
    obtain ⟨a, m'⟩ := x
    cases a <;> simp [execute, commit, ih]

end

end

/-! ### Inputs -/

section

variable {app : Application σ V} {vals : Validators A} (hfixed : app.Fixed)
  (hpos : ∀ height, 1 ≤ q (vals.totalVotingPower height))
  {limit top head : ℕ} {durable as : List (Action V H A)} {s m last : StateMachine σ V H A}
    {e : WALEntry V H A}
include hfixed hpos

theorem follows_of_alike {s' : StateMachine σ V H A} (h : Alike vals Set.univ s s')
    (hf : s.Follows app e) : s'.Follows app e := by
  cases e with
  | start height =>
    have hend := (h.processStart hfixed hpos (Set.mem_univ _) 0).2
    exact ⟨hf.1.trans (congrArg State.height h.state.symm),
      (congrArg State.height hend.state).trans (hf.2.trans (congrArg State.height h.state.symm))⟩
  | timeout tm => exact ⟨hf.1.trans (congrArg height h.state.symm), h.started.trans hf.2.1, hf.2.2⟩
  | proposal | prevote | precommit => exact (congrArg height h.state).le.trans hf

/-- What an input that is logged leaves to do: its entry, and then its actions. -/
theorem todo_logged (hlike : Alike vals Set.univ s m) (hhead : head < m.state.height)
    {acts : List (Action V H A)} (hacts : (m.processWAL app e).1 = .writeWAL e :: acts)
    (hvisible : ∀ a ∈ acts, a.isVisible = true) (hfollows : m.Follows app e)
    (hcommit : ∀ p, .commit p ∈ acts → p.height = m.state.height ∧
      (m.processWAL app e).2.state.height = m.state.height + 1)
    (hmore : (∀ p, .commit p ∉ acts) → ∀ durable top as s, Alike vals Set.univ s (m.processWAL app e).2 →
      Todo app vals (Alike vals Set.univ · last) limit durable top as s head (execute false more))
    (hlast : (∃ p, .commit p ∈ acts) → Alike vals Set.univ (m.processWAL app e).2 last ∧
      (m.processWAL app e).2.state.height ≤ limit) :
    Todo app vals (Alike vals Set.univ · last) limit durable top as s head
      (execute false ((m.processWAL app e).1.map (fun a => (a, (m.processWAL app e).2)) ++ more)) := by
  obtain ⟨hsame, hend⟩ := hlike.processWAL hfixed hpos (Set.mem_univ _) e
  rw [hacts, map_cons, cons_append]
  refine ⟨follows_of_alike hfixed hpos hlike.symm hfollows, hend, ?_⟩
  have hown : visible (m.processWAL app e).1 = acts := by
    rw [hacts]
    exact filter_eq_self.mpr hvisible
  refine todo_execute (fun a ha _ => ?_) (fun _ e' he' => ?_) (fun p hp => ?_) (fun hno durable top _ => ?_)
    fun h => absurd h Bool.false_ne_true
  · rw [← hown, hsame] at ha
    exact mem_append_right _ (mem_of_mem_visible ha)
  · have := hvisible _ he'
    cases this
  · obtain ⟨hp', hup⟩ := hcommit p hp
    obtain ⟨hafter, hlimit⟩ := hlast ⟨p, hp⟩
    have hheight : (s.processWAL app e).2.state.height = (m.processWAL app e).2.state.height :=
      congrArg height hend.state.symm
    exact ⟨by omega, by omega, by omega, hend.trans hafter⟩
  · exact hmore hno durable top _ _ hend

omit hfixed hpos in
theorem height_of_commit (hinv : CounterInv vals m) (hfollows : m.Follows app e)
    (hp : .commit p ∈ (m.processWAL app e).1) : e.height = m.state.height := by
  by_contra hne
  have hlt : m.state.height < e.height := lt_of_le_of_ne hfollows.le (Ne.symm hne)
  have hnone := (processWAL_counts app hinv (hfollows.isMessage hlt) hlt.le (.inl hne)).1
  have hvisible : .commit p ∈ visible (m.processWAL app e).1 := mem_filter.mpr ⟨hp, rfl⟩
  rw [hnone] at hvisible
  cases hvisible

end

variable (app : Application σ V)

/-- The messages of an input are accepted, one after the other. -/
def AcceptsAll (m : StateMachine σ V H A) : List (WALEntry V H A) → Prop
  | [] => True
  | e :: es => m.Accepts app e ∧ AcceptsAll (m.processWAL app e).2 es

section

variable {app} {vals : Validators A} {head : ℕ} {m : StateMachine σ V H A} {e : WALEntry V H A}
  {es : List (WALEntry V H A)}

theorem feed_past (hfixed : app.Fixed) (hinv : CounterInv vals m) (haccepts : AcceptsAll app m es)
    (hpast : ∀ e ∈ es, e.isMessage = true ∧ e.height < m.state.height) :
    (feed app m es).1 = [] ∧ Alike vals Set.univ m (feed app m es).2 := by
  induction es generalizing m with
  | nil => exact ⟨rfl, .refl hinv⟩
  | cons e es ih =>
    obtain ⟨hmessage, hlt⟩ := hpast e mem_cons_self
    have hready : m.Ready e := by
      cases e with
      | start | timeout => cases hmessage
      | _ => exact .inr hlt
    cases handled hinv hfixed haccepts.1 hready with
    | silent hnil hsame =>
      obtain ⟨hnone, hend⟩ := ih hsame.symm.inv haccepts.2 fun e' he' => by
        rw [congrArg height hsame.state]
        exact hpast e' (mem_cons_of_mem _ he')
      exact ⟨by rw [feed, hnil, hnone]; rfl, hsame.trans hend⟩
    | logged as hacts hvisible hfollows => exact absurd hfollows.le (not_le.mpr hlt)

variable (app vals head m es) in
/-- What the messages of an input lead to. -/
structure Fed : Prop where
  todo : ∀ durable top as s, Alike vals Set.univ s m →
    Todo app vals (Alike vals Set.univ · (feed app m es).2) (feed app m es).2.state.height
      durable top as s head
      (execute false (feed app m es).1)
  started : (feed app m es).2.isHeightStarted = false ↔ .committed ∈ execute false (feed app m es).1
  height : m.state.height ≤ (feed app m es).2.state.height

theorem processWAL_height_le (app : Application σ V) (hinv : CounterInv vals m) (e : WALEntry V H A) :
    m.state.height ≤ (m.processWAL app e).2.state.height := by
  rcases (processWAL_advances app hinv e).state with heq | ⟨heq, -⟩
  · exact heq.ge
  · rw [heq]
    exact Nat.le_succ _

variable (hfixed : app.Fixed) (hpos : ∀ height, 1 ≤ q (vals.totalVotingPower height))
include hfixed hpos

/-- One message in front of others, which are all past if it decides the height. -/
theorem Fed.cons (hinv : CounterInv vals m) (hhead : head < m.state.height) (hhandled : Handled app vals m e)
    (hsilent : (m.processWAL app e).1 = [] → m.isHeightStarted = true)
    (hrest : (m.processWAL app e).2.isHeightStarted = true → Fed app vals head (m.processWAL app e).2 es)
    (hpast : e.height = m.state.height → (m.processWAL app e).2.state.height = m.state.height + 1 →
      (feed app (m.processWAL app e).2 es).1 = [] ∧
        Alike vals Set.univ (m.processWAL app e).2 (feed app (m.processWAL app e).2 es).2) :
    Fed app vals head m (e :: es) := by
  have hle := processWAL_height_le app hinv e
  cases hhandled with
  | silent hnil hsame =>
    have hfed := hrest (hsame.started.trans (hsilent hnil))
    have hfirst : (feed app m (e :: es)).1 = (feed app (m.processWAL app e).2 es).1 := by
      rw [feed, hnil]
      rfl
    refine ⟨fun durable top as s hlike => ?_, ?_, hle.trans hfed.height⟩
    · rw [hfirst]
      exact hfed.todo durable top as s (hlike.trans hsame)
    · rw [hfirst]
      exact hfed.started
  | logged acts hacts hvisible hfollows hcommit hstarted =>
    by_cases hdecided : ∃ p, .commit p ∈ acts
    · obtain ⟨p, hp⟩ := hdecided
      have hheight := height_of_commit hinv hfollows (hacts ▸ mem_cons_of_mem _ hp)
      obtain ⟨hnone, hend⟩ := hpast hheight (hcommit p hp).2
      have hlast :
          (feed app (m.processWAL app e).2 es).2.state.height = (m.processWAL app e).2.state.height :=
        congrArg State.height hend.state
      refine ⟨fun durable top as s hlike => ?_, ?_, hle.trans hlast.ge⟩
      · exact todo_logged hfixed hpos hlike hhead hacts hvisible hfollows hcommit
          (fun hno => absurd hp (hno p)) fun _ => ⟨hend, hlast.ge⟩
      · rw [committed_mem_execute]
        refine iff_of_true (hend.started.trans (hstarted.mpr ⟨p, hp⟩)) ⟨p, (m.processWAL app e).2,
          mem_append_left _ ?_⟩
        rw [hacts]
        exact mem_map.mpr ⟨_, mem_cons_of_mem _ hp, rfl⟩
    · have hno : ∀ p, .commit p ∉ acts := fun p hp => hdecided ⟨p, hp⟩
      have hfed := hrest (Bool.eq_true_of_not_eq_false fun hc => hdecided (hstarted.mp hc))
      refine ⟨fun durable top as s hlike => ?_, ?_, hle.trans hfed.height⟩
      · exact todo_logged hfixed hpos hlike hhead hacts hvisible hfollows hcommit (fun _ => hfed.todo)
          fun hdec => absurd hdec hdecided
      · rw [committed_mem_execute]
        refine hfed.started.trans
          (committed_mem_execute.trans (exists_congr fun p => exists_congr fun m' => ?_))
        refine ⟨mem_append_right _, fun hmem => (mem_append.mp hmem).resolve_left fun hc => ?_⟩
        obtain ⟨a, ha, heq⟩ := mem_map.mp hc
        obtain rfl : a = .commit p := congrArg Prod.fst heq
        rw [hacts] at ha
        exact hno p ((mem_cons.mp ha).resolve_left (by simp))

omit hfixed hpos in
theorem fed_nil (hstarted : m.isHeightStarted = true) : Fed app vals head m [] := by
  refine ⟨fun durable top as s hlike => hlike, ?_, le_rfl⟩
  simp [feed, execute, hstarted]

theorem fed_singleton (hinv : CounterInv vals m) (hhead : head < m.state.height)
    (hhandled : Handled app vals m e) (hsilent : (m.processWAL app e).1 = [] → m.isHeightStarted = true) :
    Fed app vals head m [e] :=
  Fed.cons hfixed hpos hinv hhead hhandled hsilent fed_nil fun _ _ => ⟨rfl, .refl (hinv.processWAL app _)⟩

theorem fed_start (hinv : CounterInv vals m) (hhead : head < m.state.height)
    (haccepts : m.Accepts app (.start m.state.height)) : Fed app vals head m [.start m.state.height] := by
  have hsilent : (m.processWAL app (.start m.state.height)).1 = [] → m.isHeightStarted = true := by
    intro hnil
    by_contra hs
    simp [StateMachine.processWAL, StateMachine.processStart, hs] at hnil
  exact fed_singleton hfixed hpos hinv hhead (handled hinv hfixed haccepts rfl) hsilent

theorem fed_input (hinv : CounterInv vals m) (hhead : head < m.state.height)
    (hstarted : m.isHeightStarted = true) (i : Input V H A) (haccepts : AcceptsAll app m i.entries) :
    Fed app vals head m i.entries := by
  have hone : ∀ e, m.Accepts app e → m.Ready e → Fed app vals head m [e] := fun e haccepts hready =>
    fed_singleton hfixed hpos hinv hhead (handled hinv hfixed haccepts hready) fun _ => hstarted
  cases i with
  | timeout tm => exact hone _ haccepts.1 hstarted
  | proposal | prevote | precommit => exact hone _ haccepts.1 (.inl hstarted)
  | sync height round sequencer sender value =>
    refine Fed.cons hfixed hpos hinv hhead (handled hinv hfixed haccepts.1 (.inl hstarted))
      (fun _ => hstarted)
      (fun hstarted' => ?_) fun hheight hup => ?_
    · have hle :=
          processWAL_height_le app hinv (.proposal (extract (H := H) height round sequencer sender value).1)
      exact fed_singleton hfixed hpos (hinv.processWAL app _) (by omega)
        (handled (hinv.processWAL app _) hfixed haccepts.2.1 (.inl hstarted')) fun _ => hstarted'
    · refine feed_past hfixed (hinv.processWAL app _) haccepts.2 fun e he => ?_
      obtain rfl := mem_singleton.mp he
      refine ⟨rfl, ?_⟩
      rw [hup]
      exact Nat.lt_succ_of_le hheight.le

end

/-! ### The invariant -/

variable {rest : List (WALEntry V H A)} {height : ℕ}

namespace Driver

section

variable (vals : Validators A) (node : A) (b : ℕ)

/-- What was flushed has led to the actions `durable` and to the machine `t`: everything that was sent is
among them, and the chain has not got further. -/
structure Durable (d : Driver σ V H A) (durable : List (Action V H A)) (t : StateMachine σ V H A) : Prop where
  logs : Logs app vals node b (entries d.db.flushed) durable t
  sent : ∀ a ∈ d.sent, a ∈ durable
  head : d.head < t.state.height
  settled : Alike vals Set.univ t d.settled
  pruned : maxPrune d.db.flushed ≤ d.head

structure Loaded (d : Driver σ V H A) (durable : List (Action V H A)) (t : StateMachine σ V H A)
    (as : List (Action V H A)) (s : StateMachine σ V H A) :
      Prop extends Durable app vals node b d durable t where
  isOpen : d.db.Open
  all : Logs app vals node b (entries d.db.flushed ++ entries d.db.pending) as s
  sub : ∀ a ∈ durable, a ∈ as
  top : t.state.height ≤ s.state.height
  logged : Alike vals Set.univ s d.logged
  pruning : maxPrune d.db.pending ≤ d.head

/-- The driver is in the loop of `replay`: its machine has replayed a part of what is in the log. -/
structure Replaying (d : Driver σ V H A) (t : StateMachine σ V H A) (rest : List (WALEntry V H A)) :
    Prop where
  pending : entries d.db.pending = []
  quiet : ∀ e m, .setWALEntry e m ∉ d.todo
  replayed : ∃ a c done, b ≤ c ∧ c ≤ t.state.height ∧
    (done ++ rest).Pairwise (fun e e' => e.height ≤ e'.height) ∧
    (∀ k, c ≤ k →
      atHeight WALEntry.height (done ++ rest) k = atHeight WALEntry.height (entries d.db.flushed) k) ∧
    d.stateMachine = ((new node a vals c).replay app done).2

/-- What holds at the places of `Run`. -/
def Placed (d : Driver σ V H A) (durable : List (Action V H A)) (t : StateMachine σ V H A)
    (as : List (Action V H A)) (s : StateMachine σ V H A) :
    Phase V H A → Prop
  | .stopped => False
  | .starting => d.todo = [] ∧ Alike vals Set.univ s d.stateMachine
  | .listening =>
    Todo app vals (Alike vals Set.univ · d.stateMachine) d.stateMachine.state.height durable
      t.state.height as s d.head
        d.todo ∧
      (d.stateMachine.isHeightStarted = false ↔ .committed ∈ d.todo)
  | .replaying rest =>
    Todo app vals (fun _ => True) d.stateMachine.state.height durable t.state.height as s d.head d.todo ∧
      as = durable ∧ s = t ∧ Replaying app vals node b d t rest

structure Inv (d : Driver σ V H A) : Prop where
  wal : d.db.Inv WALEntry.height
  nodeAddr : d.stateMachine.nodeAddr = node
  base : b ≤ d.head + 1
  /-- The process does not run, or it is at one of the places. -/
  place : (d.phase = .stopped ∧ ¬ d.db.Open ∧ ∃ durable t, Durable app vals node b d durable t) ∨
    ∃ durable t as s, Loaded app vals node b d durable t as s ∧ d.head < d.stateMachine.state.height ∧
      Placed app vals node b d durable t as s d.phase

end

/-- What an event has to meet: the messages of an input, and a start, are accepted by the machine; a block
fetch fails only when there is nothing that would be executed again. -/
def Admits (d : Driver σ V H A) : Event σ V H A → Prop
  | .next =>
    d.phase = .starting → d.todo = [] → d.stateMachine.Accepts app (.start d.stateMachine.state.height)
  | .input i => d.phase = .listening → d.todo = [] → AcceptsAll app d.stateMachine i.entries
  | .syncFailed => d.phase = .listening → d.todo = [] → d.actions = []
  | _ => True

def AdmitsAll (vals : Validators A) (d : Driver σ V H A) : List (Event σ V H A) → Prop
  | [] => True
  | event :: events => d.Admits app event ∧ (d.step app vals event).AdmitsAll vals events

variable {app} {vals : Validators A} {node : A} {b : ℕ} {d : Driver σ V H A}
  {durable as : List (Action V H A)}
  {t s : StateMachine σ V H A}

/-! ### The store -/

variable {db : Walstore.System (WALEntry V H A)} {d' : Driver σ V H A}

/-- What is durable depends on the flushed records, and on what was sent and settled. -/
theorem Durable.congr (h : Durable app vals node b d durable t)
    (hflushed : d'.db.flushed = d.db.flushed) (hsent : d'.sent = d.sent) (hhead : d'.head = d.head)
    (hsettled : d'.settled = d.settled) : Durable app vals node b d' durable t := by
  refine ⟨?_, ?_, ?_, ?_, ?_⟩
  · rw [hflushed]
    exact h.logs
  · rw [hsent]
    exact h.sent
  · rw [hhead]
    exact h.head
  · rw [hsettled]
    exact h.settled
  · rw [hflushed, hhead]
    exact h.pruned

section

variable (h : Loaded app vals node b d durable t as s)
include h

theorem Loaded.durable_written (hdb : d.db.FlushedOrNot db) :
    if db.pending = [] then Durable app vals node b (d.written db) as s
      else Durable app vals node b (d.written db) durable t := by
  have hsent : ∀ a ∈ d.sent, a ∈ as := fun a ha => h.sub a (h.sent a ha)
  by_cases hempty : db.pending = []
  · rw [if_pos hempty]
    have hsettled : (d.written db).settled = d.logged := by simp [written, hempty]
    have hflushed : entries db.flushed = entries d.db.flushed ++ entries d.db.pending ∧
        maxPrune db.flushed ≤ d.head := by
      rcases hdb with ⟨hf, -⟩ | ⟨hf, hp⟩
      · rw [hf]
        exact ⟨Walstore.entries_append _ _, by simpa using ⟨h.pruned, h.pruning⟩⟩
      · rw [hf, ← hp, hempty]
        exact ⟨(append_nil _).symm, h.pruned⟩
    refine ⟨?_, hsent, h.head.trans_le h.top, by rw [hsettled]; exact h.logged, hflushed.2⟩
    change Logs app vals node b (entries db.flushed) as s
    rw [hflushed.1]
    exact h.all
  · rw [if_neg hempty]
    have hsettled : (d.written db).settled = d.settled := by simp [written, hempty]
    have hflushed : db.flushed = d.db.flushed := (hdb.resolve_left fun hc => hempty hc.2).1
    exact h.toDurable.congr hflushed rfl rfl hsettled

theorem Loaded.flushed (hflushed : db.flushed = d.db.flushed ++ d.db.pending)
    (hpending : db.pending = []) (hopen : db.Open) : Loaded app vals node b (d.written db) as s as s := by
  have hdurable := h.durable_written (.inl ⟨hflushed, hpending⟩)
  rw [if_pos hpending] at hdurable
  refine ⟨hdurable, hopen, ?_, fun a ha => ha, le_rfl, h.logged, ?_⟩
  · change Logs app vals node b (entries db.flushed ++ entries db.pending) as s
    rw [hflushed, hpending, Walstore.entries_append]
    exact (append_nil _).symm ▸ h.all
  · change maxPrune db.pending ≤ d.head
    rw [hpending]
    exact Nat.zero_le _

/-- After a flush that may have failed, `Run` returns. -/
theorem Loaded.stop (hwal : d.db.Inv WALEntry.height) (hnode : d.stateMachine.nodeAddr = node)
    (hbase : b ≤ d.head + 1) (closing : Walstore.CleanFaults) : Inv app vals node b (d.stop closing) := by
  refine ⟨(hwal.step _ closing.clean_close).inv, hnode, hbase, .inl ⟨rfl, d.db.not_open_close closing.1, ?_⟩⟩
  have hdurable := h.durable_written (Walstore.System.close_effect WALEntry.height d.db closing.1)
  split at hdurable
  · exact ⟨as, s, hdurable.congr rfl rfl rfl rfl⟩
  · exact ⟨durable, t, hdurable.congr rfl rfl rfl rfl⟩

theorem Loaded.written (hdb : d.db.FlushedOrNot db) (hopen : db.Open) :
    ∃ durable t, Loaded app vals node b (d.written db) durable t as s := by
  rcases hdb with ⟨hflushed, hpending⟩ | ⟨hflushed, hpending⟩
  · exact ⟨as, s, h.flushed hflushed hpending hopen⟩
  · have hall :
        Logs app vals node b (entries (d.written db).db.flushed ++ entries (d.written db).db.pending) as
        s := by
      change Logs app vals node b (entries db.flushed ++ entries db.pending) as s
      rw [hflushed, hpending]
      exact h.all
    have hpruning : maxPrune (d.written db).db.pending ≤ d.head := by
      change maxPrune db.pending ≤ d.head
      rw [hpending]
      exact h.pruning
    have hdurable := h.durable_written (.inr ⟨hflushed, hpending⟩)
    split at hdurable
    · exact ⟨as, s, hdurable, hopen, hall, fun a ha => ha, le_rfl, h.logged, hpruning⟩
    · exact ⟨durable, t, hdurable, hopen, hall, h.sub, h.top, h.logged, hpruning⟩

theorem Loaded.setWALEntry (hfollows : s.Follows app e) {after : StateMachine σ V H A}
    (hafter : Alike vals Set.univ (s.processWAL app e).2 after) (rest : List (Micro σ V H A)) :
    Loaded app vals node b
      { d with db := d.db.step WALEntry.height (.setWALEntry e), logged := after, todo := rest }
      durable t (as ++ (s.processWAL app e).1) (s.processWAL app e).2 := by
  have hrecorded := Walstore.System.setWALEntry_effect WALEntry.height h.isOpen e
  generalize d.db.step WALEntry.height (.setWALEntry e) = db at hrecorded
  have hcounter : CounterInv vals s := h.logged.inv
  refine ⟨h.toDurable.congr hrecorded.flushed rfl rfl rfl, hrecorded.isOpen, ?_,
    fun a ha => mem_append_left _ (h.sub a ha),
    h.top.trans (processWAL_height_le app hcounter e), hafter, ?_⟩
  · change Logs app vals node b (entries db.flushed ++ entries db.pending) _ _
    rw [hrecorded.flushed, hrecorded.pending, Walstore.entries_append, ← append_assoc]
    exact h.all.snoc hfollows
  · change maxPrune db.pending ≤ d.head
    rw [hrecorded.pending, Walstore.maxPrune_append]
    exact max_le h.pruning (Nat.zero_le _)

theorem Loaded.deleteWALEntries (hle : height ≤ d.head) (rest : List (Micro σ V H A)) :
    Loaded app vals node b { d with db := d.db.step WALEntry.height (.deleteWALEntries height), todo := rest }
        durable t as s ∧
      entries (d.db.step WALEntry.height (.deleteWALEntries height)).flushed = entries d.db.flushed ∧
      entries (d.db.step WALEntry.height (.deleteWALEntries height)).pending = entries d.db.pending := by
  have hrecorded := Walstore.System.deleteWALEntries_effect WALEntry.height h.isOpen height
  generalize d.db.step WALEntry.height (.deleteWALEntries height) = db at hrecorded
  have hentries : entries db.pending = entries d.db.pending := by
    rw [hrecorded.pending, Walstore.entries_append]
    exact append_nil _
  refine ⟨⟨h.toDurable.congr hrecorded.flushed rfl rfl rfl, hrecorded.isOpen, ?_, h.sub, h.top, h.logged, ?_⟩,
    by rw [hrecorded.flushed], hentries⟩
  · change Logs app vals node b (entries db.flushed ++ entries db.pending) _ _
    rw [hentries, hrecorded.flushed]
    exact h.all
  · change maxPrune db.pending ≤ d.head
    rw [hrecorded.pending, Walstore.maxPrune_append, Walstore.maxPrune_singleton]
    exact max_le h.pruning hle

theorem Loaded.broadcast {a : Action V H A} (ha : a ∈ durable) (rest : List (Micro σ V H A)) :
    Loaded app vals node b { d with sent := d.sent ++ [a], todo := rest } durable t as s := by
  refine { h with sent := fun a' ha' => ?_ }
  rcases mem_append.mp ha' with ha' | ha'
  · exact h.sent a' ha'
  · rwa [mem_singleton.mp ha']

theorem Loaded.onCommit (hhead : d.head ≤ height) (htop : height < t.state.height)
    (rest : List (Micro σ V H A)) :
    Loaded app vals node b { d with head := height, todo := rest } durable t as s :=
  { h with head := htop, pruned := h.pruned.trans hhead, pruning := h.pruning.trans hhead }

theorem Loaded.todo (m : StateMachine σ V H A) (phase : Phase V H A)
    (actions : List (Action V H A)) (rest : List (Micro σ V H A)) :
    Loaded app vals node b { d with stateMachine := m, phase := phase, actions := actions, todo := rest }
      durable t as s :=
  { h with }

end

theorem Replaying.of_entries (h : Replaying app vals node b d t rest)
    (hflushed : entries d'.db.flushed = entries d.db.flushed)
    (hpending : entries d'.db.pending = []) (htodo : ∀ x ∈ d'.todo, x ∈ d.todo)
    (hmachine : d'.stateMachine = d.stateMachine) : Replaying app vals node b d' t rest where
  pending := hpending
  quiet e m hmem := h.quiet e m (htodo _ hmem)
  replayed := by
    rw [hflushed, hmachine]
    exact h.replayed

/-! ### Events -/

/-- A step of `execute` that is not its end: the driver stays where it is. -/
theorem Placed.resume (h : Placed app vals node b d durable t as s d.phase) {x : Micro σ V H A}
    {rest : List (Micro σ V H A)} (htodo : d.todo = x :: rest) (hx : x ≠ .committed)
    {durable' as' : List (Action V H A)} {t' s' : StateMachine σ V H A}
    (hmachine : d'.stateMachine = d.stateMachine) (hphase : d'.phase = d.phase) (hrest : d'.todo = rest)
    (hdo : ∀ fin, Todo app vals fin d.stateMachine.state.height durable t.state.height as s d.head
      (x :: rest) →
      Todo app vals fin d.stateMachine.state.height durable' t'.state.height as' s' d'.head rest)
    (hreplay : entries d.db.pending = [] → as = durable → s = t → (∀ e m, x ≠ .setWALEntry e m) →
      as' = durable' ∧ s' = t' ∧ t' = t ∧ entries d'.db.flushed = entries d.db.flushed ∧
      entries d'.db.pending = []) :
    Placed app vals node b d' durable' t' as' s' d'.phase := by
  rw [hphase]
  cases hwhere : d.phase with
  | stopped =>
    rw [hwhere] at h
    exact h
  | starting =>
    rw [hwhere] at h
    exact absurd h.1 (by simp [htodo])
  | listening =>
    rw [hwhere, Placed, htodo] at h
    rw [Placed, hmachine, hrest]
    exact ⟨hdo _ h.1, h.2.trans (by simp [Ne.symm hx])⟩
  | replaying left =>
    rw [hwhere, Placed, htodo] at h
    obtain ⟨hnow, rfl, rfl, hreplaying⟩ := h
    obtain ⟨has, hs, ht, hflushed, hpending⟩ := hreplay hreplaying.pending rfl rfl fun e m hc =>
      hreplaying.quiet e m (by rw [htodo, hc]; exact mem_cons_self)
    rw [Placed, hmachine, hrest]
    refine ⟨hdo _ hnow, has, hs, ?_⟩
    rw [ht]
    exact hreplaying.of_entries hflushed hpending (fun y hy => htodo ▸ mem_cons_of_mem _ (hrest ▸ hy))
      hmachine

theorem Inv.exec (h : Inv app vals node b d) (faults closing : Walstore.CleanFaults) (result : CommitResult)
    (hrunning : d.phase ≠ .stopped) : Inv app vals node b (d.exec faults closing result) := by
  obtain ⟨durable, t, as, s, hload, hhead, hplaced⟩ := h.place.resolve_left fun hc => hrunning hc.1
  have hopen : d.isOpen = true := by
    obtain ⟨store, hstore, hclosed⟩ := hload.isOpen
    simp [isOpen, hstore, hclosed]
  have hnow : ∀ {x rest}, d.todo = x :: rest → ∃ fin,
      Todo app vals fin d.stateMachine.state.height durable t.state.height as s d.head (x :: rest) := by
    intro x rest htodo
    cases hwhere : d.phase with
    | stopped => exact absurd hwhere hrunning
    | starting =>
      rw [hwhere] at hplaced
      exact absurd hplaced.1 (by simp [htodo])
    | listening | replaying =>
      rw [hwhere, Placed, htodo] at hplaced
      exact ⟨_, hplaced.1⟩
  unfold Driver.exec
  cases htodo : d.todo with
  | nil => exact h
  | cons x rest =>
    obtain ⟨fin, hthis⟩ := hnow htodo
    cases x with
    | setWALEntry e after =>
      simp only [hopen, if_true]
      refine ⟨(h.wal.step (.setWALEntry e) rfl).inv, h.nodeAddr, h.base,
        .inr ⟨durable, t, _, _, hload.setWALEntry hthis.1 hthis.2.1 rest, hhead, ?_⟩⟩
      exact hplaced.resume htodo (by simp) rfl rfl rfl (fun fin h => h.2.2)
        fun _ _ _ hc => absurd rfl (hc e after)
    | flush =>
      obtain ⟨hdb, hopen', hok⟩ := Walstore.System.flush_effect h.wal hload.isOpen faults.2
      simp only
      split
      next hflushes =>
        obtain ⟨hflushed, hpending⟩ := hok hflushes
        have hload' := hload.flushed hflushed hpending hopen'
        refine ⟨(h.wal.step _ faults.clean_flush).inv, h.nodeAddr, h.base,
          .inr ⟨as, s, as, s, hload'.todo _ _ _ rest, hhead, ?_⟩⟩
        refine hplaced.resume htodo (by simp) rfl rfl rfl (fun fin h => h)
          fun hnone has hs _ => ⟨rfl, rfl, hs, ?_, ?_⟩
        · change entries (d.db.step WALEntry.height (.flush faults.1)).flushed = _
          rw [hflushed, Walstore.entries_append, hnone, append_nil]
        · change entries (d.db.step WALEntry.height (.flush faults.1)).pending = _
          rw [hpending]
          rfl
      next =>
        obtain ⟨durable', t', hload'⟩ := hload.written hdb hopen'
        exact hload'.stop (h.wal.step _ faults.clean_flush).inv h.nodeAddr h.base closing
    | broadcast a =>
      refine ⟨h.wal, h.nodeAddr, h.base, .inr ⟨durable, t, as, s, hload.broadcast hthis.1 rest, hhead, ?_⟩⟩
      exact hplaced.resume htodo (by simp) rfl rfl rfl (fun fin h => h.2)
        fun hnone has hs _ => ⟨has, hs, rfl, rfl, hnone⟩
    | onCommit p =>
      obtain ⟨⟨hle, htop, hlimit⟩, -⟩ := hthis
      have hload' := hload.onCommit hle htop rest
      cases result with
      | done =>
        refine ⟨h.wal, h.nodeAddr, h.base.trans (Nat.succ_le_succ hle),
          .inr ⟨durable, t, as, s, hload', hlimit, ?_⟩⟩
        exact hplaced.resume htodo (by simp) rfl rfl rfl (fun fin h => h.2)
          fun hnone has hs _ => ⟨has, hs, rfl, rfl, hnone⟩
      | failed persisted =>
        cases persisted with
        | true =>
          exact (hload.onCommit hle htop d.todo).stop h.wal h.nodeAddr (h.base.trans (Nat.succ_le_succ hle))
            closing
        | false => exact hload.stop h.wal h.nodeAddr h.base closing
    | deleteWALEntries height =>
      simp only [hopen, if_true]
      obtain ⟨hload', hflushed, hpending⟩ := hload.deleteWALEntries hthis.1 rest
      refine ⟨(h.wal.step (.deleteWALEntries height) rfl).inv, h.nodeAddr, h.base,
        .inr ⟨durable, t, as, s, hload', hhead, ?_⟩⟩
      exact hplaced.resume htodo (by simp) rfl rfl rfl (fun fin h => h.2) fun hnone has hs _ =>
        ⟨has, hs, rfl, hflushed, hpending.trans hnone⟩
    | committed =>
      refine ⟨h.wal, h.nodeAddr, h.base, .inr ⟨durable, t, as, s, hload.todo _ _ _ rest, hhead, ?_⟩⟩
      cases hwhere : d.phase with
      | stopped => exact absurd hwhere hrunning
      | starting =>
        rw [hwhere] at hplaced
        exact absurd hplaced.1 (by simp [htodo])
      | listening =>
        rw [hwhere, Placed, htodo] at hplaced
        exact ⟨hplaced.1.1, hplaced.1.2⟩
      | replaying left =>
        rw [hwhere, Placed, htodo] at hplaced
        obtain ⟨⟨rfl, -⟩, has, hs, hreplaying⟩ := hplaced
        exact ⟨trivial, has, hs, hreplaying.of_entries rfl hreplaying.pending (fun y hy => by cases hy) rfl⟩

theorem Inv.start (h : Inv app vals node b d) (hstopped : d.phase = .stopped) (a : σ) :
    Inv app vals node b (d.start vals a) := by
  obtain ⟨-, hclosed, durable, t, hdurable⟩ : d.phase = .stopped ∧ ¬ d.db.Open ∧ ∃ durable t,
      Durable app vals node b d durable t := by
    refine h.place.resolve_right ?_
    rintro ⟨durable, t, as, s, -, -, hplaced⟩
    rw [hstopped] at hplaced
    exact hplaced
  obtain ⟨hflushed, hpending, hopen⟩ := Walstore.System.reopen_effect h.wal hclosed
  have hwal := (h.wal.step .reopen rfl).inv
  unfold Driver.start
  generalize d.db.step WALEntry.height .reopen = db at hflushed hpending hopen hwal
  obtain ⟨store, hstore, hstoreOpen⟩ := hopen
  have hgroups := hwal.groups hstore
  simp only [hstore]
  refine ⟨hwal, h.nodeAddr, h.base, .inr ⟨durable, t, durable, t, ⟨hdurable.congr hflushed rfl rfl rfl,
    ⟨store, hstore, hstoreOpen⟩, ?_, fun a ha => ha, le_rfl, hdurable.settled, ?_⟩, Nat.lt_succ_self _,
      trivial, rfl, rfl, ?_⟩⟩
  · change Logs app vals node b (entries db.flushed ++ entries db.pending) durable t
    rw [hflushed, hpending]
    exact (append_nil _).symm ▸ hdurable.logs
  · change maxPrune db.pending ≤ d.head
    rw [hpending]
    exact Nat.zero_le _
  · refine ⟨by change entries db.pending = []; rw [hpending]; rfl, fun e m => not_mem_nil,
      a, d.head + 1, [], h.base, hdurable.head, hgroups.sorted, fun k hk => ?_, by rw [h.nodeAddr]; rfl⟩
    have hpruned : maxPrune db.flushed < k := by
      have := hdurable.pruned
      rw [hflushed]
      omega
    exact (hgroups.same k).trans (Walstore.atHeight_above hpruned _)

theorem feed_nodeAddr (hinv : CounterInv vals m) (es : List (WALEntry V H A)) :
    (feed app m es).2.nodeAddr = m.nodeAddr := by
  induction es generalizing m with
  | nil => rfl
  | cons e es ih => exact (ih (hinv.processWAL app e)).trans (processWAL_advances app hinv e).nodeAddr

section

/-- An input, whose messages lead to what is known of them. -/
theorem Inv.receive (h : Inv app vals node b d) (hload : Loaded app vals node b d durable t as s)
    (hhead : d.head < d.stateMachine.state.height) (hlike : Alike vals Set.univ s d.stateMachine)
    {es : List (WALEntry V H A)} (hfed : Fed app vals d.head d.stateMachine es) :
    Inv app vals node b (d.receive app es) :=
  ⟨h.wal, (feed_nodeAddr hlike.symm.inv es).trans h.nodeAddr, h.base,
    .inr ⟨durable, t, as, s, hload.todo _ _ _ _,
    hhead.trans_le hfed.height, hfed.todo _ _ _ _ hlike, hfed.started⟩⟩

variable (hfixed : app.Fixed) (hpos : ∀ height, 1 ≤ q (vals.totalVotingPower height))
include hfixed hpos

/-- The end of the loop of `replay`: the machine has everything that was logged. -/
theorem Replaying.done (h : Replaying app vals node b d t [])
    (hlogs : Logs app vals node b (entries d.db.flushed) durable t) :
    Alike vals Set.univ t d.stateMachine := by
  obtain ⟨a, c, done, hbc, hct, hsorted, hat, hmachine⟩ := h.replayed
  rw [append_nil] at hsorted hat
  rw [hmachine]
  exact (hlogs.replay hfixed hpos hsorted hbc hct hat a).1.symm

/-- An entry of the log is replayed: all that it leads to is durable. -/
theorem Replaying.step (h : Replaying app vals node b d t (e :: rest))
    (hlogs : Logs app vals node b (entries d.db.flushed) durable t)
    (hhead : d.head < d.stateMachine.state.height) (hle : d.stateMachine.state.height ≤ e.height) :
    Todo app vals (fun _ => True) (d.stateMachine.processWAL app e).2.state.height durable t.state.height
      durable t d.head
      (execute true (feed app d.stateMachine [e]).1) := by
  obtain ⟨a, c, done, hbc, hct, hsorted, hat, hmachine⟩ := h.replayed
  have hinv : CounterInv vals d.stateMachine := by
    rw [hmachine]
    exact (counterInv_new node a vals c).replay app done
  have hall := (hlogs.replay hfixed hpos hsorted hbc hct hat a).2
  have hacts : ∀ act ∈ (d.stateMachine.processWAL app e).1, act.isVisible = true → act ∈ durable := by
    intro act hact hvisible
    refine hall act (mem_filter.mpr ⟨?_, hvisible⟩)
    rw [replay_append, ← hmachine, ← singleton_append, replay_append, replay_singleton app hle]
    exact mem_append_right _ (mem_append_left _ hact)
  refine todo_execute hacts (fun hc => absurd hc (by simp)) (fun p hp => ?_) (fun _ _ _ _ => trivial)
    fun _ => ⟨rfl, rfl⟩
  obtain ⟨hheight, hup⟩ := processWAL_commit hinv hp
  exact ⟨by omega, hlogs.commit_lt (hacts _ hp rfl), by omega, trivial⟩

theorem Inv.next (h : Inv app vals node b d) (htodo : d.todo = [])
    (haccepts : d.phase = .starting → d.stateMachine.Accepts app (.start d.stateMachine.state.height)) :
    Inv app vals node b (d.next app) := by
  unfold Driver.next
  cases hphase : d.phase with
  | stopped => exact h
  | listening => exact h
  | starting =>
    obtain ⟨durable, t, as, s, hload, hhead, hplaced⟩ := h.place.resolve_left fun hc => by simp [hphase] at hc
    rw [hphase] at hplaced
    exact h.receive hload hhead hplaced.2
      (fed_start hfixed hpos hplaced.2.symm.inv hhead (haccepts hphase))
  | replaying left =>
    obtain ⟨durable, t, as, s, hload, hhead, hplaced⟩ := h.place.resolve_left fun hc => by simp [hphase] at hc
    rw [hphase] at hplaced
    obtain ⟨-, rfl, rfl, hreplaying⟩ := hplaced
    cases left with
    | nil =>
      have hdone := hreplaying.done hfixed hpos hload.logs
      exact ⟨h.wal, h.nodeAddr, h.base, .inr ⟨as, s, as, s, hload.todo _ _ _ _, hhead, htodo, hdone⟩⟩
    | cons e rest =>
      obtain ⟨a, c, done, hbc, hct, hsorted, hat, hmachine⟩ := hreplaying.replayed
      have hinv : CounterInv vals d.stateMachine := by
        rw [hmachine]
        exact (counterInv_new node a vals c).replay app done
      have happend : done ++ e :: rest = (done ++ [e]) ++ rest := by simp
      rw [happend] at hsorted hat
      simp only
      split
      next hlt =>
        refine ⟨h.wal, h.nodeAddr, h.base,
          .inr ⟨as, s, as, s, hload.todo _ _ _ _, hhead, ?_, rfl, rfl, hreplaying.pending,
          hreplaying.quiet, a, c, done ++ [e], hbc, hct, hsorted, hat, ?_⟩⟩
        · change Todo _ _ _ _ _ _ _ _ _ d.todo
          rw [htodo]
          trivial
        · rw [replay_append, ← hmachine, StateMachine.replay, if_pos hlt]
          rfl
      next hle =>
        refine ⟨h.wal, (feed_nodeAddr hinv [e]).trans h.nodeAddr, h.base,
          .inr ⟨as, s, as, s, hload.todo _ _ _ _,
          hhead.trans_le (processWAL_height_le app hinv e),
          hreplaying.step hfixed hpos hload.logs hhead (not_lt.mp hle), rfl, rfl, hreplaying.pending,
          fun _ _ => setWALEntry_notMem_execute, a, c, done ++ [e], hbc, hct, hsorted, hat, ?_⟩⟩
        rw [replay_append, ← hmachine, replay_singleton app (not_lt.mp hle)]
        rfl

theorem Inv.step (h : Inv app vals node b d) {event : Event σ V H A} (hadmits : d.Admits app event) :
    Inv app vals node b (d.step app vals event) := by
  have hstop : ∀ closing, d.phase ≠ .stopped → Inv app vals node b (d.stop closing) := by
    intro closing hrunning
    obtain ⟨durable, t, as, s, hload, -⟩ := h.place.resolve_left fun hc => hrunning hc.1
    exact hload.stop h.wal h.nodeAddr h.base closing
  fun_cases Driver.step app vals d event
  case case1 a hphase => exact h.start hphase a
  case case3 htodo =>
    exact h.next hfixed hpos (isEmpty_iff.mp htodo) fun hphase => hadmits hphase (isEmpty_iff.mp htodo)
  case case5 i hphase hempty =>
    have htodo := isEmpty_iff.mp hempty
    obtain ⟨durable, t, as, s, hload, hhead, hplaced⟩ := h.place.resolve_left fun hc => by simp [hphase] at hc
    rw [hphase, Placed, htodo] at hplaced
    have hstarted : d.stateMachine.isHeightStarted = true :=
      Bool.eq_true_of_not_eq_false fun hc => absurd (hplaced.2.mp hc) not_mem_nil
    exact h.receive hload hhead hplaced.1
      (fed_input hfixed hpos hplaced.1.symm.inv hhead hstarted i (hadmits hphase htodo))
  case case8 hphase hempty =>
    have htodo := isEmpty_iff.mp hempty
    have hnone : execute false (d.actions.map fun a => (a, d.stateMachine)) = d.todo := by
      rw [hadmits hphase htodo, htodo]
      rfl
    rw [hnone]
    exact h
  case case12 faults closing result hrunning => exact h.exec faults closing result hrunning
  case case13 closing hphase _ | case15 closing hphase _ => exact hstop closing (by simp [hphase])
  case case18 torn =>
    obtain ⟨durable, t, hdurable⟩ : ∃ durable t, Durable app vals node b d durable t := by
      rcases h.place with ⟨-, -, hdurable⟩ | ⟨durable, t, as, s, hload, -⟩
      · exact hdurable
      · exact ⟨durable, t, hload.toDurable⟩
    refine ⟨(h.wal.step (.crash torn) rfl).inv, h.nodeAddr, h.base,
      .inl ⟨rfl, ?_, durable, t, hdurable.congr rfl rfl rfl rfl⟩⟩
    rintro ⟨store, hstore, -⟩
    cases hstore
  -- an event that cannot happen changes nothing
  all_goals exact h

theorem Inv.run (h : Inv app vals node b d) {events : List (Event σ V H A)}
    (hadmits : d.AdmitsAll app vals events) : Inv app vals node b (d.run app vals events) := by
  induction events generalizing d with
  | nil => exact h
  | cons event events ih => exact ih (h.step hfixed hpos hadmits.1) hadmits.2

end

theorem inv_init (app : Application σ V) (node : A) (a : σ) (vals : Validators A) (head : ℕ) :
    Inv app vals node (head + 1) (init node a vals head : Driver σ V H A) := by
  refine ⟨Walstore.System.inv_init _, rfl, le_rfl, .inl ⟨rfl, ?_, [], new node a vals (head + 1), .nil a,
    fun a ha => (by cases ha), Nat.lt_succ_self _, .refl (counterInv_new _ _ _ _), Nat.zero_le _⟩⟩
  rintro ⟨store, hstore, -⟩
  cases hstore

end Driver

end Juno.Consensus
