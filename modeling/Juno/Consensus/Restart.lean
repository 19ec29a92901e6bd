import Juno.Consensus.Durable

/-!
# Crashes and restarts of a validator

A validator that crashes, at any point, and replays its log. Two things are asked of it: that it
does not contradict what it sent before, and that it becomes what it was after the last input
that reached the disk.

The main results are `runs_send_once`, `restarted_proposer_equivocates`, `replay_restores` and
`replay_loses_precommit`.
-/

namespace Juno.Consensus

open Juno.Tendermint Driver Walstore

variable {σ V H A : Type} [Hashed V H] [DecidableEq H] [DecidableEq A]

/-! ### What a validator sends -/

def OnePerRound (sent : List (Action V H A)) : Prop :=
  (∀ p p', .broadcastProposal p ∈ sent → .broadcastProposal p' ∈ sent → p.height = p'.height →
    p.round = p'.round → p = p') ∧
  (∀ p p', .broadcastPrevote p ∈ sent → .broadcastPrevote p' ∈ sent → p.height = p'.height →
    p.round = p'.round → p = p') ∧
  ∀ p p', .broadcastPrecommit p ∈ sent → .broadcastPrecommit p' ∈ sent → p.height = p'.height →
    p.round = p'.round → p = p'

variable {vals : Validators A} {app : Application σ V} {node : A} {b : ℕ} {as : List (Action V H A)}

theorem onePerRound_of_logs {D : List (WALEntry V H A)} {s : StateMachine σ V H A}
    (h : Logs app vals node b D as s) : OnePerRound as := by
  refine ⟨fun p p' hp hp' hheight hround => ?_, fun p p' hp hp' hheight hround => ?_,
    fun p p' hp hp' hheight hround => ?_⟩
  · exact Action.broadcastProposal.inj (h.eq_of_mark_eq hp hp' rfl (by rw [Action.mark, hheight, hround]))
  · exact Action.broadcastPrevote.inj (h.eq_of_mark_eq hp hp' rfl (by rw [Action.mark, hheight, hround]))
  · exact Action.broadcastPrecommit.inj (h.eq_of_mark_eq hp hp' rfl (by rw [Action.mark, hheight, hround]))

omit [Hashed V H] [DecidableEq H] [DecidableEq A] in
theorem OnePerRound.mono {sent : List (Action V H A)} (h : OnePerRound as)
    (hsub : ∀ a ∈ sent, a ∈ as) : OnePerRound sent :=
  ⟨fun p p' hp hp' => h.1 p p' (hsub _ hp) (hsub _ hp'),
    fun p p' hp hp' => h.2.1 p p' (hsub _ hp) (hsub _ hp'),
    fun p p' hp hp' => h.2.2 p p' (hsub _ hp) (hsub _ hp')⟩

variable {d : Driver σ V H A}

theorem Driver.Inv.durable (h : Inv app vals node b d) : ∃ as t, Durable app vals node b d as t := by
  rcases h.place with ⟨-, -, hdurable⟩ | ⟨as, t, _, _, hload, -⟩
  · exact hdurable
  · exact ⟨as, t, hload.toDurable⟩

def Application.answering (app : Application σ V) (value : ℕ → ℤ → V) (valid : ℕ → ℤ → V → Bool) :
    Application σ V :=
  ⟨fun height round a => (value height round, (app.value height round a).2),
    fun height round a v => (valid height round v, (app.valid height round a v).2)⟩

theorem Application.answering_fixed (app : Application σ V) (value : ℕ → ℤ → V) (valid : ℕ → ℤ → V → Bool) :
    (answering app value valid).Fixed := ⟨fun _ _ _ _ => rfl, fun _ _ _ _ _ => rfl⟩

def Driver.Answers (app app' : Application σ V) (vals : Validators A) (d : Driver σ V H A) :
    List (Event σ V H A) → Prop
  | [] => True
  | event :: events => d.step app vals event = d.step app' vals event ∧
    (d.step app vals event).Answers app app' vals events

theorem Driver.Answers.run_eq {app' : Application σ V} {events : List (Event σ V H A)}
    (h : d.Answers app app' vals events) : d.run app vals events = d.run app' vals events := by
  induction events generalizing d with
  | nil => rw [run, run, List.foldl_nil, List.foldl_nil]
  | cons event events ih =>
    obtain ⟨hstep, hrest⟩ := h
    rw [run, run, List.foldl_cons, List.foldl_cons, ← hstep]
    exact ih hrest

/-- **A validator never contradicts itself**, whatever crashes it goes through, if the answers that its
application gives in the run are by the height, the round and the value, and the log has all that its inputs
do. -/
theorem runs_send_once {app : Application σ V} {value : ℕ → ℤ → V} {valid : ℕ → ℤ → V → Bool}
    {vals : Validators A} (hpos : ∀ height, 1 ≤ q (vals.totalVotingPower height)) (node : A) (a : σ)
    (head : ℕ) {events : List (Event σ V H A)}
    (hanswers : (init node a vals head : Driver σ V H A).Answers app (Application.answering app value valid)
      vals events)
    (hadmits : (init node a vals head : Driver σ V H A).AdmitsAll (Application.answering app value valid)
      vals events) :
    OnePerRound ((init node a vals head : Driver σ V H A).run app vals events).sent := by
  obtain ⟨as, t, hdurable⟩ :=
    ((inv_init _ node a vals head).run (Application.answering_fixed app value valid) hpos
    hadmits).durable
  rw [hanswers.run_eq]
  exact (onePerRound_of_logs hdurable.logs).mono hdurable.sent

section

variable [DecidableEq V] (app : Application σ V)

instance decidableAccepts (s : StateMachine σ V H A) : (e : WALEntry V H A) → Decidable (s.Accepts app e)
  | .start _ => inferInstanceAs (Decidable (_ ∨ ¬ ∃ p ∈ _, _ ∧ _))
  | .proposal _ => instDecidableTrue
  | .prevote _ => instDecidableTrue
  | .precommit _ => inferInstanceAs (Decidable (_ = _))
  | .timeout _ => inferInstanceAs (Decidable ((_ → _) ∧ ((_ ∧ (_ ∨ _)) ∨ (∀ p ∈ _, _ ∧ _) ∧ _)))

instance decidableAcceptsAll (s : StateMachine σ V H A) (es : List (WALEntry V H A)) : Decidable
    (AcceptsAll app s es) := by
  induction es generalizing s with
  | nil => exact instDecidableTrue
  | cons e es ih =>
    have := ih (s.processWAL app e).2
    exact inferInstanceAs (Decidable (_ ∧ _))

instance decidableAdmits (d : Driver σ V H A) (event : Event σ V H A) : Decidable (d.Admits app event) := by
  cases event with
  | next | input | syncFailed => exact inferInstanceAs (Decidable (_ → _ → _))
  | _ => exact instDecidableTrue

instance decidableAdmitsAll (vals : Validators A) (d : Driver σ V H A) (events : List (Event σ V H A)) :
    Decidable (d.AdmitsAll app vals events) := by
  induction events generalizing d with
  | nil => exact instDecidableTrue
  | cons event events ih =>
    have := ih (d.step app vals event)
    exact inferInstanceAs (Decidable (_ ∧ _))

end

/-- A step of `execute` in which nothing fails. -/
def execOk : Event σ Block ℕ Member := .exec ⟨noFaults, rfl⟩ ⟨noFaults, rfl⟩ .done

/-- A validator starts, sends the first message of its first height, crashes, and starts again. -/
def crashEvents (a a' : σ) : List (Event σ Block ℕ Member) :=
  [.start a, .next, .next, execOk, execOk, execOk, .crash true, .start a', .next, execOk]

theorem fixed_anyBlock : anyBlock.Fixed := ⟨fun _ _ _ _ => rfl, fun _ _ _ _ _ => rfl⟩

theorem one_le_q_fourValidators (height : ℕ) : 1 ≤ q (fourValidators.totalVotingPower height) :=
  show 1 ≤ q 4 by decide

/-- An application that has another value each time it is asked. -/
def nextBlock : Application ℕ Block := ⟨fun _ _ n => (⟨n⟩, n + 1), fun _ _ n _ => (true, n)⟩

/-- The application that is asked once before and once after the crash has the same value for both. -/
def nextBlockAnswers : Application ℕ Block :=
  Application.answering nextBlock (fun _ _ => ⟨0⟩) (fun _ _ _ => true)

theorem runs_send_once_crash :
    (init .v1 0 fourValidators 0).AdmitsAll nextBlockAnswers fourValidators (crashEvents 0 0) ∧
      ((init .v1 0 fourValidators 0).run nextBlock fourValidators (crashEvents 0 0)).sent =
        [.broadcastProposal zeroProposal, .broadcastProposal zeroProposal] ∧
      OnePerRound ((init .v1 0 fourValidators 0).run nextBlock fourValidators (crashEvents 0 0)).sent := by
  have hadmits :
      (init .v1 0 fourValidators 0).AdmitsAll nextBlockAnswers fourValidators (crashEvents 0 0) := by
    decide +kernel
  have hanswers :
      (init .v1 0 fourValidators 0).Answers nextBlock nextBlockAnswers fourValidators (crashEvents 0 0) :=
    ⟨rfl, rfl, rfl, rfl, rfl, rfl, rfl, rfl, rfl, rfl, trivial⟩
  have hone := runs_send_once one_le_q_fourValidators Member.v1 0 0 hanswers hadmits
  exact ⟨hadmits, by decide +kernel, hone⟩

/-- **A proposer that restarts proposes again**: the start was logged, and the value was not. -/
theorem restarted_proposer_equivocates :
    ¬ OnePerRound ((init .v1 0 fourValidators 0).run nextBlock fourValidators (crashEvents 0 1)).sent := by
  have hsent : ((init .v1 0 fourValidators 0).run nextBlock fourValidators (crashEvents 0 1)).sent =
      [.broadcastProposal ⟨⟨1, 0, .v1⟩, -1, ⟨0⟩⟩, .broadcastProposal ⟨⟨1, 0, .v1⟩, -1, ⟨1⟩⟩] := by
    decide +kernel
  rw [hsent]
  intro h
  have hsame := h.1 ⟨⟨1, 0, .v1⟩, -1, ⟨0⟩⟩ ⟨⟨1, 0, .v1⟩, -1, ⟨1⟩⟩ (by decide) (by decide) rfl rfl
  exact absurd hsame (by decide)

/-! ### What a replay gives -/

/-- The machine is in the state of another one, and has its messages of the current and of later heights. -/
def Restores (s s' : StateMachine σ V H A) : Prop :=
  s'.state = s.state ∧ ∀ height, s.state.height ≤ height → ∀ round,
    s'.voteCounter.data height round = s.voteCounter.data height round

/-- **A replay gives back the machine** as it was after the last input that was flushed: at any point of a
run, the log can be opened, and a new machine at the height after the chain that replays it is in that state.
-/
theorem replay_restores {app : Application σ V} (hfixed : app.Fixed) {vals : Validators A}
    (hpos : ∀ height, 1 ≤ q (vals.totalVotingPower height)) (node : A) (a : σ) (head : ℕ)
    {events : List (Event σ V H A)}
    (hadmits : (init node a vals head : Driver σ V H A).AdmitsAll app vals events) {d : Driver σ V H A}
    (hd : d = (init node a vals head : Driver σ V H A).run app vals events) :
    ∃ store disk, newTendermintWALStore WALEntry.height d.db.disk = some (store, disk) ∧
      ∀ a', Restores ((new node a' vals (d.head + 1)).replay app store.index.loadAllEntries).2 d.settled := by
  have hinv := (inv_init (V := V) (H := H) app node a vals head).run hfixed hpos hadmits
  rw [← hd] at hinv
  obtain ⟨as, t, hdurable⟩ := hinv.durable
  obtain ⟨store, disk, hnew, hok, -⟩ := newTendermintWALStore_ok hinv.wal.logs hinv.wal.holds
  refine ⟨store, disk, hnew, fun a' => ?_⟩
  have hgroups := hok.index.loadAllEntries
  rw [hok.pruned, hok.holds.live] at hgroups
  have hlike :=
    (hdurable.logs.replay hfixed hpos hgroups.sorted hinv.base hdurable.head (fun k hk => ?_) a').1
  · have hend := hlike.trans hdurable.settled
    exact ⟨hend.state, fun height _ round => hend.counter.data height trivial round⟩
  · have hpruned : maxPrune d.db.flushed < k := lt_of_le_of_lt hdurable.pruned hk
    exact (hgroups.same k).trans (atHeight_above hpruned _)

/-- Validator 0 takes a proposal and prevotes, after two precommits of the next height, or three. -/
def precommitEvents (senders : List Member) : List (Event Unit Block ℕ Member) :=
  [.start (), .next, .next, execOk] ++
    senders.flatMap (fun sender => [.input (.precommit ⟨⟨2, 0, sender⟩, some 7⟩), execOk]) ++
    [.input (.proposal firstProposal), execOk, execOk]

theorem replay_restores_two :
    (init .v0 () fourValidators 0).AdmitsAll anyBlock fourValidators (precommitEvents [.v1, .v2]) ∧
      ∃ store disk, newTendermintWALStore WALEntry.height
          ((init .v0 () fourValidators 0).run anyBlock fourValidators (precommitEvents [.v1, .v2])).db.disk =
            some (store, disk) ∧
        Restores ((new .v0 () fourValidators 1).replay anyBlock store.index.loadAllEntries).2
          ((init .v0 () fourValidators 0).run anyBlock fourValidators
            (precommitEvents [.v1, .v2])).settled := by
  have hadmits :
      (init .v0 () fourValidators 0).AdmitsAll anyBlock fourValidators (precommitEvents [.v1, .v2]) := by
    decide +kernel
  have hhead :
      ((init .v0 () fourValidators 0).run anyBlock fourValidators (precommitEvents [.v1, .v2])).head = 0 := by
    decide +kernel
  obtain ⟨store, disk, hstore, hrestores⟩ :=
    replay_restores fixed_anyBlock one_le_q_fourValidators Member.v0 () 0 hadmits rfl
  rw [hhead] at hrestores
  exact ⟨hadmits, store, disk, hstore, hrestores ()⟩

/-- **A precommit that starts a sync is lost**: the machine that was flushed has the precommits of three
validators for the next height, and one that replays the log has two. -/
theorem replay_loses_precommit :
    ∃ store disk, newTendermintWALStore WALEntry.height
        ((init .v0 () fourValidators 0).run anyBlock fourValidators
          (precommitEvents [.v1, .v2, .v3])).db.disk = some (store, disk) ∧
      ¬ Restores ((new .v0 () fourValidators 1).replay anyBlock store.index.loadAllEntries).2
        ((init .v0 () fourValidators 0).run anyBlock fourValidators
          (precommitEvents [.v1, .v2, .v3])).settled := by
  have hsettled : (((init .v0 () fourValidators 0).run anyBlock fourValidators
      (precommitEvents [.v1, .v2, .v3])).settled.voteCounter.data 2 0).countAny .precommit = 3 := by
    decide +kernel
  have hreplayed : (newTendermintWALStore WALEntry.height
      ((init .v0 () fourValidators 0).run anyBlock fourValidators
        (precommitEvents [.v1, .v2, .v3])).db.disk).map
        (fun opened =>
          ((((new .v0 () fourValidators 1).replay anyBlock opened.1.index.loadAllEntries).2.voteCounter.data 2
            0).countAny
            .precommit,
          ((new .v0 () fourValidators 1).replay anyBlock opened.1.index.loadAllEntries).2.state.height)) =
            some (2, 1) := by
    decide +kernel
  obtain ⟨opened, hopened, hcounts⟩ := Option.map_eq_some_iff.mp hreplayed
  rw [Prod.mk.injEq] at hcounts
  refine ⟨opened.1, opened.2, hopened, fun hrestores => ?_⟩
  have hdata := hrestores.2 2 (by rw [hcounts.2]; decide) 0
  rw [hdata, hcounts.1] at hsettled
  cases hsettled

end Juno.Consensus
