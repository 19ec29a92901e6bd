import Juno.Tendermint.Agreement
import Juno.Tendermint.Replay

/-!
# What a machine logs

An input is either logged, before anything it leads to, or it leaves the machine as it was. So
the entries of the log are a run of their own, and a machine that replays them is like the one
that logged them.

## The model

`Accepts` says which inputs are treated this way: a start does not decide its height, a precommit
does not start a sync, and a timeout is one the machine waits for, or no rule applies. `Logs` is
the run of the entries, in the order in which they were logged.

The main result is `Logs.replay`.
-/

namespace Juno.Tendermint

open StateMachine List Hashed WALEntry

open Walstore (atHeight group)

variable {σ V H A : Type} [Hashed V H] [DecidableEq H] [DecidableEq A] {p : Proposal V A}

namespace VoteCounter

variable {vals : Validators A} {v : VoteCounter V H A} {K : Set ℕ}

omit [Hashed V H] in
theorem Holds.add_of_old (h : v.Holds (fun _ => True) vals) (m : Message V H A) (hold : (v.add m).1 = false) :
    Same vals K v (v.add m).2 :=
  ⟨h, h.add m trivial, (v.grows_add m).currentHeight, fun k _ r => h.add_data_of_old m hold k r⟩

end VoteCounter

/-! ### The turns of the loop -/

variable {a : Action V H A} {as : List (Action V H A)}

section

variable {app : Application σ V} {vals : Validators A} {s s' : StateMachine σ V H A}

/-- What is known of the actions that lead from one machine to another: a commit is of the current height, and
ends it. -/
structure Ends (s : StateMachine σ V H A) (as : List (Action V H A)) (s' : StateMachine σ V H A) : Prop where
  commit : ∀ p, .commit p ∈ as → p.height = s.state.height ∧ s'.state.height = s.state.height + 1
  started : s.isHeightStarted = true → (s'.isHeightStarted = false ↔ ∃ p, .commit p ∈ as)

section

omit [Hashed V H] [DecidableEq H] [DecidableEq A]

theorem Ends.nil (hstarted : s'.isHeightStarted = s.isHeightStarted) : Ends s [] s' where
  commit p hp := by cases hp
  started hs := by simp [hstarted, hs]

theorem Ends.cons (h : Ends s as s') (ha : a.isCommit = false) : Ends s (a :: as) s' where
  commit p hp := h.commit p ((mem_cons.mp hp).resolve_left (a.ne_commit ha p))
  started hs := by
    rw [h.started hs]
    refine exists_congr fun p => ⟨mem_cons_of_mem _, fun hp => ?_⟩
    exact (mem_cons.mp hp).resolve_left (a.ne_commit ha p)

theorem Ends.append {bs : List (Action V H A)} {s'' : StateMachine σ V H A} (h : Ends s as s')
    (h' : Ends s' bs s'') (hheight : s'.state.height = s.state.height)
    (hstarted : s.isHeightStarted = true → s'.isHeightStarted = true) : Ends s (as ++ bs) s'' where
  commit p hp := by
    rcases mem_append.mp hp with hp | hp
    · have := (h.commit p hp).2
      omega
    · obtain ⟨hp, hend⟩ := h'.commit p hp
      exact ⟨hp.trans hheight, hend.trans (congrArg (· + 1) hheight)⟩
  started hs := by
    rw [h'.started (hstarted hs)]
    have hno : ¬ ∃ p, .commit p ∈ as := fun hc => by
      have := (h.started hs).mpr hc
      rw [hstarted hs] at this
      cases this
    refine exists_congr fun p => ⟨mem_append_right _, fun hp => ?_⟩
    exact (mem_append.mp hp).resolve_left fun hp => hno ⟨p, hp⟩

end

section

variable (app : Application σ V)

theorem process_ends (hinv : CounterInv vals s) (recent : Option ℤ) :
    (∀ a ∈ (s.process app recent).1.1.toList, a.isVisible = true) ∧
      Ends s (s.process app recent).1.1.toList (s.process app recent).2 := by
  have hone : ∀ {a : Action V H A} {s' : StateMachine σ V H A}, a.isVisible = true → a.isCommit = false →
      s'.isHeightStarted = s.isHeightStarted → (∀ a' ∈ [a], a'.isVisible = true) ∧ Ends s [a] s' :=
    fun hvisible hcommit hstarted =>
      ⟨fun a' ha' => by rwa [mem_singleton.mp ha'], (Ends.nil hstarted).cons hcommit⟩
  obtain ⟨a, c, rc, -, hrc, hfired⟩ := process_fired app s recent
  generalize s.process app recent = turn at hfired
  cases hfired with
  | commitValue p hp =>
    refine ⟨fun a ha => ?_, fun p' hp' => ?_,
      fun _ => ⟨fun _ => ⟨p.toProposal, mem_singleton_self _⟩, fun _ => rfl⟩⟩
    · obtain rfl := mem_singleton.mp ha
      rfl
    · obtain rfl := Action.commit.inj (mem_singleton.mp hp')
      have hheader := (hinv.holds.proposal (hrc p hp).1).2
      exact ⟨(congrArg MessageHeader.height hheader).trans hinv.height, rfl⟩
  | skipRound r =>
    obtain ⟨hvisible, hcommit⟩ := startRound_action app { s with application := a } r
    exact hone hvisible hcommit (startRound_isHeightStarted app { s with application := a } r)
  | setValid | quiet => exact ⟨fun a ha => (by cases ha), .nil rfl⟩
  | _ => exact hone rfl rfl rfl

theorem loop_ends (hinv : CounterInv vals s) (recent : Option ℤ) :
    (∀ a ∈ (s.processLoop app [] recent).1, a.isVisible = true) ∧
      Ends s (s.processLoop app [] recent).1 (s.processLoop app [] recent).2 := by
  have key := loop_induction app recent
    (P := fun s as s' => CounterInv vals s → (∀ a ∈ as, a.isVisible = true) ∧ Ends s as s')
    (fun s _ hinv => process_ends app hinv recent)
    (fun s as s' hcont ih hinv => by
      obtain ⟨hvisible, hends⟩ := process_ends app hinv recent
      obtain ⟨hvisible', hends'⟩ := ih (hinv.process recent)
      exact ⟨fun a ha => (mem_append.mp ha).elim (hvisible a) (hvisible' a),
        hends.append hends' (process_height hcont) fun hs => process_started app hs hcont⟩)
    _ s le_rfl
  exact key hinv

theorem processLoop_fst (s : StateMachine σ V H A) (as : List (Action V H A)) (recent : Option ℤ) :
    s.processLoop app as recent = (as ++ (s.processLoop app [] recent).1, (s.processLoop app [] recent).2) :=
      rfl

/-- The actions of a message that is processed: its entry comes first. -/
theorem processMessage_ends (hinv : CounterInv vals s) (msg : MessageHeader A) (e : WALEntry V H A) :
    ∃ as, (s.processMessage app msg e).1 = .writeWAL e :: as ∧ (∀ a ∈ as, a.isVisible = true) ∧
      Ends s as (s.processMessage app msg e).2 := by
  unfold processMessage
  split
  · exact ⟨[], rfl, fun a ha => (by cases ha), .nil rfl⟩
  · exact ⟨_, rfl, loop_ends app hinv _⟩

end

end

/-! ### The start of a height -/

variable {p' : CachedProposal V H A} {c : Option (CachedProposal V H A)} {u t : VoteType}

section

variable (app : Application σ V) (s : StateMachine σ V H A)

/-- The counter with which round 0 is entered: a proposer counts its own proposal. -/
def StateMachine.countsAtStart : VoteCounter V H A :=
  if s.voteCounter.proposer 0 = s.nodeAddr then
    (s.voteCounter.addProposal ⟨⟨s.state.height, 0, s.nodeAddr⟩, s.state.validRound,
      s.state.validValue.getD (app.value s.state.height 0 s.application).1⟩).2
  else s.voteCounter

/-- The votes of round 0 for the value of a proposal, with the machine's own if it casts it. -/
def StateMachine.firstVotes (u : VoteType) (p : Proposal V A) (own : Prop) [Decidable own] : ℕ :=
  if own then s.withOwn 0 u (some (hash p.value)) else s.votes 0 u (some (hash p.value))

def StateMachine.PrevotesFirst (p : Proposal V A) : Prop :=
  p.validRound = -1 ∧ (s.state.lockedRound = -1 ∨ s.isLockedOn (hash p.value) = true)

instance (s : StateMachine σ V H A) (p : Proposal V A) : Decidable (s.PrevotesFirst p) :=
  inferInstanceAs (Decidable (_ ∧ _))

/-- The machine precommits the proposal of round 0, if it is valid: the prevotes for it make a quorum. -/
def StateMachine.PrecommitsFirst (p : Proposal V A) : Prop :=
  p.validRound = -1 ∧ s.voteCounter.quorumVotingPower ≤ s.firstVotes .prevote p (s.PrevotesFirst p)

instance (s : StateMachine σ V H A) (p : Proposal V A) : Decidable (s.PrecommitsFirst p) :=
  inferInstanceAs (Decidable (_ ∧ _))

/-- Round 0 is decided as soon as it is entered: its proposal is valid, and the precommits for it make a
quorum. -/
def StateMachine.DecidesFirst : Prop :=
  ∃ p ∈ s.voteCounter.getProposal 0, (app.valid p.height p.round s.application p.value).1 = true ∧
    s.voteCounter.quorumVotingPower ≤ s.firstVotes .precommit p (s.PrecommitsFirst p)

/-- What a machine that entered round 0 as `e` has done there. -/
structure InFirstRound (e s : StateMachine σ V H A) : Prop where
  stays : Stays e s
  height : s.state.height = e.state.height
  locked : s.state.step = .propose →
    s.state.lockedRound = e.state.lockedRound ∧ s.state.lockedValue = e.state.lockedValue
  prevoted : ∀ p, e.voteCounter.getProposal 0 = some p → s.state.step ≠ .propose → p.validRound = -1
  prevotes : ∀ p, e.voteCounter.getProposal 0 = some p → ¬ e.PrevotesFirst p →
    s.votes 0 .prevote (some (hash p.value)) = e.votes 0 .prevote (some (hash p.value))
  precommits : ∀ p, e.voteCounter.getProposal 0 = some p → ¬ e.PrecommitsFirst p →
    s.votes 0 .precommit (some (hash p.value)) = e.votes 0 .precommit (some (hash p.value))

variable {app} {e s s' : StateMachine σ V H A} {vals : Validators A} {p : Proposal V A}

omit [DecidableEq A] in
theorem le_firstVotes (hstays : Stays e s) {own : Prop} [Decidable own]
    (h : ¬ own → s.votes 0 u (some (hash p.value)) = e.votes 0 u (some (hash p.value))) :
    s.votes 0 u (some (hash p.value)) ≤ e.firstVotes u p own := by
  unfold firstVotes
  split_ifs with hown
  · rw [← hstays.withOwn]
    exact s.votes_le_withOwn _ _ _
  · exact (h hown).le

omit [Hashed V H] in
theorem RoundData.countVote_addVote_of_ne (data : RoundData V H A) (header : MessageHeader A)
    (power : ℕ) {id id' : Option H} (hne : u ≠ t ∨ id' ≠ id) :
    (data.addVote ⟨header, id⟩ power t).2.countVote u id' = data.countVote u id' := by
  unfold countVote
  rw [votesFor_addVote]
  by_cases hid : id' = id
  · have hu := hne.resolve_right (not_not.mpr hid)
    rw [if_pos hid]
    cases data.votesFor id' <;> simp [BallotSet.add_perVoteType, hu]
  · rw [if_neg hid]

omit [Hashed V H] in
theorem votes_of_vote (hheight : s.voteCounter.currentHeight = s.state.height) {id id' : Option H}
    (hcounter : s'.voteCounter = (s.voteCounter.addVote ⟨s.header, id⟩ t).2)
    (hne : u ≠ t ∨ id' ≠ id) (r : ℤ) : s'.votes r u id' = s.votes r u id' := by
  rcases s.voteCounter.add_changes (.vote t ⟨s.header, id⟩) with ⟨hlt, -⟩ | ⟨-, -, hc⟩
  · exact absurd hlt (by simp [Message.header, header, hheight])
  rw [VoteCounter.add, ← hcounter] at hc
  unfold votes
  rw [hc.roundData]
  split
  next => exact RoundData.countVote_addVote_of_ne _ _ _ hne
  next => rfl

omit [DecidableEq A] in
theorem Stays.found (h : Stays e s) (hround : e.state.round = 0) (hc : s.Found s.state.round c)
    (hp' : c = some p') : e.voteCounter.getProposal 0 = some p'.toProposal ∧ p'.id = hash p'.value := by
  obtain ⟨hget, hid⟩ := hc p' hp'
  rw [h.proposal, h.round, hround] at hget
  exact ⟨hget, hid⟩

theorem InFirstRound.fired (hinv : CounterInv vals s) (h : InFirstRound e s)
    (hround : e.state.round = 0) (hc : s.Found s.state.round c) {turn : Turn σ V H A}
    (hfired : Fired app s none c c turn) (hcont : turn.1.2 = true) : InFirstRound e turn.2 := by
  have hstays := h.stays.trans (fired_stays hinv.height (fun r hr => by cases hr) hfired hcont)
  have hzero : s.state.round = 0 := h.stays.round.trans hround
  -- a vote of the machine is counted only where the proposal makes it cast one
  have hother : ∀ {s' : StateMachine σ V H A} {t u : VoteType} {id id' : Option H} {n : ℕ},
      s'.voteCounter = (s.voteCounter.addVote ⟨s.header, id⟩ t).2 → u ≠ t ∨ id' ≠ id → s.votes 0 u id' = n →
      s'.votes 0 u id' = n := fun hcounter hne hn => (votes_of_vote hinv.height hcounter hne 0).trans hn
  cases hfired with
  | firstProposal p' hp' hrule =>
    obtain ⟨hp, hid⟩ := h.stays.found hround hc hp'
    obtain ⟨hvalid, hstep⟩ := of_decide_eq_true hrule
    obtain ⟨hlocked, hlocked'⟩ := h.locked hstep
    refine ⟨hstays, h.height, (fun hs => by cases hs), fun p hp₁ _ => ?_, fun p hp₁ hown => ?_,
      fun p hp₁ hown => hother rfl (.inl (by decide)) (h.precommits p hp₁ hown)⟩
    · obtain rfl := Option.some.inj (hp.symm.trans hp₁)
      exact hvalid
    · obtain rfl := Option.some.inj (hp.symm.trans hp₁)
      refine hother rfl (.inr fun heq => ?_) (h.prevotes _ hp hown)
      split at heq
      next hvote =>
        refine hown ⟨hvalid, ?_⟩
        rw [← hlocked, ← hid, isLockedOn, ← hlocked']
        exact hvote.2
      next => cases heq
  | proposalAndPolkaPrevious p' hp' hrule =>
    obtain ⟨-, -, hge, hlt⟩ := of_decide_eq_true hrule
    omega
  | lock p' hp' hrule hstep =>
    obtain ⟨hp, hid⟩ := h.stays.found hround hc hp'
    have hpropose : s.state.step ≠ .propose := by
      rw [hstep]
      decide
    refine ⟨hstays, h.height, (fun hs => by cases hs), fun p hp₁ _ => h.prevoted p hp₁ hpropose,
      fun p hp₁ hown => hother rfl (.inl (by decide)) (h.prevotes p hp₁ hown), fun p hp₁ hown => ?_⟩
    obtain rfl := Option.some.inj (hp.symm.trans hp₁)
    refine absurd ⟨h.prevoted _ hp hpropose, ?_⟩ hown
    have hq := (of_decide_eq_true hrule).1
    rw [hzero, hid] at hq
    rw [← h.stays.quorum]
    exact (le_votes hq).trans (le_firstVotes h.stays (h.prevotes _ hp))
  | polkaNil hrule =>
    have hpropose : s.state.step ≠ .propose := by
      rw [(of_decide_eq_true hrule).2]
      decide
    exact ⟨hstays, h.height, (fun hs => by cases hs), fun p hp _ => h.prevoted p hp hpropose,
      fun p hp hown => hother rfl (.inl (by decide)) (h.prevotes p hp hown),
      fun p hp hown => hother rfl (.inr (by simp)) (h.precommits p hp hown)⟩
  | polkaAny | setValid | precommitAny =>
    exact ⟨hstays, h.height, h.locked, h.prevoted, h.prevotes, h.precommits⟩
  | commitValue => cases hcont
  | skipRound r hr => cases hr
  | quiet => cases hcont

omit [DecidableEq H] [DecidableEq A] in
theorem findProposal_valid {r : ℤ} (hp : (s.findProposal app r).1 = some p') :
    p'.valid = (app.valid p'.height p'.round s.application p'.value).1 := by
  unfold findProposal at hp
  split at hp
  · cases hp
  · obtain rfl := Option.some.inj hp
    rfl

variable (app) in
omit [Hashed V H] [DecidableEq H] in
theorem startRound_zero (s : StateMachine σ V H A) : ∃ a, (s.startRound app 0).2 =
    { s with state := s.state.resetState 0, voteCounter := s.countsAtStart app, application := a } := by
  unfold startRound countsAtStart
  simp only
  split
  · unfold proposalValue sendProposal header
    cases hv : s.state.validValue with
    | none => simp only [State.resetState, hv]; exact ⟨_, rfl⟩
    | some value => simp only [State.resetState, hv]; exact ⟨_, rfl⟩
  · exact ⟨_, rfl⟩

omit [DecidableEq A] in
theorem findProposal_decides (hfixed : app.Fixed) (hinv : CounterInv vals s) (h : InFirstRound e s)
    (hround : e.state.round = 0) (hp' : (s.findProposal app s.state.round).1 = some p')
    (hrule : s.uponCommitValue p' = true) : e.DecidesFirst app := by
  obtain ⟨hp, hid⟩ := h.stays.found hround (findProposal_found app s _).1 hp'
  obtain ⟨hq, hvalid⟩ := of_decide_eq_true hrule
  refine ⟨p'.toProposal, hp, ?_, ?_⟩
  · rw [findProposal_valid hp', hfixed.valid _ _ _ e.application] at hvalid
    exact hvalid
  · have hzero : p'.round = 0 := hinv.agree 0 _ ((h.stays.proposal 0).trans hp)
    rw [hzero, hid] at hq
    rw [← h.stays.quorum]
    exact (le_votes hq).trans (le_firstVotes h.stays (h.precommits _ hp))

theorem loop_of_not_decidesFirst (hfixed : app.Fixed) (hinv : CounterInv vals e) (hround : e.state.round = 0)
    (hstep : e.state.step = .propose) (hno : ¬ e.DecidesFirst app) :
    (e.processLoop app [] none).2.state.height = e.state.height := by
  have key := loop_induction app none (P := fun s _ s' => CounterInv vals s → InFirstRound e s →
    s'.state.height = e.state.height) ?_ ?_ _ e le_rfl
  · refine key hinv ⟨.refl e, rfl, fun _ => ⟨rfl, rfl⟩, fun _ _ hne => absurd hstep hne, ?_, ?_⟩
    · exact fun _ _ _ => rfl
    · exact fun _ _ _ => rfl
  · intro s hstop hinv h
    obtain ⟨a, hfired⟩ := process_fired_none app s
    generalize s.process app none = turn at hfired hstop
    cases hfired with
    | commitValue p' hp' hrule => exact absurd (findProposal_decides hfixed hinv h hround hp' hrule) hno
    | quiet => exact h.height
    | _ => cases hstop
  · intro s as s' hcont ih hinv h
    obtain ⟨a, hfired⟩ := process_fired_none app s
    have hinv' : CounterInv vals { s with application := a } := ⟨hinv.height, hinv.holds⟩
    have h' : InFirstRound e { s with application := a } :=
      ⟨h.stays.trans (stays_application s a), h.height, h.locked, h.prevoted, h.prevotes, h.precommits⟩
    exact ih (hinv.process none) (h'.fired hinv' hround (findProposal_found app s _).1 hfired hcont)

theorem processStart_of_not_decidesFirst (hfixed : app.Fixed) (hinv : CounterInv vals s)
    (hno : ¬ { s with voteCounter := s.countsAtStart app }.DecidesFirst app) :
    (s.processStart app 0).2.state.height = s.state.height := by
  unfold processStart
  split
  · rfl
  · have hinv' :=
        CounterInv.startRound app (s := { s with isHeightStarted := true }) ⟨hinv.height, hinv.holds⟩ 0
    obtain ⟨a, ha⟩ := startRound_zero app { s with isHeightStarted := true }
    rw [ha] at hinv'
    simp only [ha]
    refine loop_of_not_decidesFirst hfixed hinv' rfl rfl fun hdec => hno ?_
    obtain ⟨p, hp, hvalid, hle⟩ := hdec
    exact ⟨p, hp, (hfixed.valid _ _ _ _ _).trans hvalid, hle⟩

end

/-! ### Inputs -/

variable {tm : Timeout}

section

variable (app : Application σ V)

/-- What an input has to meet so that the log has all that it does: a start does not decide its height, a
precommit does not start a sync, and a timeout is one the machine waits for, or no rule applies. -/
def StateMachine.Accepts (s : StateMachine σ V H A) : WALEntry V H A → Prop
  | .start _ =>
    s.isHeightStarted = true ∨ ¬ { s with voteCounter := s.countsAtStart app }.DecidesFirst app
  | .precommit p =>
    ({ s with voteCounter := (s.voteCounter.addPrecommit p).2 }.hasFuturePrecommitQuorum p).1 = false
  | .timeout tm => (tm.step = .precommit → tm.round < 2 ^ 63 - 1) ∧ (s.Expects tm ∨ s.Idle app)
  | _ => True

/-- The machine is ready for the input: the height was started, or the input is a message of a past height, or
the start itself. -/
def StateMachine.Ready (s : StateMachine σ V H A) : WALEntry V H A → Prop
  | .start height => height = s.state.height
  | .timeout _ => s.isHeightStarted = true
  | e => s.isHeightStarted = true ∨ e.height < s.state.height

variable {app} {vals : Validators A} {s s' : StateMachine σ V H A} {e : WALEntry V H A}

variable (app vals s e) in
inductive Handled : Prop where
  | silent (hnil : (s.processWAL app e).1 = []) (hsame : Alike vals Set.univ s (s.processWAL app e).2)
  | logged (as : List (Action V H A)) (hacts : (s.processWAL app e).1 = .writeWAL e :: as)
    (hvisible : ∀ a ∈ as, a.isVisible = true) (hfollows : s.Follows app e)
    (hcommit : ∀ p, .commit p ∈ as →
      p.height = s.state.height ∧ (s.processWAL app e).2.state.height = s.state.height + 1)
    (hstarted : (s.processWAL app e).2.isHeightStarted = false ↔ ∃ p, .commit p ∈ as)

theorem handled_message (msg : MessageHeader A) (isNew : Bool) (s₁ s₂ : StateMachine σ V H A)
    (heq : s.processWAL app e = if !isNew || !s₁.isHeightStarted then ([], s₁) else
      s₂.processMessage app msg e)
    (hsame : isNew = false → Alike vals Set.univ s s₁) (hstarted : s₁.isHeightStarted = s.isHeightStarted)
    (hready : s.isHeightStarted = true ∨ isNew = false) (hinv : CounterInv vals s₂)
    (hstate : s₂.state = s.state) (hstarted' : s₂.isHeightStarted = s.isHeightStarted)
    (hfollows : isNew = true → s.Follows app e) : Handled app vals s e := by
  cases hnew : isNew with
  | false =>
    rw [hnew, Bool.not_false, Bool.true_or, if_pos rfl] at heq
    exact .silent (congrArg Prod.fst heq) (by rw [heq]; exact hsame hnew)
  | true =>
    have hs : s.isHeightStarted = true := hready.resolve_right (by simp [hnew])
    rw [hnew, hstarted, hs, Bool.not_true, Bool.or_self, if_neg (by simp)] at heq
    obtain ⟨as, hacts, hvisible, hends⟩ := processMessage_ends app hinv msg e
    refine .logged as ((congrArg Prod.fst heq).trans hacts) hvisible (hfollows hnew) ?_ ?_
    · rw [heq, ← hstate]
      exact hends.commit
    · rw [heq]
      exact hends.started (hstarted'.trans hs)

/-- An input that is logged and leads to an action, after which the loop runs. -/
theorem Handled.of_loop {s₁ : StateMachine σ V H A} (hinv : CounterInv vals s₁)
    (heq : s.processWAL app e = s₁.processLoop app [.writeWAL e, a] none) (hvisible : a.isVisible = true)
    (hcommit : a.isCommit = false) (hheight : s₁.state.height = s.state.height)
    (hstarted : s₁.isHeightStarted = true) (hfollows : s.Follows app e) : Handled app vals s e := by
  rw [processLoop_fst] at heq
  obtain ⟨hvisible', hends⟩ := loop_ends app hinv none
  refine .logged _ (congrArg Prod.fst heq) (forall_mem_cons.mpr ⟨hvisible, hvisible'⟩) hfollows ?_ ?_
  · rw [heq, ← hheight]
    exact (hends.cons hcommit).commit
  · rw [heq]
    exact (hends.cons hcommit).started hstarted

theorem handled_start (hfixed : app.Fixed) {height : ℕ} (hinv : CounterInv vals s)
    (haccepts : s.Accepts app (.start height)) (hready : s.Ready (.start height)) :
    Handled app vals s (.start height) := by
  obtain rfl : height = s.state.height := hready
  have heq : s.processWAL app (.start s.state.height) = s.processStart app 0 := rfl
  by_cases hs : s.isHeightStarted = true
  · have hnone : s.processStart app 0 = ([], s) := if_pos hs
    exact .silent (by rw [heq, hnone]) (by rw [heq, hnone]; exact .refl hinv)
  · obtain ⟨hvisible, hcommit⟩ := startRound_action app { s with isHeightStarted := true } 0
    have hinv' :=
        CounterInv.startRound app (s := { s with isHeightStarted := true }) ⟨hinv.height, hinv.holds⟩ 0
    have hsame := processStart_of_not_decidesFirst hfixed hinv (haccepts.resolve_left hs)
    have hstart :
        s.processStart app 0 = ({ s with isHeightStarted := true }.startRound app 0).2.processLoop app
        [.writeWAL (.start (s.processStart app 0).2.state.height),
          ({ s with isHeightStarted := true }.startRound app 0).1]
        none := by
      unfold processStart
      rw [if_neg hs]
      rfl
    rw [hsame] at hstart
    have hheight := congrArg State.height (startRound_state app { s with isHeightStarted := true } 0)
    exact .of_loop hinv' (heq.trans hstart) hvisible hcommit hheight
      (startRound_isHeightStarted app { s with isHeightStarted := true } 0) ⟨rfl, hsame⟩

/-- A timeout that the machine waits for is logged, and the loop comes after what it leads to. -/
theorem processTimeout_of_expects (app : Application σ V) (hinv : CounterInv vals s)
    (h : s.Expects tm) : ∃ (s₁ : StateMachine σ V H A) (a : Action V H A),
      s.processTimeout app tm = s₁.processLoop app [.writeWAL (.timeout tm), a] none ∧ a.isVisible = true ∧
        a.isCommit = false ∧ CounterInv vals s₁ ∧ s₁.state.height = s.state.height ∧
        s₁.isHeightStarted = s.isHeightStarted := by
  obtain ⟨r, hr, heq⟩ := processTimeout_timedOut app s tm
  cases hr with
  | ignored hnot => exact absurd h.2 (not_or.mpr (hnot h.1))
  | propose => exact ⟨_, _, heq, rfl, rfl, hinv.sendPrevote none, rfl, rfl⟩
  | prevote => exact ⟨_, _, heq, rfl, rfl, hinv.sendPrecommit none, rfl, rfl⟩
  | precommit =>
    obtain ⟨hvisible, hcommit⟩ := startRound_action app s (nextRound tm.round)
    refine ⟨_, _, heq, hvisible, hcommit, hinv.startRound app _, ?_, startRound_isHeightStarted app s _⟩
    rw [startRound_state]
    rfl

theorem handled_timeout (hinv : CounterInv vals s) (haccepts : s.Accepts app (.timeout tm))
    (hready : s.isHeightStarted = true) : Handled app vals s (.timeout tm) := by
  by_cases hexpects : s.Expects tm
  · have hheight : tm.height = s.state.height := (of_decide_eq_true hexpects.1).1.symm
    obtain ⟨s₁, a, heq, hvisible, hcommit, hinv₁, hheight₁, hstarted⟩ :=
      processTimeout_of_expects app hinv hexpects
    exact .of_loop hinv₁ heq hvisible hcommit hheight₁ (hstarted.trans hready) ⟨hheight, hready, haccepts.1⟩
  · obtain ⟨a, ha⟩ := processLoop_of_idle app (haccepts.2.resolve_left hexpects)
    have heq : s.processWAL app (.timeout tm) = ([], { s with application := a }) :=
      (processTimeout_of_not_expects app hexpects).trans ha
    exact .silent (by rw [heq]) (by rw [heq]; exact .of_memory hinv a _ _)

omit [Hashed V H] [DecidableEq A] in
theorem hasFuturePrecommitQuorum_frame (s : StateMachine σ V H A) (p : Vote H A) :
    (s.hasFuturePrecommitQuorum p).2.state = s.state ∧
      (s.hasFuturePrecommitQuorum p).2.isHeightStarted = s.isHeightStarted := by
  unfold hasFuturePrecommitQuorum
  split <;> exact ⟨rfl, rfl⟩

section

variable (hinv : CounterInv vals s)
include hinv

omit [Hashed V H] in
theorem CounterInv.add_past (m : Message V H A) (hlt : m.header.height < s.state.height) :
    (s.voteCounter.add m).1 = false := by
  rcases s.voteCounter.add_changes m with ⟨-, heq⟩ | ⟨hle, -⟩
  · rw [heq]
  · rw [hinv.height] at hle
    omega

omit [Hashed V H] in
theorem CounterInv.le_of_new (m : Message V H A) (hnew : (s.voteCounter.add m).1 = true) :
    s.state.height ≤ m.header.height := by
  refine not_lt.mp fun hlt => ?_
  rw [hinv.add_past m hlt] at hnew
  cases hnew

/-- **An input that is accepted is logged, or leaves the machine as it was.** -/
theorem handled (hfixed : app.Fixed) (haccepts : s.Accepts app e) (hready : s.Ready e) :
    Handled app vals s e := by
  cases e with
  | start height => exact handled_start hfixed hinv haccepts hready
  | timeout tm => exact handled_timeout hinv haccepts hready
  | proposal p =>
    refine handled_message p.toMessageHeader (s.voteCounter.addProposal p).1 _ _ rfl (fun hnew => ?_) rfl
      (hready.imp_right (hinv.add_past (.proposal p))) (hinv.added (.proposal p)) rfl rfl
        (hinv.le_of_new (.proposal p))
    exact ⟨hinv.holds.add_of_old (.proposal p) hnew, hinv.height, rfl, rfl, rfl⟩
  | prevote p =>
    refine handled_message p.toMessageHeader (s.voteCounter.addVote p .prevote).1 _ _ rfl (fun hnew => ?_) rfl
      (hready.imp_right (hinv.add_past (.vote _ p))) (hinv.added (.prevote p)) rfl rfl
        (hinv.le_of_new (.vote _ p))
    exact ⟨hinv.holds.add_of_old (.vote _ p) hnew, hinv.height, rfl, rfl, rfl⟩
  | precommit p =>
    have hlooked :=
        hasFuturePrecommitQuorum_frame { s with voteCounter := (s.voteCounter.addVote p .precommit).2 } p
    have heq : s.processWAL app (.precommit p) =
        if !(s.voteCounter.addVote p .precommit).1 || !s.isHeightStarted
        then ([], { s with voteCounter := (s.voteCounter.addVote p .precommit).2 })
        else ({ s with voteCounter := (s.voteCounter.addVote p .precommit).2 }.hasFuturePrecommitQuorum
          p).2.processMessage app
          p.toMessageHeader (.precommit p) := by
      have hfuture :
          ({ s with voteCounter := (s.voteCounter.addVote p .precommit).2 }.hasFuturePrecommitQuorum p).1 =
            false := haccepts
      simp only [processWAL, processPrecommit, VoteCounter.addPrecommit, hfuture]
      rfl
    refine handled_message p.toMessageHeader (s.voteCounter.addVote p .precommit).1
      { s with voteCounter := (s.voteCounter.addVote p .precommit).2 } _ heq (fun hnew => ?_) rfl
      (hready.imp_right (hinv.add_past (.vote _ p))) ((hinv.added (.precommit p)).hasFuturePrecommitQuorum p)
        hlooked.1 hlooked.2
      (hinv.le_of_new (.vote _ p))
    exact ⟨hinv.holds.add_of_old (.vote _ p) hnew, hinv.height, rfl, rfl, rfl⟩

/-- What an entry commits is of the current height, and the height ends. -/
theorem processWAL_commit (hp : .commit p ∈ (s.processWAL app e).1) :
    p.height = s.state.height ∧ (s.processWAL app e).2.state.height = s.state.height + 1 := by
  obtain ⟨s₁, as, h, hno, heq | ⟨recent, heq⟩⟩ := processWAL_comes app hinv e
  · rw [heq] at hp
    exact absurd (hno _ hp) (by simp [Action.isCommit])
  · rw [heq, processLoop_fst] at hp ⊢
    rw [← h.height]
    refine (loop_ends app h.inv recent).2.commit p ((mem_append.mp hp).resolve_left fun hp => ?_)
    exact absurd (hno _ hp) (by simp [Action.isCommit])

end

end

/-! ### The run of the log -/

section

variable (app : Application σ V) (vals : Validators A) (node : A) (b : ℕ)

/-- The run of the entries of a log, in their order, on a machine that is new at height `b`. -/
inductive Logs : List (WALEntry V H A) → List (Action V H A) → StateMachine σ V H A → Prop where
  | nil (a : σ) : Logs [] [] (new node a vals b)
  | snoc {D : List (WALEntry V H A)} {as : List (Action V H A)} {s : StateMachine σ V H A}
    {e : WALEntry V H A}
    (h : Logs D as s) (hf : s.Follows app e) :
      Logs (D ++ [e]) (as ++ (s.processWAL app e).1) (s.processWAL app e).2

variable {app vals node b} {D : List (WALEntry V H A)} {as : List (Action V H A)} {s : StateMachine σ V H A}

section

variable (h : Logs app vals node b D as s)
include h

/-- **What is known of a single machine holds of the run.** -/
theorem Logs.inv : Inv (fun _ => True) vals as s := by
  induction h with
  | nil a => exact inv_new _ node a vals b
  | @snoc D as s e h hf ih =>
    have hproper : s.Proper app (.wal e) := by
      cases e with
      | timeout tm => exact ⟨hf.2.2, .inl hf.2.1⟩
      | _ => exact trivial
    exact ih.moves (call_moves app hproper (fun _ => ih.lock.round) fun _ _ => trivial)

/-- The machine sends at most one message of a kind per round. -/
theorem Logs.eq_of_mark_eq {x y : Action V H A} (hx : x ∈ as) (hy : y ∈ as) {m : Mark}
    (hmx : x.mark = some m) (hmy : y.mark = some m) : x = y :=
  Tendermint.eq_of_mark_eq h.inv.ordered hx hy hmx hmy

theorem Logs.commit_lt (hp : .commit p ∈ as) : p.height < s.state.height :=
  (h.inv.decided p hp).1

end

variable (hfixed : app.Fixed) (hpos : ∀ height, 1 ≤ q (vals.totalVotingPower height))
include hfixed hpos

/-- **What is known of replays holds of the run.** -/
theorem Logs.tracks (h : Logs app vals node b D as s) : Tracks app vals node b D as s := by
  induction h with
  | nil a => exact tracks_new app node a vals b
  | snoc h hf ih => exact ih.append hfixed hpos hf

/-- **Recovery**: a new machine that replays the entries from a height on, by heights, becomes like the
machine of the run, and all that it does was done before. -/
theorem Logs.replay (h : Logs app vals node b D as s) {es : List (WALEntry V H A)}
    (hsorted : es.Pairwise fun a b => a.height ≤ b.height) {c : ℕ} (hbc : b ≤ c) (hc : c ≤ s.state.height)
    (hes : ∀ k, c ≤ k → atHeight height es k = atHeight height D k) (a : σ) :
    Alike vals Set.univ ((new node a vals c).replay app es).2 s ∧
      ∀ act ∈ visible ((new node a vals c).replay app es).1, act ∈ as := by
  have htracks := h.tracks hfixed hpos
  have hinv := counterInv_new (V := V) (H := H) node a vals c
  -- the entries of the current height and before, and then those of later heights
  have hfilter : es.filter (fun e => c ≤ e.height) =
      group height c (s.state.height + 1) D ++ es.filter (fun e => s.state.height + 1 ≤ e.height) := by
    have hsplit :=
      Walstore.filter_append_of_sorted height (hsorted.filter fun e => decide (c ≤ e.height))
        (s.state.height + 1)
    rw [hsplit, filter_filter, filter_filter]
    congr 1
    · rw [← Walstore.group_congr _ fun k hck _ => hes k hck, ← Walstore.filter_eq_group _ hsorted (by omega)]
      refine filter_congr fun e _ => ?_
      rw [Bool.decide_and, Bool.and_comm]
    · refine filter_congr fun e _ => ?_
      rw [Bool.eq_iff_iff, Bool.and_eq_true, decide_eq_true_eq, decide_eq_true_eq]
      omega
  have hlast : ∀ e ∈ es.filter (fun e => s.state.height + 1 ≤ e.height), e ∈ D ∧
      s.state.height < e.height := by
    intro e he
    obtain ⟨hmem, hlt⟩ := mem_filter.mp he
    have hlt := of_decide_eq_true hlt
    have hat : e ∈ atHeight height es e.height := mem_filter.mpr ⟨hmem, decide_eq_true rfl⟩
    rw [hes e.height (by omega)] at hat
    exact ⟨(mem_filter.mp hat).1, by omega⟩
  rw [replay_filter app hinv le_rfl, show (new node a vals c : StateMachine σ V H A).state.height =
    c from rfl, hfilter,
    replay_append]
  obtain ⟨hlike, hlater, hacts⟩ := htracks.replayed c hbc hc a
  generalize (new node a vals c).replay app (group height c (s.state.height + 1) D) = R
    at hlike hlater hacts ⊢
  have hheight : R.2.state.height = s.state.height := congrArg State.height hlike.state.symm
  obtain ⟨hnothing, hcounted⟩ :=
    counted_replay app hlike.inv (fun e he => htracks.messages e (hlast e he).1 (hlast e he).2)
    (fun e he => by rw [hheight]; exact (hlast e he).2.le)
    (fun e he => .inl (by rw [hheight]; exact (hlast e he).2.ne'))
  refine ⟨⟨⟨hcounted.inv.holds, htracks.inv.holds, ?_, fun k _ r => ?_⟩, hcounted.inv.height, ?_, ?_, ?_⟩, ?_⟩
  · rw [htracks.inv.height, hcounted.inv.height, hcounted.state, hheight]
  · rw [hcounted.data]
    rcases Nat.lt_trichotomy k s.state.height with hlt | rfl | hgt
    · rw [foldl_put_of_ne vals fun e he => by have := (hlast e he).2; omega,
        htracks.inv.holds.data_of_lt (by rw [htracks.inv.height]; exact hlt),
        hlike.inv.holds.data_of_lt (by rw [hlike.inv.height, hheight]; exact hlt)]
    · rw [foldl_put_of_ne vals fun e he => (hlast e he).2.ne']
      exact hlike.counter.data _ rfl r
    · have hat : atHeight height (es.filter fun e => s.state.height + 1 ≤ e.height) k =
          atHeight height D k := by
        rw [← hes k (by omega)]
        unfold atHeight
        rw [filter_filter]
        refine filter_congr fun e _ => ?_
        rw [Bool.eq_iff_iff, Bool.and_eq_true, decide_eq_true_eq, decide_eq_true_eq]
        omega
      rw [hlater k hgt, htracks.future k hgt, tally, ← foldl_put_atHeight, ← hat, foldl_put_atHeight]
  · rw [hcounted.nodeAddr, hlike.nodeAddr]
  · rw [hcounted.state, hlike.state]
  · rw [hcounted.started, hlike.started]
  · rw [visible_append, hnothing, append_nil]
    exact hacts

end

end Juno.Tendermint
