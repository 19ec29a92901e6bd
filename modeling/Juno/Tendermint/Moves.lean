import Juno.Tendermint.StateMachine
import Juno.Tendermint.Votes

/-!
# The moves of a machine

Every `Process…` call is a sequence of moves: it takes messages in, enters a round, votes,
locks, commits. `Move` says once what each of them requires and changes; what holds of every
run of calls is then shown move by move.

A call has to be `Proper`: a timeout reaches the machine after the height was started, or while
it is stale and no rule applies, heights are started at a round that exists, and rounds stay
within 64 bits. The source checks none of this.

The main result is `call_moves`.
-/

namespace Juno.Tendermint

open StateMachine Option

variable {σ V H A : Type} [Hashed V H] [DecidableEq H] [DecidableEq A] {r : ℤ} {tm : Timeout}

/-- The machine may enter the round: it starts its height there, or the round is a later one. -/
def StateMachine.CanEnter (s : StateMachine σ V H A) (r : ℤ) : Prop :=
  (s.isHeightStarted = false ∧ 0 ≤ r) ∨ (s.isHeightStarted = true ∧ s.state.round < r)

/-- The reason for a prevote: the round's proposal has the identifier, and the machine is not locked, is
locked on the same, or a quorum prevoted for it in an earlier round that is not before the lock. -/
def StateMachine.MayPrevote (s : StateMachine σ V H A) (i : H) : Prop :=
  ∃ p, s.voteCounter.getProposal s.state.round = some p ∧ Hashed.hash p.value = i ∧
    (s.state.lockedRound = -1 ∨ s.isLockedOn i = true ∨
      (s.state.lockedRound ≤ p.validRound ∧ 0 ≤ p.validRound ∧ p.validRound < s.state.round ∧
        s.voteCounter.hasQuorumForVote p.validRound .prevote (some i) = true))

/-- The proposal of the round has a quorum of votes. -/
def StateMachine.Backed (s : StateMachine σ V H A) (r : ℤ) (t : VoteType) (p : Proposal V A) : Prop :=
  s.voteCounter.getProposal r = some p ∧
    s.voteCounter.hasQuorumForVote r t (some (Hashed.hash p.value)) = true

inductive Move (received : Message V H A → Prop) (s : StateMachine σ V H A) :
    List (Action V H A) → StateMachine σ V H A → Prop where
  | consult (a : σ) : Move received s [] { s with application := a }
  | log (e : WALEntry V H A) : Move received s [.writeWAL e] s
  | sync (first last lastTriggerSync lastQuorum : ℕ) :
    Move received s [.triggerSync first last]
      { s with lastTriggerSync := lastTriggerSync, lastQuorum := lastQuorum }
  | proposal (p : Proposal V A) (hp : received (.proposal p)) :
    Move received s [] { s with voteCounter := (s.voteCounter.addProposal p).2 }
  | vote (t : VoteType) (v : Vote H A) (hv : received (.vote t v)) :
    Move received s [] { s with voteCounter := (s.voteCounter.addVote v t).2 }
  /-- The votes of a later height are looked at. -/
  | look (height : ℕ) (round : ℤ) (id : Option H) :
    Move received s [] { s with voteCounter := (s.voteCounter.hasFuturePrecommitQuorum height round id).2 }
  | enterPropose (r : ℤ) (hr : s.CanEnter r) (value : V) :
    Move received s [.broadcastProposal ⟨⟨s.state.height, r, s.nodeAddr⟩, s.state.validRound, value⟩]
      { s with
        isHeightStarted := true
        state := s.state.resetState r
        voteCounter := (s.voteCounter.addProposal
          ⟨⟨s.state.height, r, s.nodeAddr⟩, s.state.validRound, value⟩).2 }
  /-- A round is entered, waiting for its proposal. -/
  | enterWait (r : ℤ) (hr : s.CanEnter r) :
    Move received s [.scheduleTimeout ⟨.propose, s.state.height, r⟩]
      { s with isHeightStarted := true, state := s.state.resetState r }
  /-- A timeout of one of the later steps is scheduled. -/
  | schedule (step : Step) (hstep : step ≠ .propose) (prevote precommit : Bool) :
    Move received s [s.scheduleTimeout step]
      { s with
        state := { s.state with timeoutPrevoteScheduled := prevote, timeoutPrecommitScheduled := precommit } }
  | prevote (hs : s.isHeightStarted = true) (hstep : s.state.step = .propose) (id : Option H)
    (hid : ∀ i, id = some i → s.MayPrevote i) :
    Move received s [(s.setStepAndSendPrevote id).1] (s.setStepAndSendPrevote id).2
  | precommitNil (hs : s.isHeightStarted = true) (hstep : s.state.step = .prevote) :
    Move received s [(s.setStepAndSendPrecommit none).1] (s.setStepAndSendPrecommit none).2
  /-- The precommit of the round, for the value that is locked. -/
  | lock (hs : s.isHeightStarted = true) (hstep : s.state.step = .prevote) (p : Proposal V A)
    (hp : s.Backed s.state.round .prevote p) :
    Move received s [.broadcastPrecommit ⟨s.header, some (Hashed.hash p.value)⟩]
      { s with
        voteCounter := (s.voteCounter.addPrecommit ⟨s.header, some (Hashed.hash p.value)⟩).2
        state := { s.state with
          step := .precommit
          lockedValue := some p.value
          lockedRound := s.state.round
          validValue := some p.value
          validRound := s.state.round
          lockedValueAndOrValidValueSet := true } }
  | setValid (hs : s.isHeightStarted = true) (hstep : s.state.step = .precommit) (p : Proposal V A)
    (hp : s.Backed s.state.round .prevote p) :
    Move received s []
      { s with
        state := { s.state with
          validValue := some p.value
          validRound := s.state.round
          lockedValueAndOrValidValueSet := true } }
  | commit (hs : s.isHeightStarted = true) (r : ℤ) (c : CachedProposal V H A)
    (hp : s.voteCounter.getProposal r = some c.toProposal)
    (hq : s.voteCounter.hasQuorumForVote c.round .precommit (some (Hashed.hash c.value)) = true) :
    Move received s [(s.doCommitValue c).1] (s.doCommitValue c).2

inductive Moves (received : Message V H A → Prop) :
    StateMachine σ V H A → List (Action V H A) → StateMachine σ V H A → Prop where
  | refl (s : StateMachine σ V H A) : Moves received s [] s
  | step {s s' s'' : StateMachine σ V H A} {as bs : List (Action V H A)} (h : Move received s as s')
    (hs : Moves received s' bs s'') : Moves received s (as ++ bs) s''

variable {received : Message V H A → Prop} {s s' s'' : StateMachine σ V H A} {as bs : List (Action V H A)}

theorem Move.moves (h : Move received s as s') : Moves received s as s' := by
  simpa using Moves.step h (.refl s')

theorem Moves.trans (h : Moves received s as s') (h' : Moves received s' bs s'') :
    Moves received s (as ++ bs) s'' := by
  induction h with
  | refl => exact h'
  | step hm _ ih =>
    rw [List.append_assoc]
    exact .step hm (ih h')

/-- Induction over a sequence of moves, for what holds of the machine and of all the actions so far. -/
theorem Moves.preserves {P : List (Action V H A) → StateMachine σ V H A → Prop}
    (hstep : ∀ {hist s as s'}, Move received s as s' → P hist s → P (hist ++ as) s')
    (h : Moves received s as s') {hist : List (Action V H A)} (hs : P hist s) : P (hist ++ as) s' := by
  induction h generalizing hist with
  | refl => simpa using hs
  | step hm _ ih =>
    rw [← List.append_assoc]
    exact ih (hstep hm hs)

/-! ### Rounds -/

variable (app : Application σ V)

section

omit [Hashed V H] [DecidableEq H]

@[simp] theorem startRound_state (s : StateMachine σ V H A) (r : ℤ) :
    (s.startRound app r).2.state = s.state.resetState r := by
  simp only [startRound]
  split
  · unfold proposalValue
    split <;> rfl
  · rfl

@[simp] theorem startRound_isHeightStarted (s : StateMachine σ V H A) (r : ℤ) :
    (s.startRound app r).2.isHeightStarted = s.isHeightStarted := by
  simp only [startRound]
  split
  · unfold proposalValue
    split <;> rfl
  · rfl

end

theorem startRound_moves (hr : s.CanEnter r) :
    Moves received s [({ s with isHeightStarted := true }.startRound app r).1]
      ({ s with isHeightStarted := true }.startRound app r).2 := by
  unfold startRound
  simp only
  split
  · unfold proposalValue
    cases hv : s.state.validValue with
    | some value =>
      have h : (s.state.resetState r).validValue = some value := hv
      simp only [h]
      exact (Move.enterPropose r hr value).moves
    | none =>
      have h : (s.state.resetState r).validValue = none := hv
      simp only [h]
      exact .step (Move.consult _) (Move.enterPropose
        (s := { s with application := (app.value s.state.height r s.application).2 }) r hr
        (app.value s.state.height r s.application).1).moves
  · exact (Move.enterWait r hr).moves

theorem startRound_moves_of_started (hs : s.isHeightStarted = true) (hr : s.state.round < r) :
    Moves received s [(s.startRound app r).1] (s.startRound app r).2 := by
  have key : Moves received s _ _ := startRound_moves app (.inr ⟨hs, hr⟩)
  have heq : { s with isHeightStarted := true } = s := by
    cases s
    simp only at hs
    rw [hs]
  rwa [heq] at key

/-! ### The rules -/

variable {recent : Option ℤ} {c rc : Option (CachedProposal V H A)} {turn : Turn σ V H A}

/-- The turn one of the rules made, or that none of them applies. -/
inductive Fired (s : StateMachine σ V H A) (recent : Option ℤ) (c rc : Option (CachedProposal V H A)) :
    Turn σ V H A → Prop where
  | firstProposal (p : CachedProposal V H A) (hp : c = some p) (h : s.uponFirstProposal p = true) :
    Fired s recent c rc (ran (s.doFirstProposal p) true)
  | proposalAndPolkaPrevious (p : CachedProposal V H A) (hp : c = some p)
    (h : s.uponProposalAndPolkaPrevious p = true) :
    Fired s recent c rc (ran (s.doProposalAndPolkaPrevious p) true)
  | polkaAny (h : s.uponPolkaAny = true) :
    Fired s recent c rc (ran s.doPolkaAny true)
  | lock (p : CachedProposal V H A) (hp : c = some p) (h : s.uponProposalAndPolkaCurrent p = true)
    (hstep : s.state.step = .prevote) :
    Fired s recent c rc
      (ran ({ s with
        state := { s.state with
          lockedValue := some p.value
          lockedRound := s.state.round
          validValue := some p.value
          validRound := s.state.round
          lockedValueAndOrValidValueSet := true } }.setStepAndSendPrecommit (some p.id)) true)
  | setValid (p : CachedProposal V H A) (hp : c = some p) (h : s.uponProposalAndPolkaCurrent p = true)
    (hstep : s.state.step ≠ .prevote) :
    Fired s recent c rc
      ((none, true),
        { s with
          state := { s.state with
            validValue := some p.value
            validRound := s.state.round
            lockedValueAndOrValidValueSet := true } })
  | polkaNil (h : s.uponPolkaNil = true) :
    Fired s recent c rc (ran s.doPolkaNil true)
  | precommitAny (h : s.uponPrecommitAny = true) :
    Fired s recent c rc (ran s.doPrecommitAny true)
  | commitValue (p : CachedProposal V H A) (hp : rc = some p) (h : s.uponCommitValue p = true) :
    Fired s recent c rc (ran (s.doCommitValue p) false)
  | skipRound (r : ℤ) (hr : recent = some r) (h : s.uponSkipRound r = true) :
    Fired s recent c rc (ran (s.doSkipRound app r) true)
  | quiet (h22 : ∀ p, c = some p → s.uponFirstProposal p = false)
    (h28 : ∀ p, c = some p → s.uponProposalAndPolkaPrevious p = false)
    (h34 : s.uponPolkaAny = false)
    (h36 : ∀ p, c = some p → s.uponProposalAndPolkaCurrent p = false)
    (h44 : s.uponPolkaNil = false)
    (h47 : s.uponPrecommitAny = false)
    (h49 : ∀ p, rc = some p → s.uponCommitValue p = false)
    (h55 : ∀ r, recent = some r → s.uponSkipRound r = false) :
    Fired s recent c rc ((none, false), s)

theorem of_filter_eq_none {α : Type*} {o : Option α} {p : α → Bool} (h : o.filter p = none) :
    ∀ a, o = some a → p a = false := by
  intro a ha
  simpa [ha] using h

theorem tryRules_fired (s : StateMachine σ V H A) (recent : Option ℤ) (c rc : Option (CachedProposal V H A)) :
    Fired app s recent c rc (s.tryRules app recent c rc) := by
  fun_cases tryRules app s recent c rc
  case case1 p h22 => exact (filter_eq_some_iff.mp h22).elim (.firstProposal p)
  case case2 p h28 => exact (filter_eq_some_iff.mp h28).elim (.proposalAndPolkaPrevious p)
  case case3 h34 => exact .polkaAny h34
  case case4 p h36 =>
    obtain ⟨hp, h⟩ := filter_eq_some_iff.mp h36
    simp only [doProposalAndPolkaCurrent, lockAndPrecommit]
    split
    next hstep => exact .lock p hp h hstep
    next hstep => exact .setValid p hp h hstep
  case case5 h44 => exact .polkaNil h44
  case case6 h47 => exact .precommitAny h47
  case case7 p h49 => exact (filter_eq_some_iff.mp h49).elim (.commitValue p)
  case case8 r h55 => exact (filter_eq_some_iff.mp h55).elim (.skipRound r)
  case case9 h22 h28 h34 h36 h44 h47 h49 h55 =>
    exact .quiet (of_filter_eq_none h22) (of_filter_eq_none h28) (by simpa using h34) (of_filter_eq_none h36)
      (by simpa using h44) (by simpa using h47) (of_filter_eq_none h49) (of_filter_eq_none h55)

/-- What `findProposal` finds: the stored proposal, with its identifier. -/
def StateMachine.Found (s : StateMachine σ V H A) (r : ℤ) (c : Option (CachedProposal V H A)) : Prop :=
  ∀ p, c = some p → s.voteCounter.getProposal r = some p.toProposal ∧ p.id = Hashed.hash p.value

omit [DecidableEq H] [DecidableEq A] in
theorem findProposal_found (s : StateMachine σ V H A) (r : ℤ) :
    s.Found r (s.findProposal app r).1 ∧ ∃ a, (s.findProposal app r).2 = { s with application := a } := by
  unfold findProposal Found
  cases hp : s.voteCounter.getProposal r with
  | none => exact ⟨fun p h => by simp at h, s.application, rfl⟩
  | some proposal =>
    refine ⟨fun p h => ?_, _, rfl⟩
    rw [some.injEq] at h
    subst h
    exact ⟨rfl, rfl⟩

/-- A turn is one of the rules on the stored proposals, after the application was asked. -/
theorem process_fired (s : StateMachine σ V H A) (recent : Option ℤ) :
    ∃ a c rc, s.Found s.state.round c ∧ s.Found (recent.getD s.state.round) rc ∧
      Fired app { s with application := a } recent c rc (s.process app recent) := by
  obtain ⟨hc, a, ha⟩ := findProposal_found app s s.state.round
  unfold process
  simp only [ha]
  cases recent with
  | none => exact ⟨a, _, _, hc, hc, tryRules_fired app _ _ _ _⟩
  | some r =>
    obtain ⟨hrc, b, hb⟩ := findProposal_found app { s with application := a } r
    simp only [findRoundProposal, hb]
    exact ⟨b, _, _, hc, hrc, tryRules_fired app _ _ _ _⟩

theorem process_fired_none (s : StateMachine σ V H A) :
    ∃ a, Fired app { s with application := a } none (s.findProposal app s.state.round).1
      (s.findProposal app s.state.round).1 (s.process app none) := by
  obtain ⟨-, a, ha⟩ := findProposal_found app s s.state.round
  unfold process
  simp only [ha]
  exact ⟨a, tryRules_fired app _ _ _ _⟩

variable {p : CachedProposal V H A} {i : H}

omit [DecidableEq A] in
theorem mayPrevote_of_firstProposal (hc : s.Found s.state.round c) (hp : c = some p)
    (hi : (if p.valid ∧ (s.state.lockedRound = -1 ∨ s.isLockedOn p.id) then some p.id else none) = some i) :
    s.MayPrevote i := by
  obtain ⟨hget, hid⟩ := hc p hp
  split at hi
  next hvote =>
    rw [some.injEq] at hi
    subst hi
    exact ⟨p.toProposal, hget, hid.symm, hvote.2.imp_right .inl⟩
  next => cases hi

omit [DecidableEq A] in
theorem mayPrevote_of_polkaPrevious (hc : s.Found s.state.round c) (hp : c = some p)
    (hq : s.uponProposalAndPolkaPrevious p = true)
    (hi : (if p.valid ∧ (s.state.lockedRound ≤ p.validRound ∨ s.isLockedOn p.id) then some p.id else none) =
      some i) :
    s.MayPrevote i := by
  obtain ⟨hget, hid⟩ := hc p hp
  obtain ⟨hquorum, -, hge, hlt⟩ := of_decide_eq_true hq
  split at hi
  next hvote =>
    rw [some.injEq] at hi
    subst hi
    refine ⟨p.toProposal, hget, hid.symm, ?_⟩
    rcases hvote.2 with hle | hlocked
    · exact .inr (.inr ⟨hle, hge, hlt, hquorum⟩)
    · exact .inr (.inl hlocked)
  next => cases hi

theorem fired_moves (hs : s.isHeightStarted = true) (hc : s.Found s.state.round c) (hrc : s.Found r rc)
    (h : Fired app s recent c rc turn) : Moves received s turn.1.1.toList turn.2 := by
  cases h with
  | firstProposal p hp h =>
    obtain ⟨-, hstep⟩ := of_decide_eq_true h
    exact (Move.prevote hs hstep _ fun _ hi => mayPrevote_of_firstProposal hc hp hi).moves
  | proposalAndPolkaPrevious p hp h =>
    obtain ⟨-, hstep, -⟩ := of_decide_eq_true h
    exact (Move.prevote hs hstep _ fun _ hi => mayPrevote_of_polkaPrevious hc hp h hi).moves
  | polkaAny h => exact (Move.schedule .prevote (by decide) true _).moves
  | lock p hp h hstep =>
    obtain ⟨hget, hid⟩ := hc p hp
    have hq := (of_decide_eq_true h).1
    have key : Move received s _ _ := .lock hs hstep p.toProposal ⟨hget, hid ▸ hq⟩
    simpa [ran, setStepAndSendPrecommit, header, hid] using key.moves
  | setValid p hp h hprevote =>
    obtain ⟨hq, -, hpropose, -⟩ := of_decide_eq_true h
    obtain ⟨hget, hid⟩ := hc p hp
    have hstep : s.state.step = .precommit := by cases hst : s.state.step <;> simp_all
    exact (Move.setValid hs hstep p.toProposal ⟨hget, hid ▸ hq⟩).moves
  | polkaNil h => exact (Move.precommitNil hs (of_decide_eq_true h).2).moves
  | precommitAny h => exact (Move.schedule .precommit (by decide) _ true).moves
  | commitValue p hp h =>
    obtain ⟨hget, hid⟩ := hrc p hp
    obtain ⟨hq, -⟩ := of_decide_eq_true h
    rw [hid] at hq
    exact (Move.commit hs r p hget hq).moves
  | skipRound r hr h => exact startRound_moves_of_started app hs (of_decide_eq_true h).1
  | quiet => exact .refl s

/-- The machine is in the height it was in, and has started it, unless the turn was the last. -/
theorem fired_started (hs : s.isHeightStarted = true) (h : Fired app s recent c rc turn)
    (hcont : turn.1.2 = true) : turn.2.isHeightStarted = true := by
  cases h with
  | commitValue => cases hcont
  | quiet => cases hcont
  | skipRound => exact (startRound_isHeightStarted app s _).trans hs
  | _ => exact hs

/-! ### The loop -/

/-- A turn that is followed by another lowers the bound. -/
theorem fired_turns (h : Fired app s recent c rc turn) (hcont : turn.1.2 = true) :
    turn.2.turns recent < s.turns recent := by
  cases h with
  | firstProposal p hp h =>
    have hstep := (of_decide_eq_true h).2
    simp [ran, doFirstProposal, setStepAndSendPrevote, turns, hstep,
      Step.toNat]
  | proposalAndPolkaPrevious p hp h =>
    have hstep := (of_decide_eq_true h).2.1
    simp [ran, doProposalAndPolkaPrevious, setStepAndSendPrevote,
      turns, hstep, Step.toNat]
  | polkaAny h =>
    have hfirst := (of_decide_eq_true h).2.2
    simp only [Bool.not_eq_true'] at hfirst
    simp [ran, doPolkaAny, turns, hfirst]
  | lock p hp h hstep =>
    have hfirst := (of_decide_eq_true h).2.2.2
    simp only [Bool.not_eq_true'] at hfirst
    simp [ran, setStepAndSendPrecommit, turns, hfirst, hstep, Step.toNat]
  | setValid p hp h =>
    have hfirst := (of_decide_eq_true h).2.2.2
    simp only [Bool.not_eq_true'] at hfirst
    simp [turns, hfirst]
  | polkaNil h =>
    have hstep := (of_decide_eq_true h).2
    simp [ran, doPolkaNil, setStepAndSendPrecommit, turns, hstep,
      Step.toNat]
  | precommitAny h =>
    have hfirst := (of_decide_eq_true h).2
    simp only [Bool.not_eq_true'] at hfirst
    simp [ran, doPrecommitAny, turns, hfirst]
  | commitValue => cases hcont
  | skipRound r hr h =>
    have hlt := (of_decide_eq_true h).1
    subst hr
    have hafter : (ran (s.doSkipRound app r) true).2.turns (some r) ≤ 5 := by
      simp [ran, doSkipRound, turns, State.resetState, Step.toNat]
    have hbefore : 6 ≤ s.turns (some r) := by
      simp only [turns, any_some, decide_eq_true hlt, if_true]
      omega
    omega
  | quiet => cases hcont

theorem process_turns (hcont : (s.process app recent).1.2 = true) :
    (s.process app recent).2.turns recent < s.turns recent := by
  obtain ⟨a, c, rc, -, -, h⟩ := process_fired app s recent
  -- asking the application does not change the bound
  have key := fired_turns app h hcont
  exact key

theorem loop_of_stop (n : ℕ) (hstop : (s.process app recent).1.2 = false) :
    loop app recent n s = ((s.process app recent).1.1.toList, (s.process app recent).2) := by
  cases n <;> simp [loop, hstop]

theorem loop_of_continue (n : ℕ) (hcont : (s.process app recent).1.2 = true) :
    loop app recent (n + 1) s =
      ((s.process app recent).1.1.toList ++ (loop app recent n (s.process app recent).2).1,
        (loop app recent n (s.process app recent).2).2) := by
  simp [loop, hcont]

/-- Induction over the turns of the loop: what the last turn gives, what one turn adds in front of the
others. -/
theorem loop_induction (recent : Option ℤ)
    {P : StateMachine σ V H A → List (Action V H A) → StateMachine σ V H A → Prop}
    (hstop : ∀ s, (s.process app recent).1.2 = false →
      P s (s.process app recent).1.1.toList (s.process app recent).2)
    (hstep : ∀ s as s', (s.process app recent).1.2 = true → P (s.process app recent).2 as s' →
      P s ((s.process app recent).1.1.toList ++ as) s')
    (n : ℕ) :
    ∀ s : StateMachine σ V H A, s.turns recent ≤ n →
      P s (loop app recent n s).1 (loop app recent n s).2 := by
  induction n with
  | zero =>
    intro s hn
    have hs : (s.process app recent).1.2 = false := by
      by_contra hcont
      have := process_turns app (Bool.eq_true_of_not_eq_false hcont)
      omega
    rw [loop_of_stop app _ hs]
    exact hstop s hs
  | succ n ih =>
    intro s hn
    cases hcont : (s.process app recent).1.2 with
    | false =>
      rw [loop_of_stop app _ hcont]
      exact hstop s hcont
    | true =>
      have hlt := process_turns app hcont
      rw [loop_of_continue app _ hcont]
      exact hstep s _ _ hcont (ih _ (by omega))

theorem loop_eq_loop {n m : ℕ} (hn : s.turns recent ≤ n) (hm : s.turns recent ≤ m) :
    loop app recent n s = loop app recent m s := by
  refine loop_induction app recent (P := fun s as s' => ∀ m, s.turns recent ≤ m →
    (as, s') = loop app recent m s)
    (fun s hstop m _ => ?_) (fun s as s' hcont ih m hm => ?_) n s hn m hm
  · rw [loop_of_stop app _ hstop]
  · have hlt := process_turns app hcont
    obtain ⟨m, rfl⟩ : ∃ k, m = k + 1 := ⟨m - 1, by omega⟩
    rw [loop_of_continue app _ hcont, ← ih m (by omega)]

/-- **`processLoop` is the loop of the source**: after a turn it goes on if and only if `process` says so. -/
theorem processLoop_eq (s : StateMachine σ V H A) (actions : List (Action V H A)) (recent : Option ℤ) :
    s.processLoop app actions recent =
      if (s.process app recent).1.2 = true
      then (s.process app recent).2.processLoop app (actions ++ (s.process app recent).1.1.toList) recent
      else (actions ++ (s.process app recent).1.1.toList, (s.process app recent).2) := by
  split
  next hcont =>
    have hlt := process_turns app hcont
    obtain ⟨k, hk⟩ : ∃ k, s.turns recent = k + 1 := ⟨s.turns recent - 1, by omega⟩
    unfold processLoop
    rw [hk, loop_of_continue app _ hcont, loop_eq_loop app (n := k) (by omega) le_rfl, List.append_assoc]
  next hstop =>
    rw [Bool.not_eq_true] at hstop
    unfold processLoop
    rw [loop_of_stop app _ hstop]

theorem process_moves (hs : s.isHeightStarted = true) (recent : Option ℤ) :
    Moves received s (s.process app recent).1.1.toList (s.process app recent).2 := by
  obtain ⟨a, c, rc, hc, hrc, h⟩ := process_fired app s recent
  exact .step (Move.consult a) (fired_moves app (s := { s with application := a }) hs hc hrc h)

theorem process_started (hs : s.isHeightStarted = true) (hcont : (s.process app recent).1.2 = true) :
    (s.process app recent).2.isHeightStarted = true := by
  obtain ⟨a, c, rc, -, -, h⟩ := process_fired app s recent
  exact fired_started app (s := { s with application := a }) hs h hcont

theorem processLoop_moves (hs : s.isHeightStarted = true) (recent : Option ℤ) :
    Moves received s (s.processLoop app [] recent).1 (s.processLoop app [] recent).2 := by
  have key := loop_induction app recent
    (P := fun s as s' => s.isHeightStarted = true → Moves received s as s')
    (fun s _ hs => process_moves app hs recent)
    (fun s as s' hcont ih hs => (process_moves app hs recent).trans (ih (process_started app hs hcont)))
    _ s le_rfl
  exact key hs

theorem Moves.processLoop (h : Moves received s as s') (hs : s'.isHeightStarted = true) (recent : Option ℤ) :
    Moves received s (s'.processLoop app as recent).1 (s'.processLoop app as recent).2 :=
  h.trans (processLoop_moves app hs recent)

/-! ### The calls -/

def Call.messages : Call V H A → List (Message V H A)
  | .proposal p => [.proposal p]
  | .prevote p => [.vote .prevote p]
  | .precommit p => [.vote .precommit p]
  | .sync p precommits => .proposal p :: precommits.map (.vote .precommit)
  | .wal (.proposal p) => [.proposal p]
  | .wal (.prevote p) => [.vote .prevote p]
  | .wal (.precommit p) => [.vote .precommit p]
  | _ => []

def StateMachine.Expects (s : StateMachine σ V H A) (tm : Timeout) : Prop :=
  s.isSameHeightAndRound tm = true ∧ (tm.step = .precommit ∨ s.state.step = tm.step)

/-- No rule applies that the loop looks at when no message came. -/
def StateMachine.Idle (s : StateMachine σ V H A) : Prop :=
  (∀ p ∈ (s.findProposal app s.state.round).1, s.uponFirstProposal p = false ∧
      s.uponProposalAndPolkaPrevious p = false ∧ s.uponProposalAndPolkaCurrent p = false ∧
      s.uponCommitValue p = false) ∧
    s.uponPolkaAny = false ∧ s.uponPolkaNil = false ∧ s.uponPrecommitAny = false

/-- A timeout that is not of the last round there is, and reaches the machine after the height was started, or
while the machine does not wait for it and no rule applies. -/
def StateMachine.ProperTimeout (s : StateMachine σ V H A) (tm : Timeout) : Prop :=
  (tm.step = .precommit → tm.round < 2 ^ 63 - 1) ∧ (s.isHeightStarted = true ∨ ¬ s.Expects tm ∧ s.Idle app)

/-- A call whose timeout is proper, and that starts a height at a round there is. -/
def StateMachine.Proper (s : StateMachine σ V H A) : Call V H A → Prop
  | .start round => s.isHeightStarted = false → 0 ≤ round
  | .timeout tm => s.ProperTimeout app tm
  | .wal (.timeout tm) => s.ProperTimeout app tm
  | _ => True

theorem processStart_moves {round : ℤ} (hround : s.isHeightStarted = false → 0 ≤ round) :
    Moves received s (s.processStart app round).1 (s.processStart app round).2 := by
  unfold processStart
  split
  · exact .refl s
  next hs =>
    rw [Bool.not_eq_true] at hs
    have hstarted := startRound_isHeightStarted app { s with isHeightStarted := true } round
    exact .step (.log _) ((startRound_moves app (.inl ⟨hs, hround hs⟩)).processLoop app hstarted none)

theorem processMessage_moves (hs : s.isHeightStarted = true) (msg : MessageHeader A)
    (walEntry : WALEntry V H A) :
    Moves received s (s.processMessage app msg walEntry).1 (s.processMessage app msg walEntry).2 := by
  unfold processMessage
  split
  · exact (Move.log _).moves
  · exact (Move.log walEntry).moves.processLoop app hs _

theorem processProposal_moves {p : Proposal V A} (hp : received (.proposal p)) :
    Moves received s (s.processProposal app p).1 (s.processProposal app p).2 := by
  unfold processProposal
  simp only
  split
  · exact (Move.proposal p hp).moves
  next h =>
    simp only [Bool.or_eq_true, Bool.not_eq_true', not_or, Bool.not_eq_false] at h
    refine .step (Move.proposal p hp) (processMessage_moves app ?_ _ _)
    exact h.2

theorem processPrevote_moves {p : Vote H A} (hp : received (.vote .prevote p)) :
    Moves received s (s.processPrevote app p).1 (s.processPrevote app p).2 := by
  unfold processPrevote
  simp only
  split
  · exact (Move.vote .prevote p hp).moves
  next h =>
    simp only [Bool.or_eq_true, Bool.not_eq_true', not_or, Bool.not_eq_false] at h
    refine .step (Move.vote .prevote p hp) (processMessage_moves app ?_ _ _)
    exact h.2

theorem hasFuturePrecommitQuorum_moves (s : StateMachine σ V H A) (p : Vote H A) :
    Moves received s [] (s.hasFuturePrecommitQuorum p).2 ∧
      (s.hasFuturePrecommitQuorum p).2.isHeightStarted = s.isHeightStarted := by
  unfold hasFuturePrecommitQuorum
  split
  · exact ⟨(Move.look p.height p.round p.id).moves, rfl⟩
  · exact ⟨.refl s, rfl⟩

theorem processPrecommit_moves {p : Vote H A} (hp : received (.vote .precommit p)) :
    Moves received s (s.processPrecommit app p).1 (s.processPrecommit app p).2 := by
  unfold processPrecommit
  simp only
  split
  · exact (Move.vote .precommit p hp).moves
  next h =>
    simp only [Bool.or_eq_true, Bool.not_eq_true', not_or, Bool.not_eq_false] at h
    refine .step (Move.vote .precommit p hp) ?_
    obtain ⟨hlook, hstarted⟩ :=
      hasFuturePrecommitQuorum_moves { s with voteCounter := (s.voteCounter.addPrecommit p).2 } p
    split
    · exact hlook.trans (Move.sync _ _ _ _).moves
    · exact hlook.trans (processMessage_moves app (hstarted.trans h.2) _ _)

theorem processPrecommits_moves {ps : List (Vote H A)} (hps : ∀ p ∈ ps, received (.vote .precommit p)) :
    Moves received s (s.processPrecommits app ps).1 (s.processPrecommits app ps).2 := by
  induction ps generalizing s with
  | nil => exact .refl s
  | cons p ps ih =>
    exact (processPrecommit_moves app (hps p (by simp))).trans (ih fun p' hp' => hps p' (by simp [hp']))

theorem lt_nextRound (h0 : 0 ≤ r) (h : r < 2 ^ 63 - 1) : r < nextRound r := by
  unfold nextRound
  omega

/-- What a timeout does before the loop: nothing, or what the machine waits for it to do. -/
inductive TimedOut (s : StateMachine σ V H A) (tm : Timeout) : List (Action V H A) × StateMachine σ V H A →
    Prop where
  | ignored (h : s.isSameHeightAndRound tm = true → tm.step ≠ .precommit ∧ s.state.step ≠ tm.step) :
    TimedOut s tm ([], s)
  | propose (hsame : s.isSameHeightAndRound tm = true) (htm : tm.step = .propose)
    (hstep : s.state.step = .propose) :
    TimedOut s tm ([.writeWAL (.timeout tm), (s.setStepAndSendPrevote none).1],
      (s.setStepAndSendPrevote none).2)
  | prevote (hsame : s.isSameHeightAndRound tm = true) (htm : tm.step = .prevote)
    (hstep : s.state.step = .prevote) :
    TimedOut s tm ([.writeWAL (.timeout tm), (s.setStepAndSendPrecommit none).1],
      (s.setStepAndSendPrecommit none).2)
  | precommit (hsame : s.isSameHeightAndRound tm = true) (htm : tm.step = .precommit) :
    TimedOut s tm
      ([.writeWAL (.timeout tm), (s.startRound app (nextRound tm.round)).1],
        (s.startRound app (nextRound tm.round)).2)

omit [Hashed V H] in
theorem onTimeout_timedOut (s : StateMachine σ V H A) (tm : Timeout) :
    TimedOut app s tm (s.onTimeout app tm) := by
  unfold onTimeout
  cases htm : tm.step with
  | propose =>
    simp only [onTimeoutPropose]
    split
    next h => exact .propose h.1 htm h.2
    next h => exact .ignored fun hsame => by simpa [htm, hsame] using h
  | prevote =>
    simp only [onTimeoutPrevote]
    split
    next h => exact .prevote h.1 htm h.2
    next h => exact .ignored fun hsame => by simpa [htm, hsame] using h
  | precommit =>
    simp only [onTimeoutPrecommit]
    split
    next h => exact .precommit h htm
    next h => exact .ignored fun hsame => absurd hsame h

theorem processTimeout_timedOut (s : StateMachine σ V H A) (tm : Timeout) :
    ∃ r, TimedOut app s tm r ∧ s.processTimeout app tm = r.2.processLoop app r.1 none :=
  ⟨_, onTimeout_timedOut app s tm, rfl⟩

theorem processTimeout_of_not_expects (h : ¬ s.Expects tm) :
    s.processTimeout app tm = s.processLoop app [] none := by
  obtain ⟨r, hr, heq⟩ := processTimeout_timedOut app s tm
  rw [heq]
  cases hr with
  | ignored => rfl
  | precommit hsame htm => exact absurd ⟨hsame, .inl htm⟩ h
  | _ hsame htm hstep => exact absurd ⟨hsame, .inr (hstep.trans htm.symm)⟩ h

theorem process_of_idle (h : s.Idle app) :
    ∃ a, s.process app none = ((none, false), { s with application := a }) := by
  obtain ⟨hproposal, h34, h44, h47⟩ := h
  obtain ⟨a, hfired⟩ := process_fired_none app s
  refine ⟨a, ?_⟩
  generalize s.process app none = turn at hfired
  -- a rule looks at the messages and at the state, which asking the application leaves as they are
  cases hfired with
  | firstProposal p hp h => exact absurd ((hproposal p hp).1.symm.trans h) Bool.false_ne_true
  | proposalAndPolkaPrevious p hp h => exact absurd ((hproposal p hp).2.1.symm.trans h) Bool.false_ne_true
  | polkaAny h => exact absurd (h34.symm.trans h) Bool.false_ne_true
  | lock p hp h | setValid p hp h => exact absurd ((hproposal p hp).2.2.1.symm.trans h) Bool.false_ne_true
  | polkaNil h => exact absurd (h44.symm.trans h) Bool.false_ne_true
  | precommitAny h => exact absurd (h47.symm.trans h) Bool.false_ne_true
  | commitValue p hp h => exact absurd ((hproposal p hp).2.2.2.symm.trans h) Bool.false_ne_true
  | skipRound r hr => cases hr
  | quiet => rfl

theorem processLoop_of_idle (h : s.Idle app) :
    ∃ a, s.processLoop app [] none = ([], { s with application := a }) := by
  obtain ⟨a, ha⟩ := process_of_idle app h
  refine ⟨a, ?_⟩
  unfold processLoop
  rw [loop_of_stop app _ (by rw [ha]), ha]
  rfl

theorem processTimeout_moves (h : s.ProperTimeout app tm)
    (hround : s.isHeightStarted = true → 0 ≤ s.state.round) :
    Moves received s (s.processTimeout app tm).1 (s.processTimeout app tm).2 := by
  obtain ⟨hnext, hs | ⟨hnot, hidle⟩⟩ := h
  · obtain ⟨r, hr, heq⟩ := processTimeout_timedOut app s tm
    rw [heq]
    refine Moves.processLoop app ?_ ?_ none
    · cases hr with
      | ignored => exact .refl s
      | propose hsame htm hstep => exact .step (.log _) (Move.prevote hs hstep none (by simp)).moves
      | prevote hsame htm hstep => exact .step (.log _) (Move.precommitNil hs hstep).moves
      | precommit hsame htm =>
        have h0 := hround hs
        refine .step (.log _) (startRound_moves_of_started app hs ?_)
        rw [(of_decide_eq_true hsame).2] at h0 ⊢
        exact lt_nextRound h0 (hnext htm)
    · cases hr with
      | precommit => exact (startRound_isHeightStarted app s _).trans hs
      | _ => exact hs
  · obtain ⟨a, ha⟩ := processLoop_of_idle app hidle
    rw [processTimeout_of_not_expects app hnot, ha]
    exact (Move.consult a).moves

/-- **A proper call is a sequence of moves**, with the actions it returns. -/
theorem call_moves {c : Call V H A} (hc : s.Proper app c)
    (hround : s.isHeightStarted = true → 0 ≤ s.state.round) (hreceived : ∀ m ∈ c.messages, received m) :
    Moves received s (s.call app c).1 (s.call app c).2 := by
  cases c with
  | start round => exact processStart_moves app hc
  | proposal p => exact processProposal_moves app (hreceived _ (by simp [Call.messages]))
  | prevote p => exact processPrevote_moves app (hreceived _ (by simp [Call.messages]))
  | precommit p => exact processPrecommit_moves app (hreceived _ (by simp [Call.messages]))
  | sync p precommits =>
    exact (processProposal_moves app (hreceived _ (by simp [Call.messages]))).trans
      (processPrecommits_moves app fun p' hp' => hreceived _ (by simp [Call.messages, hp']))
  | timeout tm => exact processTimeout_moves app hc hround
  | wal entry =>
    cases entry with
    | start height => exact processStart_moves app fun _ => le_rfl
    | proposal p => exact processProposal_moves app (hreceived _ (by simp [Call.messages]))
    | prevote p => exact processPrevote_moves app (hreceived _ (by simp [Call.messages]))
    | precommit p => exact processPrecommit_moves app (hreceived _ (by simp [Call.messages]))
    | timeout tm => exact processTimeout_moves app hc hround

end Juno.Tendermint
