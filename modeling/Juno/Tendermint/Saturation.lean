import Juno.Tendermint.Rounds

/-!
# Which rules are left

After a call no rule of the algorithm should still apply: a rule that is missed can leave a
validator waiting with a decision in hand. The loop of the source looks at the current round
and at the round of the message that came in, so the question is what can become enabled in
the other rounds.

## The model

`Saturated` says that no rule applies to what the machine holds of its height: lines 22 to 47
in the current round, line 49 in any round, line 55 in any later one. The answers of `Valid`
are those of a fixed function `ok`.

Two things go wrong. A height that is started with messages that came early is looked at only
in its first round (`Looked`). And a prevote of an earlier round that makes the machine vote in
its own round can complete a decision there, while only the earlier round is looked at
(`LatePrevote`).

The main result is `saturated_calls`.
-/

namespace Juno.Tendermint

open StateMachine BallotSet Option Hashed

variable {σ V H A : Type} [Hashed V H] [DecidableEq H] [DecidableEq A]

/-! ### Rules -/

def cached (ok : V → Bool) (p : Proposal V A) : CachedProposal V H A := ⟨p, ok p.value, hash p.value⟩

/-- The proposal of a round as the rules see it. -/
def StateMachine.cachedAt (s : StateMachine σ V H A) (ok : V → Bool) (r : ℤ) :
    Option (CachedProposal V H A) :=
  (s.voteCounter.getProposal r).map (cached ok)

/-- Line 49 applies in the round. -/
def StateMachine.CanCommit (s : StateMachine σ V H A) (ok : V → Bool) (r : ℤ) : Prop :=
  ∃ p, s.cachedAt ok r = some p ∧ s.uponCommitValue p = true

/-- None of the lines 22 to 47 applies. -/
structure QuietRound (ok : V → Bool) (s : StateMachine σ V H A) : Prop where
  firstProposal : ∀ p, s.cachedAt ok s.state.round = some p → s.uponFirstProposal p = false
  polkaPrevious : ∀ p, s.cachedAt ok s.state.round = some p → s.uponProposalAndPolkaPrevious p = false
  polkaAny : s.uponPolkaAny = false
  polkaCurrent : ∀ p, s.cachedAt ok s.state.round = some p → s.uponProposalAndPolkaCurrent p = false
  polkaNil : s.uponPolkaNil = false
  precommitAny : s.uponPrecommitAny = false

structure Saturated (ok : V → Bool) (s : StateMachine σ V H A) : Prop extends QuietRound ok s where
  commit : ∀ r, ¬ s.CanCommit ok r
  skip : ∀ r, s.uponSkipRound r = false

/-- No rule applies that the loop looks at. -/
structure Quiet (ok : V → Bool) (recent : Option ℤ) (s : StateMachine σ V H A) :
    Prop extends QuietRound ok s where
  commit : ¬ s.CanCommit ok (recent.getD s.state.round)
  skip : ∀ r, recent = some r → s.uponSkipRound r = false

variable {app : Application σ V} {ok : V → Bool} {s s' s'' : StateMachine σ V H A} {vals : Validators A}

omit [DecidableEq H] [DecidableEq A] in
theorem findProposal_fst (hvalid : ∀ h r a v, (app.valid h r a v).1 = ok v)
    (s : StateMachine σ V H A) (r : ℤ) :
    (s.findProposal app r).1 = s.cachedAt ok r := by
  unfold findProposal cachedAt
  cases s.voteCounter.getProposal r with
  | none => rfl
  | some p => simp [cached, hvalid]

/-- A turn, when the answers of the application do not change. -/
theorem process_fired_of_valid (hvalid : ∀ h r a v, (app.valid h r a v).1 = ok v) (s : StateMachine σ V H A)
    (recent : Option ℤ) : ∃ a, Fired app { s with application := a } recent (s.cachedAt ok s.state.round)
      (s.cachedAt ok (recent.getD s.state.round)) (s.process app recent) := by
  obtain ⟨-, a, ha⟩ := findProposal_found app s s.state.round
  have hfst := findProposal_fst hvalid s s.state.round
  unfold process
  simp only [ha, hfst]
  cases recent with
  | none => exact ⟨a, tryRules_fired app _ _ _ _⟩
  | some r =>
    obtain ⟨-, b, hb⟩ := findProposal_found app { s with application := a } r
    have hfst' := findProposal_fst hvalid { s with application := a } r
    simp only [findRoundProposal, hb, hfst']
    exact ⟨b, tryRules_fired app _ _ _ _⟩

/-! ### The machine's own votes -/

variable {r : ℤ} {t : VoteType} {recent : Option ℤ}

/-- The votes for an identifier that a round has, with the one of a validator if it is missing. -/
def RoundData.withOwn (data : RoundData V H A) (u : VoteType) (node : A) (power : ℕ) (id : Option H) : ℕ :=
  data.countVote u id + if (data.votesFor id).any (·.voted u node) then 0 else power

omit [Hashed V H] in
/-- A vote of the validator itself makes no difference. -/
theorem RoundData.withOwn_addVote (data : RoundData V H A) (header : MessageHeader A) (vid id : Option H)
    (power : ℕ) (t u : VoteType) :
    (data.addVote ⟨header, vid⟩ power t).2.withOwn u header.sender power id =
      data.withOwn u header.sender power id := by
  unfold withOwn countVote
  rw [votesFor_addVote]
  by_cases hid : id = vid
  · rw [if_pos hid]
    cases hvotes : data.votesFor id with
    | none => by_cases hu : u = t <;> simp [add_perVoteType, add_voted, hu]
    | some b =>
      by_cases hu : u = t
      · subst hu
        cases hv : b.voted u header.sender <;> simp [add_perVoteType, add_voted, hv]
      · simp [add_perVoteType, add_voted, hu]
  · rw [if_neg hid]

/-- The votes of a round of the current height. -/
def StateMachine.votes (s : StateMachine σ V H A) (r : ℤ) (u : VoteType) (id : Option H) : ℕ :=
  ((s.voteCounter.roundData r).getD newRoundData).countVote u id

def StateMachine.withOwn (s : StateMachine σ V H A) (r : ℤ) (u : VoteType) (id : Option H) : ℕ :=
  ((s.voteCounter.roundData r).getD newRoundData).withOwn u s.nodeAddr
    (s.voteCounter.validators.validatorVotingPower s.state.height s.nodeAddr) id

omit [Hashed V H] [DecidableEq A] in
theorem StateMachine.votes_le_withOwn (s : StateMachine σ V H A) (r : ℤ) (u : VoteType) (id : Option H) :
    s.votes r u id ≤ s.withOwn r u id := by
  simp only [votes, withOwn, RoundData.withOwn]
  omega

variable {id : Option H}

omit [Hashed V H] [DecidableEq A] in
theorem StateMachine.le_votes {u : VoteType} (hq : s.voteCounter.hasQuorumForVote r u id = true) :
    s.voteCounter.quorumVotingPower ≤ s.votes r u id := by
  obtain ⟨data, hdata, hle⟩ := VoteCounter.hasQuorumForVote_iff.mp hq
  rwa [votes, hdata, getD_some]

/-- The machine is where it was, and only the current round has changed, by its own votes. -/
structure Stays (s s' : StateMachine σ V H A) : Prop where
  round : s'.state.round = s.state.round
  started : s'.isHeightStarted = s.isHeightStarted
  faulty : s'.voteCounter.faultyVotingPower = s.voteCounter.faultyVotingPower
  quorum : s'.voteCounter.quorumVotingPower = s.voteCounter.quorumVotingPower
  elsewhere : ∀ r, r ≠ s.state.round → s'.voteCounter.roundData r = s.voteCounter.roundData r
  proposal : ∀ r, s'.voteCounter.getProposal r = s.voteCounter.getProposal r
  withOwn : ∀ r u id, s'.withOwn r u id = s.withOwn r u id

section

omit [Hashed V H] [DecidableEq A]

theorem Stays.refl (s : StateMachine σ V H A) : Stays s s :=
  ⟨rfl, rfl, rfl, rfl, fun _ _ => rfl, fun _ => rfl, fun _ _ _ => rfl⟩

theorem Stays.trans (h : Stays s s') (h' : Stays s' s'') : Stays s s'' where
  round := h'.round.trans h.round
  started := h'.started.trans h.started
  faulty := h'.faulty.trans h.faulty
  quorum := h'.quorum.trans h.quorum
  elsewhere r hr := (h'.elsewhere r (by rwa [h.round])).trans (h.elsewhere r hr)
  proposal r := (h'.proposal r).trans (h.proposal r)
  withOwn r u id := (h'.withOwn r u id).trans (h.withOwn r u id)

end

omit [Hashed V H] in
/-- The state changes within its round, and the counter takes in a vote of the machine itself. -/
theorem stays_of_vote (hheight : s.voteCounter.currentHeight = s.state.height)
    (hcounter : s'.voteCounter = (s.voteCounter.addVote ⟨s.header, id⟩ t).2)
    (hnode : s'.nodeAddr = s.nodeAddr) (hh : s'.state.height = s.state.height)
    (hr : s'.state.round = s.state.round) (hs : s'.isHeightStarted = s.isHeightStarted) : Stays s s' := by
  rcases s.voteCounter.add_changes (.vote t ⟨s.header, id⟩) with ⟨hlt, -⟩ | ⟨-, -, hc⟩
  · exact absurd hlt (by simp [Message.header, header, hheight])
  rw [VoteCounter.add, ← hcounter] at hc
  refine ⟨hr, hs, hc.faulty, hc.quorum, ?_, ?_, ?_⟩
  · intro r hne
    rw [hc.roundData, if_neg fun h => hne h.2]
  · intro r
    unfold VoteCounter.getProposal
    rw [hc.roundData]
    split
    next =>
      cases s.voteCounter.roundData r <;> simp [VoteCounter.put, VoteCounter.putVote, newRoundData]
    next => rfl
  · intro r u id'
    unfold withOwn
    rw [hc.validators, hnode, hh, hc.roundData]
    split
    next => exact RoundData.withOwn_addVote _ s.header id id' _ t u
    next => rfl

section

omit [Hashed V H] [DecidableEq A]

theorem stays_of_state (hcounter : s'.voteCounter = s.voteCounter) (hnode : s'.nodeAddr = s.nodeAddr)
    (hh : s'.state.height = s.state.height) (hr : s'.state.round = s.state.round)
    (hs : s'.isHeightStarted = s.isHeightStarted) : Stays s s' := by
  refine ⟨hr, hs, ?_, ?_, ?_, ?_, ?_⟩
  all_goals simp [hcounter, withOwn, hnode, hh]

theorem stays_application (s : StateMachine σ V H A) (a : σ) : Stays s { s with application := a } :=
  stays_of_state rfl rfl rfl rfl rfl

end

variable {turn : StateMachine.Turn σ V H A}

/-- A rule other than line 55, and other than a commit, stays in its round. -/
theorem fired_stays (hheight : s.voteCounter.currentHeight = s.state.height)
    (hrecent : ∀ r, recent = some r → r ≤ s.state.round) {c rc : Option (CachedProposal V H A)}
    (h : Fired app s recent c rc turn) (hcont : turn.1.2 = true) : Stays s turn.2 := by
  cases h with
  | firstProposal | proposalAndPolkaPrevious | lock | polkaNil =>
    exact stays_of_vote hheight rfl rfl rfl rfl rfl
  | polkaAny | setValid | precommitAny => exact stays_of_state rfl rfl rfl rfl rfl
  | commitValue => cases hcont
  | skipRound r hr h => exact absurd (of_decide_eq_true h).1 (hrecent r hr).not_gt
  | quiet => cases hcont

/-! ### The counter -/

structure CounterInv (vals : Validators A) (s : StateMachine σ V H A) : Prop where
  height : s.voteCounter.currentHeight = s.state.height
  holds : s.voteCounter.Holds (fun _ => True) vals

section

variable (h : CounterInv vals s)
include h

omit [Hashed V H] in
theorem CounterInv.add (m : Message V H A) (hcounter : s'.voteCounter = (s.voteCounter.add m).2)
    (hheight : s'.state.height = s.state.height) : CounterInv vals s' where
  height := by rw [hcounter, (VoteCounter.grows_add _ m).currentHeight, hheight, h.height]
  holds := hcounter ▸ h.holds.add m trivial

omit [Hashed V H] [DecidableEq A] in
theorem CounterInv.of_state (hcounter : s'.voteCounter = s.voteCounter)
    (hheight : s'.state.height = s.state.height) : CounterInv vals s' where
  height := by rw [hcounter, hheight, h.height]
  holds := hcounter ▸ h.holds

end

omit [Hashed V H] in
variable (app) in
theorem CounterInv.startRound (h : CounterInv vals s) (r : ℤ) : CounterInv vals (s.startRound app r).2 := by
  unfold StateMachine.startRound
  simp only
  split
  · unfold proposalValue
    split
    · exact h.add (.proposal _) rfl rfl
    · exact h.add (.proposal _) rfl rfl
  · exact h.of_state rfl rfl

section

variable (h : CounterInv vals s)
include h

theorem CounterInv.fired {c rc : Option (CachedProposal V H A)}
    (hfired : Fired app s recent c rc turn) : CounterInv vals turn.2 := by
  cases hfired with
  | firstProposal | proposalAndPolkaPrevious | lock | polkaNil => exact h.add (.vote _ _) rfl rfl
  | polkaAny | setValid | precommitAny => exact h.of_state rfl rfl
  | commitValue => exact ⟨congrArg (· + 1) h.height, h.holds.startNewHeight⟩
  | skipRound => exact h.startRound app _
  | quiet => exact h

theorem CounterInv.process (recent : Option ℤ) : CounterInv vals (s.process app recent).2 := by
  obtain ⟨a, c, rc, -, -, hfired⟩ := process_fired app s recent
  exact CounterInv.fired (s := { s with application := a }) ⟨h.height, h.holds⟩ hfired

theorem CounterInv.processLoop (as : List (Action V H A)) (recent : Option ℤ) :
    CounterInv vals (s.processLoop app as recent).2 := by
  have key := loop_induction app recent (P := fun s _ s' => CounterInv vals s → CounterInv vals s')
    (fun _ _ h => h.process recent) (fun _ _ _ _ ih h => ih (h.process recent)) _ s le_rfl
  exact key h

omit [Hashed V H] [DecidableEq A] in
theorem CounterInv.hasFuturePrecommitQuorum (p : Vote H A) :
    CounterInv vals (s.hasFuturePrecommitQuorum p).2 := by
  unfold StateMachine.hasFuturePrecommitQuorum
  split
  · refine ⟨?_, h.holds.hasFuturePrecommitQuorum _ _ _⟩
    exact (VoteCounter.grows_hasFuturePrecommitQuorum _ _ _ _).currentHeight.trans h.height
  · exact h

end

/-! ### The loop -/

/-- The last turn: a commit, or nothing is left that the loop looks at. -/
theorem process_stop (hvalid : ∀ h r a v, (app.valid h r a v).1 = ok v)
    (hstop : (s.process app recent).1.2 = false) :
    (s.process app recent).2.isHeightStarted = false ∨
      ∃ a, (s.process app recent).2 = { s with application := a } ∧ Quiet ok recent s := by
  obtain ⟨a, h⟩ := process_fired_of_valid hvalid s recent
  generalize hturn : s.process app recent = turn at h hstop ⊢
  cases h with
  | commitValue => exact .inl rfl
  | quiet h22 h28 h34 h36 h44 h47 h49 h55 =>
    refine .inr ⟨a, rfl, ⟨h22, h28, h34, h36, h44, h47⟩, ?_, h55⟩
    intro hdec
    obtain ⟨p, hp, hup⟩ := hdec
    have hno := h49 p hp
    rw [show s.uponCommitValue p = false from hno] at hup
    cases hup
  | _ => cases hstop

omit [DecidableEq A] in
theorem Quiet.of_application (h : Quiet ok recent s) (a : σ) : Quiet ok recent { s with application := a } :=
  { h with }

/-- **The loop changes only the current round**, if there is no later round to skip to, and then nothing is
left that it looks at; or it commits. -/
theorem loop_stays (hvalid : ∀ h r a v, (app.valid h r a v).1 = ok v) (recent : Option ℤ)
    (hinv : CounterInv vals s) (hrecent : ∀ r, recent = some r → r ≤ s.state.round) :
    (s.processLoop app [] recent).2.isHeightStarted = false ∨
      (Stays s (s.processLoop app [] recent).2 ∧ Quiet ok recent (s.processLoop app [] recent).2) := by
  have key := loop_induction app recent
    (P := fun s _ s' => CounterInv vals s → (∀ r, recent = some r → r ≤ s.state.round) →
      s'.isHeightStarted = false ∨ (Stays s s' ∧ Quiet ok recent s'))
    ?_ ?_ _ s le_rfl
  · exact key hinv hrecent
  · intro s hstop _ _
    rcases process_stop hvalid hstop with h | ⟨a, ha, hq⟩
    · exact .inl h
    · rw [ha]
      exact .inr ⟨stays_application s a, hq.of_application a⟩
  · intro s as s' hcont ih hinv hrecent
    obtain ⟨a, h⟩ := process_fired_of_valid hvalid s recent
    have hstay : Stays s (s.process app recent).2 :=
      (stays_application s a).trans
        (fired_stays (s := { s with application := a }) hinv.height hrecent h hcont)
    have hih := ih (hinv.process recent) (by rwa [hstay.round])
    exact hih.imp_right fun hs => ⟨hstay.trans hs.1, hs.2⟩

/-! ### From one state to the next -/

variable {v v' : VoteCounter V H A}

/-- Whatever the second counter says of the round, the first says too. -/
structure NoMore (v v' : VoteCounter V H A) (r : ℤ) : Prop where
  proposal : ∀ p, v'.getProposal r = some p → v.getProposal r = some p
  quorum : ∀ t id, v'.hasQuorumForVote r t id = true → v.hasQuorumForVote r t id = true
  any : ∀ t, v'.hasQuorumForAny r t = true → v.hasQuorumForAny r t = true
  nonFaulty : v'.hasNonFaultyFutureMessage r = true → v.hasNonFaultyFutureMessage r = true

section

omit [Hashed V H] [DecidableEq A]

theorem NoMore.of_roundData (hdata : v'.roundData r = v.roundData r)
    (hfaulty : v'.faultyVotingPower = v.faultyVotingPower)
    (hquorum : v'.quorumVotingPower = v.quorumVotingPower) : NoMore v v' r := by
  constructor <;>
    simp [VoteCounter.getProposal, VoteCounter.hasQuorumForVote, VoteCounter.hasQuorumForAny,
      VoteCounter.hasNonFaultyFutureMessage, hdata, hfaulty, hquorum]

theorem Stays.noMore (h : Stays s s') (hr : r ≠ s.state.round) : NoMore s.voteCounter s'.voteCounter r :=
  .of_roundData (h.elsewhere r hr) h.faulty h.quorum

end

/-- The stored proposals are of the round they are stored in. -/
def RoundsAgree (v : VoteCounter V H A) : Prop := ∀ r p, v.getProposal r = some p → p.round = r

omit [Hashed V H] [DecidableEq A] in
theorem CounterInv.agree (h : CounterInv vals s) : RoundsAgree s.voteCounter :=
  fun _ _ hp => congrArg MessageHeader.round (h.holds.proposal hp).2

omit [DecidableEq A] in
theorem canCommit_iff (hagree : RoundsAgree s.voteCounter) :
    s.CanCommit ok r ↔ ∃ p, s.voteCounter.getProposal r = some p ∧
      s.voteCounter.hasQuorumForVote r .precommit (some (hash p.value)) = true ∧ ok p.value = true := by
  unfold CanCommit cachedAt uponCommitValue
  constructor
  · intro h
    obtain ⟨c, hc, hup⟩ := h
    obtain ⟨p, hp, rfl⟩ := map_eq_some_iff.mp hc
    obtain ⟨hq, hok⟩ := of_decide_eq_true hup
    have hround : (cached ok p : CachedProposal V H A).round = r := hagree r p hp
    rw [hround] at hq
    exact ⟨p, hp, hq, hok⟩
  · intro h
    obtain ⟨p, hp, hq, hok⟩ := h
    have hround : (cached ok p : CachedProposal V H A).round = r := hagree r p hp
    refine ⟨cached ok p, by rw [hp]; rfl, decide_eq_true ⟨?_, hok⟩⟩
    rw [hround]
    exact hq

omit [DecidableEq A] in
theorem NoMore.canCommit (hagree : RoundsAgree s.voteCounter) (hagree' : RoundsAgree s'.voteCounter)
    (h : NoMore s.voteCounter s'.voteCounter r) (hdec : s'.CanCommit ok r) : s.CanCommit ok r := by
  obtain ⟨p, hp, hq, hok⟩ := (canCommit_iff hagree').mp hdec
  exact (canCommit_iff hagree).mpr ⟨p, h.proposal p hp, h.quorum _ _ hq, hok⟩

theorem eq_false_of_imp {b b' : Bool} (himp : b' = true → b = true) (h : b = false) : b' = false := by
  cases b' with
  | false => rfl
  | true =>
    rw [himp rfl] at h
    cases h

omit [DecidableEq A] in
theorem cachedAt_of_noMore (hno : NoMore s.voteCounter s'.voteCounter r) {p : CachedProposal V H A}
    (hp : s'.cachedAt ok r = some p) : s.cachedAt ok r = some p := by
  obtain ⟨p, hget, rfl⟩ := map_eq_some_iff.mp hp
  exact map_eq_some_iff.mpr ⟨p, hno.proposal p hget, rfl⟩

/-- No earlier round has a new quorum for the proposal of the current one: line 28 does not begin to apply. -/
def NoNewPolka (s s' : StateMachine σ V H A) : Prop :=
  ∀ p, s.voteCounter.getProposal s.state.round = some p → s.state.step = .propose →
    p.validRound < s.state.round →
    s'.voteCounter.hasQuorumForVote p.validRound .prevote (some (hash p.value)) = true →
    s.voteCounter.hasQuorumForVote p.validRound .prevote (some (hash p.value)) = true

omit [DecidableEq A] in
/-- The rules of the current round look at it and, line 28, at an earlier round. -/
theorem QuietRound.of_noMore (h : QuietRound ok s) (hstate : s'.state = s.state)
    (hcur : NoMore s.voteCounter s'.voteCounter s.state.round) (h28 : NoNewPolka s s') :
    QuietRound ok s' := by
  have hcached : ∀ {p}, s'.cachedAt ok s'.state.round = some p → s.cachedAt ok s.state.round = some p := by
    intro p hp
    rw [hstate] at hp
    exact cachedAt_of_noMore hcur hp
  constructor
  case firstProposal =>
    intro p hp
    refine eq_false_of_imp ?_ (h.firstProposal p (hcached hp))
    simp [uponFirstProposal, hstate]
  case polkaPrevious =>
    intro p hp
    refine eq_false_of_imp (fun htrue => ?_) (h.polkaPrevious p (hcached hp))
    obtain ⟨hq, hstep, hge, hlt⟩ := of_decide_eq_true htrue
    rw [hstate] at hstep hlt
    obtain ⟨p, hget, rfl⟩ := map_eq_some_iff.mp (hcached hp)
    exact decide_eq_true ⟨h28 p hget hstep hlt hq, hstep, hge, hlt⟩
  case polkaAny =>
    refine eq_false_of_imp (fun htrue => ?_) h.polkaAny
    obtain ⟨hstep, hq, hfirst⟩ := of_decide_eq_true htrue
    rw [hstate] at hstep hq hfirst
    exact decide_eq_true ⟨hstep, hcur.any _ hq, hfirst⟩
  case polkaCurrent =>
    intro p hp
    refine eq_false_of_imp (fun htrue => ?_) (h.polkaCurrent p (hcached hp))
    obtain ⟨hq, hok, hstep, hfirst⟩ := of_decide_eq_true htrue
    rw [hstate] at hq hstep hfirst
    exact decide_eq_true ⟨hcur.quorum _ _ hq, hok, hstep, hfirst⟩
  case polkaNil =>
    refine eq_false_of_imp (fun htrue => ?_) h.polkaNil
    obtain ⟨hq, hstep⟩ := of_decide_eq_true htrue
    rw [hstate] at hq hstep
    exact decide_eq_true ⟨hcur.quorum _ _ hq, hstep⟩
  case precommitAny =>
    refine eq_false_of_imp (fun htrue => ?_) h.precommitAny
    obtain ⟨hq, hfirst⟩ := of_decide_eq_true htrue
    rw [hstate] at hq hfirst
    exact decide_eq_true ⟨hcur.any _ hq, hfirst⟩

omit [Hashed V H] [DecidableEq A] in
theorem uponSkipRound_of_noMore (hno : NoMore s.voteCounter s'.voteCounter r)
    (hround : s.state.round ≤ s'.state.round) (h : s.uponSkipRound r = false) :
    s'.uponSkipRound r = false := by
  refine eq_false_of_imp (fun htrue => ?_) h
  obtain ⟨hlt, hnf⟩ := of_decide_eq_true htrue
  exact decide_eq_true ⟨lt_of_le_of_lt hround hlt, hno.nonFaulty hnf⟩

omit [DecidableEq A] in
theorem Saturated.of_noMore (h : Saturated ok s) (hstate : s'.state = s.state)
    (hno : ∀ r, NoMore s.voteCounter s'.voteCounter r) : Saturated ok s' := by
  refine ⟨h.toQuietRound.of_noMore hstate (hno _) fun p _ _ _ => (hno _).quorum _ _, ?_, ?_⟩
  · intro r hdec
    obtain ⟨p, hp, hup⟩ := hdec
    obtain ⟨hq, hok⟩ := of_decide_eq_true hup
    exact h.commit r ⟨p, cachedAt_of_noMore (hno r) hp, decide_eq_true ⟨(hno _).quorum _ _ hq, hok⟩⟩
  · exact fun r => uponSkipRound_of_noMore (hno r) (by rw [hstate]) (h.skip r)

/-! ### Changes of the counter -/

variable {change : RoundData V H A → RoundData V H A} {height : ℕ} {round : ℤ}

section

omit [Hashed V H] [DecidableEq A]

theorem Changes.noMore_of_ne (h : v.Changes height round change v')
    (hne : v.currentHeight ≠ height ∨ r ≠ round) : NoMore v v' r := by
  refine .of_roundData ?_ h.faulty h.quorum
  rw [h.roundData, if_neg]
  intro hc
  exact hne.elim (fun h => h hc.1) (fun h => h hc.2)

theorem NoMore.of_data (hpos : 1 ≤ v.quorumVotingPower) (h : v.Grows v')
    (hdata : ∀ k r, v'.data k r = v.data k r) (r : ℤ) : NoMore v v' r := by
  have hpos' : 1 ≤ v'.quorumVotingPower := h.quorum ▸ hpos
  constructor
  · intro p hp
    rwa [VoteCounter.getProposal_eq, h.currentHeight, hdata, ← VoteCounter.getProposal_eq] at hp
  · intro t id hq
    rwa [VoteCounter.hasQuorumForVote_eq hpos', h.currentHeight, hdata, h.quorum,
      ← VoteCounter.hasQuorumForVote_eq hpos] at hq
  · intro t hq
    rwa [VoteCounter.hasQuorumForAny_eq hpos', h.currentHeight, hdata, h.quorum,
      ← VoteCounter.hasQuorumForAny_eq hpos] at hq
  · intro hq
    rwa [VoteCounter.hasNonFaultyFutureMessage_eq, h.currentHeight, hdata, h.faulty,
      ← VoteCounter.hasNonFaultyFutureMessage_eq] at hq

/-- A change that leaves the prevotes for an identifier does not make a quorum of them. -/
theorem Changes.prevoteQuorum (h : v.Changes height round change v') (hpos : 1 ≤ v.quorumVotingPower)
    (hchange : ∀ data : RoundData V H A, (change data).countVote .prevote id = data.countVote .prevote id)
    (hq : v'.hasQuorumForVote r .prevote id = true) : v.hasQuorumForVote r .prevote id = true := by
  by_cases hc : v.currentHeight = height ∧ r = round
  · obtain ⟨data', hdata', hle⟩ := VoteCounter.hasQuorumForVote_iff.mp hq
    rw [h.roundData, if_pos hc, some.injEq] at hdata'
    rw [← hdata', hchange, h.quorum] at hle
    cases hdata : v.roundData r with
    | none =>
      rw [hdata, getD_none] at hle
      cases id <;> simp [newRoundData, RoundData.countVote, RoundData.votesFor] at hle <;> omega
    | some data =>
      rw [hdata, getD_some] at hle
      exact VoteCounter.hasQuorumForVote_iff.mpr ⟨data, hdata, hle⟩
  · exact (Changes.noMore_of_ne h (by tauto)).quorum _ _ hq

end

omit [Hashed V H] in
variable (app) in
theorem startRound_noMore (s : StateMachine σ V H A) {r' : ℤ} (hne : r' ≠ r) :
    NoMore s.voteCounter (s.startRound app r).2.voteCounter r' := by
  have hself : NoMore s.voteCounter s.voteCounter r' := .of_roundData rfl rfl rfl
  have hadd : ∀ p : Proposal V A, p.round = r → NoMore s.voteCounter (s.voteCounter.addProposal p).2 r' := by
    intro p hp
    rcases s.voteCounter.add_changes (.proposal p) with ⟨-, h⟩ | ⟨-, -, h⟩
    · rw [VoteCounter.add] at h
      rw [h]
      exact hself
    · exact Changes.noMore_of_ne h (.inr (by rwa [Message.header, hp]))
  unfold startRound
  simp only
  split
  · unfold proposalValue
    split
    · exact hadd _ rfl
    · exact hadd _ rfl
  · exact hself

/-! ### Settling -/

section

variable (hvalid : ∀ h r a v, (app.valid h r a v).1 = ok v)
include hvalid

/-- The loop settles everything, if nothing was to be done in the rounds it does not look at. -/
theorem settles (recent : Option ℤ) (hinv : CounterInv vals s)
    (hrecent : ∀ r, recent = some r → r ≤ s.state.round)
    (h49 : ∀ r, r ≠ s.state.round → recent ≠ some r → ¬ s.CanCommit ok r)
    (h55 : ∀ r, s.uponSkipRound r = false)
    (hown : (∀ r, recent = some r → r = s.state.round) ∨ ∀ s', Stays s s' → CounterInv vals s' →
      Quiet ok recent s' → ¬ s'.CanCommit ok s.state.round) :
    (s.processLoop app [] recent).2.isHeightStarted = false ∨
      Saturated ok (s.processLoop app [] recent).2 := by
  have hinv' : CounterInv vals (s.processLoop app [] recent).2 := hinv.processLoop [] recent
  rcases loop_stays hvalid recent hinv hrecent with hns | ⟨hstays, hquiet⟩
  · exact .inl hns
  refine .inr ⟨hquiet.toQuietRound, ?_, ?_⟩
  · intro r hdec
    by_cases hlooked : recent.getD s.state.round = r
    · rw [← hstays.round] at hlooked
      exact hquiet.commit (hlooked ▸ hdec)
    by_cases hr : r = s.state.round
    · subst hr
      rcases hown with hsame | hown
      · cases hrec : recent with
        | none => exact hlooked (by rw [hrec]; rfl)
        | some r => exact hlooked (by rw [hrec]; exact hsame r hrec)
      · exact hown _ hstays hinv' hquiet hdec
    · refine h49 r hr ?_ (NoMore.canCommit hinv.agree hinv'.agree (hstays.noMore hr) hdec)
      intro hrec
      exact hlooked (by rw [hrec]; rfl)
  · intro r
    by_cases hr : r = s.state.round
    · have hno : ¬ (r > (s.processLoop app [] recent).2.state.round) := by
        rw [hstays.round, hr]
        exact lt_irrefl _
      exact decide_eq_false fun h => hno h.1
    · exact uponSkipRound_of_noMore (hstays.noMore hr) hstays.round.ge (h55 r)

/-- With nothing to do in the current round the loop goes on only to a later round, where it settles
everything. -/
theorem settles_of_quietRound (hinv : CounterInv vals s) (hround : QuietRound ok s)
    (h49 : ∀ r', r' ≠ r → ¬ s.CanCommit ok r') (h55 : ∀ r', r' ≠ r → s.uponSkipRound r' = false) :
    (s.processLoop app [] (some r)).2.isHeightStarted = false ∨
      Saturated ok (s.processLoop app [] (some r)).2 := by
  obtain ⟨a, hfired⟩ := process_fired_of_valid hvalid s (some r)
  rw [processLoop_eq]
  generalize hturn : s.process app (some r) = turn at hfired ⊢
  have absurd_of : ∀ {b : Bool} {P : Prop}, b = false → b = true → P := by
    intro b P hf ht
    rw [hf] at ht
    cases ht
  cases hfired with
  | firstProposal p hp h => exact absurd_of (hround.firstProposal p hp) h
  | proposalAndPolkaPrevious p hp h => exact absurd_of (hround.polkaPrevious p hp) h
  | polkaAny h => exact absurd_of hround.polkaAny h
  | lock p hp h | setValid p hp h => exact absurd_of (hround.polkaCurrent p hp) h
  | polkaNil h => exact absurd_of hround.polkaNil h
  | precommitAny h => exact absurd_of hround.precommitAny h
  | commitValue p hp h => exact .inl rfl
  | skipRound r' hr h =>
    cases hr
    have hlt : r > s.state.round := (of_decide_eq_true h).1
    have hinv₂ : CounterInv vals ({ s with application := a }.startRound app r).2 :=
      CounterInv.startRound (s := { s with application := a }) app ⟨hinv.height, hinv.holds⟩ r
    have hstate := startRound_state app { s with application := a } r
    have hround₂ : ({ s with application := a }.startRound app r).2.state.round = r := by rw [hstate]; rfl
    have hno : ∀ {r'}, r' ≠ r →
        NoMore s.voteCounter ({ s with application := a }.startRound app r).2.voteCounter r' :=
      fun hne => startRound_noMore app { s with application := a } hne
    have key := settles hvalid (some r) hinv₂ (fun r' hr' => by cases hr'; exact hround₂.ge) ?_ ?_
      (.inl fun r' hr' => by cases hr'; exact hround₂.symm)
    · exact key
    · intro r' hne _
      rw [hround₂] at hne
      exact fun hdec => h49 r' hne (NoMore.canCommit hinv.agree hinv₂.agree (hno hne) hdec)
    · intro r'
      by_cases hne : r' = r
      · subst hne
        exact decide_eq_false fun h => absurd h.1 (by rw [hround₂]; exact lt_irrefl _)
      · exact uponSkipRound_of_noMore (hno hne) (by rw [hround₂]; exact hlt.le) (h55 r' hne)
  | quiet _ _ _ _ _ _ hcommit hskip =>
    refine .inr ⟨{ hround with }, ?_, ?_⟩
    · intro r' hdec
      by_cases hne : r' = r
      · subst hne
        obtain ⟨p, hp, hup⟩ := hdec
        exact absurd_of (hcommit p hp) hup
      · exact h49 r' hne hdec
    · intro r'
      by_cases hne : r' = r
      · subst hne
        exact hskip r' rfl
      · exact h55 r' hne

/-- After a message of round `r` the loop misses nothing: the round is the current one, the message does not
make line 28 apply, or the machine's own precommit would not complete a decision. -/
def Looks (s s' : StateMachine σ V H A) (r : ℤ) : Prop :=
  r = s.state.round ∨ NoNewPolka s s' ∨
    (r < s.state.round ∧ ∀ p, s.voteCounter.getProposal s.state.round = some p →
      s.withOwn s.state.round .precommit (some (hash p.value)) < s.voteCounter.quorumVotingPower)

theorem settles_of_message (hsat : Saturated ok s) (hinv : CounterInv vals s)
    (hinv' : CounterInv vals s') (hstate : s'.state = s.state) (hnode : s'.nodeAddr = s.nodeAddr)
    (hc : s.voteCounter.Changes height r change s'.voteCounter) (hcase : Looks s s' r) :
    (s'.processLoop app [] (some r)).2.isHeightStarted = false ∨
      Saturated ok (s'.processLoop app [] (some r)).2 := by
  have hno : ∀ {r'}, r' ≠ r → NoMore s.voteCounter s'.voteCounter r' :=
    fun hne => Changes.noMore_of_ne hc (.inr hne)
  have h49 : ∀ r', r' ≠ r → ¬ s'.CanCommit ok r' := fun r' hne hdec =>
    hsat.commit r' (NoMore.canCommit hinv.agree hinv'.agree (hno hne) hdec)
  have h55 : ∀ r', r' ≠ r → s'.uponSkipRound r' = false := fun r' hne =>
    uponSkipRound_of_noMore (hno hne) (by rw [hstate]) (hsat.skip r')
  have hskip : r ≤ s.state.round → ∀ r', s'.uponSkipRound r' = false := by
    intro hle r'
    by_cases hr : r' = r
    · subst hr
      exact decide_eq_false fun h => absurd h.1 (by rw [hstate]; exact hle.not_gt)
    · exact h55 r' hr
  by_cases hr : r = s.state.round
  · refine settles hvalid (some r) hinv' ?_ ?_ (hskip hr.le) (.inl ?_)
    · intro r' hr'
      cases hr'
      rw [hstate, hr]
    · intro r' hne _
      exact h49 r' (by rwa [hstate, ← hr] at hne)
    · intro r' hr'
      cases hr'
      rw [hstate, hr]
  rcases (hcase.resolve_left hr) with h28 | ⟨hlt, hbound⟩
  · exact settles_of_quietRound hvalid hinv' (hsat.toQuietRound.of_noMore hstate (hno (Ne.symm hr)) h28) h49
      h55
  · refine settles hvalid (some r) hinv' ?_ ?_ (hskip hlt.le) (.inr ?_)
    · intro r' hr'
      cases hr'
      rw [hstate]
      exact hlt.le
    · intro r' _ hne
      exact h49 r' fun h => hne (by rw [h])
    · intro s₂ hstays hinv₂ _ hdec
      rw [hstate] at hdec
      obtain ⟨p, hp, hq, -⟩ := (canCommit_iff hinv₂.agree).mp hdec
      have hle := (le_votes hq).trans (votes_le_withOwn _ _ _ _)
      rw [hstays.proposal] at hp
      have hsame : s'.withOwn s.state.round .precommit (some (hash p.value)) =
          s.withOwn s.state.round .precommit (some (hash p.value)) := by
        unfold withOwn
        rw [hc.roundData, if_neg fun h => hr h.2.symm, hc.validators, hstate, hnode]
      rw [hstays.withOwn, hstays.quorum, hc.quorum, hsame] at hle
      exact absurd hle (hbound p ((hno (Ne.symm hr)).proposal p hp)).not_ge

end

/-! ### The calls -/

variable (s)

/-- A prevote of an earlier round for the proposal of the current one, which names that round as its valid
round, while the precommits of the current round for it make a quorum together with the machine's own. -/
def StateMachine.LatePrevote (v : Vote H A) : Prop :=
  v.height = s.state.height ∧ v.round < s.state.round ∧ s.state.step = .propose ∧
    ∃ p, s.voteCounter.getProposal s.state.round = some p ∧ p.validRound = v.round ∧
      v.id = some (hash p.value) ∧
      s.voteCounter.quorumVotingPower ≤ s.withOwn s.state.round .precommit (some (hash p.value))

/-- Nothing is to be done for the early messages outside the round in which the height is started: no other
round is decided, and no later round has the power to skip to. -/
def StateMachine.Looked (ok : V → Bool) (round : ℤ) : Prop :=
  (∀ r, r ≠ round → ¬ s.CanCommit ok r) ∧ ∀ r, round < r → s.voteCounter.hasNonFaultyFutureMessage r = false

variable {s}

def Timeout.HasNext (tm : Timeout) : Prop := tm.step = .precommit → -2 ^ 63 ≤ tm.round ∧ tm.round < 2 ^ 63 - 1

theorem nextRound_eq (h : -2 ^ 63 ≤ r ∧ r < 2 ^ 63 - 1) : nextRound r = r + 1 := by
  unfold nextRound
  omega

def StateMachine.Settles (s : StateMachine σ V H A) (ok : V → Bool) : Call V H A → Prop
  | .start round => s.isHeightStarted = false → s.Looked ok round
  | .prevote v => s.isHeightStarted = true → ¬ s.LatePrevote v
  | .timeout tm => tm.HasNext
  | .wal (.start _) => s.isHeightStarted = false → s.Looked ok 0
  | .wal (.prevote v) => s.isHeightStarted = true → ¬ s.LatePrevote v
  | .wal (.timeout tm) => tm.HasNext
  | _ => True

theorem process_of_not_started (hs : s.isHeightStarted = false) (recent : Option ℤ) :
    (s.process app recent).2.isHeightStarted = false := by
  obtain ⟨a, c, rc, -, -, hfired⟩ := process_fired app s recent
  generalize s.process app recent = turn at hfired ⊢
  cases hfired with
  | commitValue => rfl
  | skipRound => exact (startRound_isHeightStarted app _ _).trans hs
  | _ => exact hs

theorem processLoop_of_not_started (hs : s.isHeightStarted = false) (recent : Option ℤ) :
    (s.processLoop app [] recent).2.isHeightStarted = false := by
  have key := loop_induction app recent
    (P := fun s _ s' => s.isHeightStarted = false → s'.isHeightStarted = false) ?_ ?_ _ s le_rfl
  · exact key hs
  · exact fun s _ hs => process_of_not_started hs recent
  · exact fun s _ _ _ ih hs => ih (process_of_not_started hs recent)

structure SatInv (vals : Validators A) (ok : V → Bool) (s : StateMachine σ V H A) :
    Prop extends CounterInv vals s where
  saturated : s.isHeightStarted = true → Saturated ok s

omit [DecidableEq A] in
theorem satInv_new (nodeAddr : A) (a : σ) (vals : Validators A) (height : ℕ) :
    SatInv vals ok (new nodeAddr a vals height : StateMachine σ V H A) where
  height := rfl
  holds := VoteCounter.holds_new _ vals height
  saturated h := by cases h

omit [DecidableEq A] in
theorem SatInv.of_settled (hinv : CounterInv vals s) (h : s.isHeightStarted = false ∨ Saturated ok s) :
    SatInv vals ok s := by
  refine ⟨hinv, fun hs => h.resolve_left ?_⟩
  rw [hs]
  decide

variable {tm : Timeout}

section

variable (hvalid : ∀ h r a v, (app.valid h r a v).1 = ok v)
  (hpos : ∀ height, 1 ≤ q (vals.totalVotingPower height))

omit [Hashed V H] [DecidableEq A] in
theorem CounterInv.quorum_pos (hpos : ∀ height, 1 ≤ q (vals.totalVotingPower height))
    (h : CounterInv vals s) :
    1 ≤ s.voteCounter.quorumVotingPower := by
  rw [h.holds.quorum]
  exact hpos _

include hvalid in
theorem SatInv.processMessage (h : SatInv vals ok s) (hinv' : CounterInv vals s')
    (hstate : s'.state = s.state) (hnode : s'.nodeAddr = s.nodeAddr) (msg : MessageHeader A)
    (e : WALEntry V H A) (hs : s.isHeightStarted = true)
    (hc : s.voteCounter.Changes msg.height msg.round change s'.voteCounter)
    (hcase : msg.height = s.state.height → Looks s s' msg.round) :
    SatInv vals ok (s'.processMessage app msg e).2 := by
  unfold StateMachine.processMessage
  split
  next hne =>
    refine ⟨hinv', fun _ => (h.saturated hs).of_noMore hstate fun r => Changes.noMore_of_ne hc (.inl ?_)⟩
    rw [h.height, ← hstate]
    exact Ne.symm hne
  next heq =>
    rw [ne_eq, not_not, hstate] at heq
    exact .of_settled (hinv'.processLoop _ _)
      (settles_of_message hvalid (h.saturated hs) h.toCounterInv hinv' hstate hnode hc (hcase heq))

include hpos in
/-- A message is taken in. One that is not new, or comes before the start, leaves everything as it was. -/
theorem SatInv.add (h : SatInv vals ok s) (m : Message V H A) :
    CounterInv vals { s with voteCounter := (s.voteCounter.add m).2 } ∧
      if (!(s.voteCounter.add m).1 || !s.isHeightStarted) = true
        then SatInv vals ok { s with voteCounter := (s.voteCounter.add m).2 }
      else s.isHeightStarted = true ∧ s.voteCounter.Changes m.header.height m.header.round
        (fun r => (VoteCounter.put s.voteCounter.validators m r).2) (s.voteCounter.add m).2 := by
  have hinv' : CounterInv vals { s with voteCounter := (s.voteCounter.add m).2 } :=
    h.toCounterInv.add m rfl rfl
  refine ⟨hinv', ?_⟩
  split
  next hskip =>
    refine ⟨hinv', fun hs => ?_⟩
    have hs' : s.isHeightStarted = true := hs
    rw [hs', Bool.not_true, Bool.or_false, Bool.not_eq_true'] at hskip
    exact (h.saturated hs).of_noMore rfl
      (.of_data (h.quorum_pos hpos) (VoteCounter.grows_add _ m) (h.holds.add_data_of_old m hskip))
  next hnew =>
    simp only [Bool.or_eq_true, Bool.not_eq_true', not_or, Bool.not_eq_false] at hnew
    rcases s.voteCounter.add_changes m with ⟨-, heq⟩ | ⟨-, -, hc⟩
    · rw [heq] at hnew
      cases hnew.1
    · exact ⟨hnew.2, hc⟩

include hvalid hpos

theorem SatInv.processProposal (h : SatInv vals ok s) (p : Proposal V A) :
    SatInv vals ok (s.processProposal app p).2 := by
  obtain ⟨hinv', hadd⟩ := h.add hpos (.proposal p)
  rw [VoteCounter.add] at hadd
  unfold StateMachine.processProposal
  simp only
  split_ifs at hadd ⊢
  · exact hadd
  · obtain ⟨hs, hc⟩ := hadd
    refine h.processMessage hvalid hinv' rfl rfl _ _ hs hc fun _ => .inr (.inl ?_)
    intro p' _ _ _ hq
    refine Changes.prevoteQuorum hc (h.quorum_pos hpos) (fun data => ?_) hq
    rw [VoteCounter.put, VoteCounter.putProposal]
    split <;> simp [RoundData.countVote]

omit hvalid [Hashed V H] in
/-- A vote makes no quorum of prevotes for an identifier it is not a prevote for. -/
theorem prevoteQuorum_of_vote (h : CounterInv vals s) {v : Vote H A} (hother : t = .precommit ∨ v.id ≠ id)
    (hc : s.voteCounter.Changes v.height v.round
      (fun r => (VoteCounter.putVote s.voteCounter.validators v t r).2) (s.voteCounter.addVote v t).2)
    (hq : (s.voteCounter.addVote v t).2.hasQuorumForVote r .prevote id = true) :
    s.voteCounter.hasQuorumForVote r .prevote id = true := by
  refine Changes.prevoteQuorum hc (h.quorum_pos hpos) (fun data => ?_) hq
  unfold VoteCounter.putVote RoundData.countVote
  rw [RoundData.votesFor_addVote]
  rcases hother with rfl | hne
  · by_cases hid : id = v.id
    · rw [if_pos hid]
      cases data.votesFor id <;> simp [add_perVoteType]
    · rw [if_neg hid]
  · rw [if_neg (Ne.symm hne)]

theorem SatInv.processPrevote (h : SatInv vals ok s) (v : Vote H A)
    (hlate : s.isHeightStarted = true → ¬ s.LatePrevote v) : SatInv vals ok (s.processPrevote app v).2 := by
  obtain ⟨hinv', hadd⟩ := h.add hpos (.vote .prevote v)
  rw [VoteCounter.add] at hadd
  unfold StateMachine.processPrevote VoteCounter.addPrevote
  simp only
  split_ifs at hadd ⊢
  · exact hadd
  · obtain ⟨hs, hc⟩ := hadd
    refine h.processMessage hvalid hinv' rfl rfl _ _ hs hc fun hheight => ?_
    -- the prevote is for the current proposal, of its valid round, or makes no difference to line 28
    by_cases hpolka : ∃ p, s.voteCounter.getProposal s.state.round = some p ∧ s.state.step = .propose ∧
        p.validRound < s.state.round ∧ p.validRound = v.round ∧ v.id = some (hash p.value)
    · obtain ⟨p, hp, hstep, hlt, hvr, hid⟩ := hpolka
      rw [hvr] at hlt
      refine .inr (.inr ⟨hlt, fun p' hp' => ?_⟩)
      rw [hp, some.injEq] at hp'
      subst hp'
      by_contra hge
      exact hlate hs ⟨hheight, hlt, hstep, p, hp, hvr, hid, not_lt.mp hge⟩
    · refine .inr (.inl fun p hp hstep hlt hq => ?_)
      by_cases hvr : p.validRound = v.round
      · refine prevoteQuorum_of_vote hpos h.toCounterInv (.inr fun hid => ?_) hc hq
        exact hpolka ⟨p, hp, hstep, hlt, hvr, hid⟩
      · exact (Changes.noMore_of_ne hc (.inr hvr)).quorum _ _ hq

theorem SatInv.processPrecommit (h : SatInv vals ok s) (v : Vote H A) :
    SatInv vals ok (s.processPrecommit app v).2 := by
  obtain ⟨hinv', hadd⟩ := h.add hpos (.vote .precommit v)
  rw [VoteCounter.add] at hadd
  unfold StateMachine.processPrecommit VoteCounter.addPrecommit
  simp only
  split_ifs at hadd with hskip
  · rw [if_pos hskip]
    exact hadd
  rw [if_neg hskip]
  obtain ⟨hs, hc⟩ := hadd
  unfold hasFuturePrecommitQuorum
  split
  next hfuture =>
    -- a precommit of a later height: the current one is not touched
    have hne : s.voteCounter.currentHeight ≠ v.height := by
      rw [h.height]
      exact Nat.ne_of_lt hfuture.2.1
    have hno : ∀ r, NoMore s.voteCounter
        ((s.voteCounter.addVote v .precommit).2.hasFuturePrecommitQuorum v.height v.round v.id).2 r := by
      intro r
      rcases (s.voteCounter.addVote v .precommit).2.hasFuturePrecommitQuorum_changes v.height
        v.round v.id with
        ⟨-, heq⟩ | ⟨-, hc'⟩
      · rw [heq]
        exact Changes.noMore_of_ne hc (.inl hne)
      · have hne' : (s.voteCounter.addVote v .precommit).2.currentHeight ≠ v.height :=
          hc.currentHeight.trans_ne hne
        refine .of_roundData ?_ (hc'.faulty.trans hc.faulty) (hc'.quorum.trans hc.quorum)
        rw [hc'.roundData, if_neg fun h => hne' h.1]
        exact (hc.roundData r).trans (if_neg fun h => hne h.1)
    have hinv'' := hinv'.hasFuturePrecommitQuorum v
    rw [hasFuturePrecommitQuorum, if_pos hfuture] at hinv''
    split
    · exact ⟨hinv''.of_state rfl rfl, fun _ => (h.saturated hs).of_noMore rfl hno⟩
    · unfold StateMachine.processMessage
      rw [if_pos (show v.height ≠ s.state.height from (Nat.ne_of_lt hfuture.2.1).symm)]
      exact ⟨hinv'', fun _ => (h.saturated hs).of_noMore rfl hno⟩
  next =>
    simp only [Bool.false_eq_true, if_false]
    refine h.processMessage hvalid hinv' rfl rfl _ _ hs hc fun _ => .inr (.inl ?_)
    exact fun p _ _ _ hq => prevoteQuorum_of_vote hpos h.toCounterInv (.inl rfl) hc hq

theorem SatInv.processPrecommits (h : SatInv vals ok s) (vs : List (Vote H A)) :
    SatInv vals ok (s.processPrecommits app vs).2 := by
  induction vs generalizing s with
  | nil => exact h
  | cons v vs ih => exact ih (h.processPrecommit hvalid hpos v)

omit hpos in
/-- Nothing is to be done outside the round in which the loop starts. -/
theorem SatInv.of_loop (hinv : CounterInv vals s) (h49 : ∀ r, r ≠ s.state.round → ¬ s.CanCommit ok r)
    (h55 : ∀ r, s.uponSkipRound r = false) : SatInv vals ok (s.processLoop app [] none).2 := by
  refine .of_settled (hinv.processLoop _ _)
    (settles hvalid none hinv ?_ (fun r hr _ => h49 r hr) h55 (.inl ?_))
  · intro r hr
    cases hr
  · intro r hr
    cases hr

omit hpos in
theorem SatInv.processStart (h : SatInv vals ok s) (hlooked : s.isHeightStarted = false → s.Looked ok round) :
    SatInv vals ok (s.processStart app round).2 := by
  unfold StateMachine.processStart
  split
  · exact h
  next hs =>
    rw [Bool.not_eq_true] at hs
    obtain ⟨h49, h55⟩ := hlooked hs
    have hinv' : CounterInv vals ({ s with isHeightStarted := true }.startRound app round).2 :=
      CounterInv.startRound app (s := { s with isHeightStarted := true }) ⟨h.height, h.holds⟩ round
    have hround : ({ s with isHeightStarted := true }.startRound app round).2.state.round = round := by
      rw [startRound_state]
      rfl
    have hno : ∀ {r}, r ≠ round →
        NoMore s.voteCounter ({ s with isHeightStarted := true }.startRound app round).2.voteCounter r :=
      fun hne => startRound_noMore app { s with isHeightStarted := true } hne
    refine SatInv.of_loop hvalid hinv' ?_ ?_
    · intro r hne hdec
      rw [hround] at hne
      exact h49 r hne (NoMore.canCommit h.agree hinv'.agree (hno hne) hdec)
    · intro r
      refine decide_eq_false fun hskip => ?_
      have hlt : round < r := by
        rw [← hround]
        exact hskip.1
      have hnf := (hno hlt.ne').nonFaulty hskip.2
      rw [h55 r hlt] at hnf
      cases hnf

omit hvalid hpos in
theorem processTimeout_cases (app : Application σ V) (h : CounterInv vals s) (htm : tm.HasNext) :
    ∃ as s', (s.processTimeout app tm).2 = (s'.processLoop app as none).2 ∧ CounterInv vals s' ∧
      (Stays s s' ∨ s' = (s.startRound app (s.state.round + 1)).2) := by
  obtain ⟨r, hr, heq⟩ := processTimeout_timedOut app s tm
  refine ⟨r.1, r.2, congrArg Prod.snd heq, ?_⟩
  cases hr with
  | ignored => exact ⟨h, .inl (.refl s)⟩
  | propose => exact ⟨h.add (.vote _ _) rfl rfl, .inl (stays_of_vote h.height rfl rfl rfl rfl rfl)⟩
  | prevote => exact ⟨h.add (.vote _ _) rfl rfl, .inl (stays_of_vote h.height rfl rfl rfl rfl rfl)⟩
  | precommit hsame hstep =>
    rw [nextRound_eq (htm hstep), ← (of_decide_eq_true hsame).2]
    exact ⟨h.startRound app _, .inr rfl⟩

omit hpos in
/-- The loop after a change of the current round, or after the start of a later one. -/
theorem SatInv.of_round (h : SatInv vals ok s) (hinv' : CounterInv vals s')
    (hstarted : s'.isHeightStarted = s.isHeightStarted) (hround : s.state.round ≤ s'.state.round)
    (hno : ∀ r, r ≠ s'.state.round → NoMore s.voteCounter s'.voteCounter r) (as : List (Action V H A)) :
    SatInv vals ok (s'.processLoop app as none).2 := by
  cases hs : s.isHeightStarted with
  | false =>
    exact .of_settled (hinv'.processLoop as none) (.inl (processLoop_of_not_started (hstarted.trans hs) none))
  | true =>
    refine SatInv.of_loop hvalid hinv' ?_ ?_
    · intro r hne hdec
      exact (h.saturated hs).commit r (NoMore.canCommit h.agree hinv'.agree (hno r hne) hdec)
    · intro r
      by_cases hr : r = s'.state.round
      · exact decide_eq_false fun hup => absurd hup.1 hr.not_gt
      · exact uponSkipRound_of_noMore (hno r hr) hround ((h.saturated hs).skip r)

omit hpos in
theorem SatInv.processTimeout (h : SatInv vals ok s) (htm : tm.HasNext) :
    SatInv vals ok (s.processTimeout app tm).2 := by
  obtain ⟨as, s', heq, hinv', hcase⟩ := processTimeout_cases app h.toCounterInv htm
  rw [heq]
  rcases hcase with hstays | hstart
  · refine h.of_round hvalid hinv' hstays.started hstays.round.ge (fun r hne => hstays.noMore ?_) as
    rwa [hstays.round] at hne
  · have hround : s'.state.round = s.state.round + 1 := by
      rw [hstart, startRound_state]
      rfl
    refine h.of_round hvalid hinv' ?_ (by omega) (fun r hne => ?_) as
    · rw [hstart, startRound_isHeightStarted]
    · rw [hround] at hne
      rw [hstart]
      exact startRound_noMore app s hne

/-- **A call that meets the conditions leaves no rule to apply.** -/
theorem SatInv.call (h : SatInv vals ok s) {c : Call V H A} (hc : s.Settles ok c) :
    SatInv vals ok (s.call app c).2 := by
  cases c with
  | start round => exact h.processStart hvalid hc
  | proposal p => exact h.processProposal hvalid hpos p
  | prevote v => exact h.processPrevote hvalid hpos v hc
  | precommit v => exact h.processPrecommit hvalid hpos v
  | sync p vs => exact (h.processProposal hvalid hpos p).processPrecommits hvalid hpos vs
  | timeout tm => exact h.processTimeout hvalid hc
  | wal entry =>
    cases entry with
    | start height => exact h.processStart hvalid hc
    | proposal p => exact h.processProposal hvalid hpos p
    | prevote v => exact h.processPrevote hvalid hpos v hc
    | precommit v => exact h.processPrecommit hvalid hpos v
    | timeout tm => exact h.processTimeout hvalid hc

end

variable (app) (ok) in
/-- Every call of the run meets the conditions. -/
def StateMachine.SettlesRun (s : StateMachine σ V H A) : List (Call V H A) → Prop
  | [] => True
  | c :: cs => s.Settles ok c ∧ (s.call app c).2.SettlesRun cs

theorem SatInv.calls (hvalid : ∀ h r a v, (app.valid h r a v).1 = ok v)
    (hpos : ∀ height, 1 ≤ q (vals.totalVotingPower height)) (h : SatInv vals ok s) {cs : List (Call V H A)}
    (hcs : s.SettlesRun app ok cs) : SatInv vals ok (s.calls app cs).2 := by
  induction cs generalizing s with
  | nil => exact h
  | cons c cs ih => exact ih (h.call hvalid hpos hcs.1) hcs.2

/-- **After every run of calls that meet the conditions no rule is left to apply**, if the height is
started. -/
theorem saturated_calls (hvalid : ∀ h r a v, (app.valid h r a v).1 = ok v)
    (hpos : ∀ height, 1 ≤ q (vals.totalVotingPower height)) (nodeAddr : A) (a : σ) (height : ℕ)
    (cs : List (Call V H A)) (hcs : (new nodeAddr a vals height : StateMachine σ V H A).SettlesRun app ok cs)
    (hs : ((new nodeAddr a vals height : StateMachine σ V H A).calls app cs).2.isHeightStarted = true) :
    Saturated ok ((new nodeAddr a vals height : StateMachine σ V H A).calls app cs).2 :=
  ((satInv_new nodeAddr a vals height).calls hvalid hpos hcs).saturated hs

/-! ### Four validators -/

omit [DecidableEq A] in
theorem looked_new (nodeAddr : A) (a : σ) (vals : Validators A) (height : ℕ) (round : ℤ) :
    (new nodeAddr a vals height : StateMachine σ V H A).Looked ok round := by
  refine ⟨?_, fun _ _ => rfl⟩
  intro r _ hdec
  obtain ⟨p, hp, -⟩ := hdec
  cases hp

theorem saturated_calls_first :
    Saturated (fun _ => true) ((validator .v0).calls anyBlock [.start 0, .proposal firstProposal]).2 :=
  saturated_calls (fun _ _ _ _ => rfl) (fun _ => (by decide : 1 ≤ q 4)) Member.v0 () 1
    [.start 0, .proposal firstProposal]
    ⟨fun _ => looked_new Member.v0 () fourValidators 1 0, trivial, trivial⟩ (by decide +kernel)

/-- A block of height 2, proposed in round 1. -/
def earlyProposal : Proposal Block Member := ⟨⟨2, 1, .v3⟩, -1, ⟨9⟩⟩

def earlyPrecommit (sender : Member) : Vote ℕ Member := ⟨⟨2, 1, sender⟩, some 9⟩

/-- At height 1 a validator gets the proposal of round 1 of height 2 and a quorum of precommits for it. Then
it syncs height 1 and starts height 2. -/
def earlyDecision : List (Call Block ℕ Member) :=
  [.start 0, .proposal earlyProposal, .precommit (earlyPrecommit .v1), .precommit (earlyPrecommit .v2),
    .precommit (earlyPrecommit .v3),
    .sync firstProposal [⟨⟨1, 0, .v1⟩, some 7⟩, ⟨⟨1, 0, .v2⟩, some 7⟩, ⟨⟨1, 0, .v3⟩, some 7⟩],
    .start 0]

/-- The decision of height 2 is in hand when the height is started, and is not taken: the validator waits in
round 0. -/
theorem early_decision_missed :
    ((validator .v0).calls anyBlock earlyDecision).2.isHeightStarted = true ∧
      ((validator .v0).calls anyBlock earlyDecision).2.state.height = 2 ∧
      ((validator .v0).calls anyBlock earlyDecision).2.state.round = 0 ∧
      (((validator .v0).calls anyBlock earlyDecision).2.cachedAt (fun _ => true) 1).any
        ((validator .v0).calls anyBlock earlyDecision).2.uponCommitValue = true := by
  decide +kernel

end Juno.Tendermint
