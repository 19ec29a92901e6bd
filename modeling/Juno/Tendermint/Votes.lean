import Juno.Tendermint.VoteCounter

/-!
# What the vote counter holds

The facts about the counter that the machine's properties rest on: which round a message
changes, that a stored proposal stays and the votes only grow, and that everything that is
counted was received.
-/

namespace Juno.Tendermint

open VoteCounter BallotSet RoundData Option Function

variable {V H A : Type} [DecidableEq A] {r : ℤ}

inductive Message (V H A : Type) where
  | proposal (p : Proposal V A)
  /-- `Prevote` and `Precommit`. -/
  | vote (voteType : VoteType) (v : Vote H A)

def Message.header : Message V H A → MessageHeader A
  | .proposal p => p.toMessageHeader
  | .vote _ v => v.toMessageHeader

/-! ### Ballots -/

variable {t : VoteType}

section

variable (b : BallotSet A)

@[simp] theorem BallotSet.enter_perVoteType (a : A) (w : ℕ) : (b.enter a w).perVoteType = b.perVoteType := by
  unfold enter
  split <;> rfl

@[simp] theorem BallotSet.enter_voted (a c : A) (w : ℕ) (t : VoteType) :
    (b.enter a w).voted t c = b.voted t c := by
  unfold enter
  split
  next h =>
    by_cases hc : c = a
    · subst hc
      simp [voted, h]
    · simp [voted, update_of_ne hc]
  next => rfl

theorem BallotSet.add_voted (a c : A) (w : ℕ) (t u : VoteType) :
    (b.add a w t).2.voted u c = (decide (c = a ∧ u = t) || b.voted u c) := by
  have henter := b.enter_voted a c w u
  unfold add
  simp only
  split
  next h =>
    rw [henter]
    by_cases hc : c = a ∧ u = t
    · obtain ⟨rfl, rfl⟩ := hc
      rw [enter_voted] at h
      simp [h]
    · simp [hc]
  next h =>
    by_cases hc : c = a
    · subst hc
      by_cases hu : u = t
      · subst hu
        simp [voted]
      · rw [← henter]
        simp only [voted, update_self, update_of_ne hu, hu, and_false, decide_false,
          Bool.false_or]
        cases (b.enter c w).ballots c <;> rfl
    · rw [← henter]
      simp [voted, hc]

theorem BallotSet.add_perVoteType (a : A) (w : ℕ) (t u : VoteType) :
    (b.add a w t).2.perVoteType u = b.perVoteType u + if u = t ∧ b.voted t a = false then w else 0 := by
  unfold add
  simp only [enter_voted, enter_perVoteType]
  split
  next h => simp [h]
  next h =>
    by_cases hu : u = t
    · subst hu
      simp [h]
    · simp [hu]

theorem BallotSet.add_fst (a : A) (w : ℕ) (t : VoteType) : (b.add a w t).1 = !b.voted t a := by
  unfold add
  simp only [enter_voted]
  split <;> simp_all

end

variable {b : BallotSet A} {a : A}

theorem BallotSet.add_of_voted (h : b.voted t a = true) (w : ℕ) : (b.add a w t).2 = b := by
  have henter : b.enter a w = b := by
    unfold enter
    split
    next hnone => simp [voted, hnone] at h
    next => rfl
  unfold add
  simp [henter, h]

omit [DecidableEq A] in
@[simp] theorem newBallotSet_voted (t : VoteType) (a : A) : (newBallotSet : BallotSet A).voted t a = false :=
  rfl

omit [DecidableEq A] in
@[simp] theorem newBallotSet_perVoteType (t : VoteType) : (newBallotSet : BallotSet A).perVoteType t = 0 :=
  rfl

variable (cast : VoteType → A → Prop)

/-- The voters of each kind: each of them voted (`cast`), and their power is the sum. -/
def BallotSet.Counts (power : A → ℕ) (b : BallotSet A) : Prop :=
  ∀ t, ∃ S : Finset A, (∀ a, a ∈ S ↔ b.voted t a = true) ∧ (∀ a ∈ S, cast t a) ∧
    b.perVoteType t = ∑ a ∈ S, power a

omit [DecidableEq A] in
theorem BallotSet.counts_new (power : A → ℕ) : (newBallotSet : BallotSet A).Counts cast power :=
  fun _ => ⟨∅, by simp [newBallotSet, voted], by simp, rfl⟩

variable {power : A → ℕ}

theorem BallotSet.Counts.add {cast : VoteType → A → Prop} (h : b.Counts cast power) (ha : cast t a) :
    (b.add a (power a) t).2.Counts cast power := by
  intro u
  obtain ⟨S, hmem, hcast, hsum⟩ := h u
  simp only [add_voted, add_perVoteType]
  by_cases hu : u = t
  · subst hu
    refine ⟨insert a S, ?_, ?_, ?_⟩
    · intro c
      simp [hmem]
    · intro c hc
      rcases Finset.mem_insert.mp hc with rfl | hc
      · exact ha
      · exact hcast c hc
    · by_cases hv : b.voted u a = true
      · rw [Finset.insert_eq_of_mem ((hmem a).mpr hv)]
        simp [hv, hsum]
      · rw [Finset.sum_insert (fun hin => hv ((hmem a).mp hin))]
        simp [hv, hsum, Nat.add_comm]
  · exact ⟨S, by simp [hu, hmem], hcast, by simp [hu, hsum]⟩

omit [DecidableEq A] in
theorem BallotSet.Counts.mono {cast cast' : VoteType → A → Prop} (h : b.Counts cast power)
    (hcast : ∀ t a, cast t a → cast' t a) : b.Counts cast' power := by
  intro t
  obtain ⟨S, hmem, hS, hsum⟩ := h t
  exact ⟨S, hmem, fun a ha => hcast t a (hS a ha), hsum⟩

/-! ### Rounds -/

variable {p : Proposal V A} {id : Option H} {v : Vote H A}

section

variable [DecidableEq H]

section

variable (r : RoundData V H A)

omit [DecidableEq A] in
theorem RoundData.votesFor_setVotesFor (id id' : Option H) (b : BallotSet A) :
    (r.setVotesFor id b).votesFor id' = if id' = id then some b else r.votesFor id' := by
  cases id with
  | none => cases id' <;> simp [setVotesFor, votesFor]
  | some i =>
    cases id' with
    | none => simp [setVotesFor, votesFor]
    | some j => by_cases h : j = i <;> simp [setVotesFor, votesFor, h]

omit [DecidableEq A] in
@[simp] theorem RoundData.setVotesFor_proposal (id : Option H) (b : BallotSet A) :
    (r.setVotesFor id b).proposal = r.proposal := by
  cases id <;> rfl

@[simp] theorem RoundData.addVote_proposal (v : Vote H A) (w : ℕ) (t : VoteType) :
    (r.addVote v w t).2.proposal = r.proposal := by
  simp [addVote]

theorem RoundData.votesFor_addVote (v : Vote H A) (w : ℕ) (t : VoteType) (id : Option H) :
    (r.addVote v w t).2.votesFor id =
      if id = v.id then some (((r.votesFor id).getD newBallotSet).add v.sender w t).2 else r.votesFor id := by
  unfold addVote
  simp only [votesFor_setVotesFor]
  split
  next h => rw [h]
  next => cases id <;> rfl

omit [DecidableEq A] in
@[simp] theorem RoundData.votesFor_setProposal (p : Proposal V A) (w : ℕ) (id : Option H) :
    (r.setProposal p w).2.votesFor id = r.votesFor id := by
  unfold setProposal
  split <;> cases id <;> rfl

omit [DecidableEq A] [DecidableEq H] in
theorem RoundData.setProposal_proposal (p : Proposal V A) (w : ℕ) :
    (r.setProposal p w).2.proposal = some (r.proposal.getD p) := by
  unfold setProposal
  split
  next h => simp [h]
  next h => simp [h]

@[simp] theorem RoundData.addVote_allVotes (v : Vote H A) (w : ℕ) (t : VoteType) :
    (r.addVote v w t).2.allVotes = (r.allVotes.add v.sender w t).2 := by
  unfold addVote setVotesFor
  cases v.id <;> rfl

omit [DecidableEq A] [DecidableEq H] in
@[simp] theorem RoundData.setProposal_allVotes (p : Proposal V A) (w : ℕ) :
    (r.setProposal p w).2.allVotes = r.allVotes := by
  unfold setProposal
  split <;> rfl

end

structure RoundData.Grows (r r' : RoundData V H A) : Prop where
  proposal : ∀ p, r.proposal = some p → r'.proposal = some p
  count : ∀ t id, r.countVote t id ≤ r'.countVote t id

omit [DecidableEq A] in
theorem RoundData.Grows.refl (r : RoundData V H A) : r.Grows r := ⟨fun _ h => h, fun _ _ => le_rfl⟩

omit [DecidableEq A] in
theorem RoundData.grows_setProposal (r : RoundData V H A) (p : Proposal V A) (w : ℕ) :
    r.Grows (r.setProposal p w).2 where
  proposal p' h := by simp [setProposal_proposal, h]
  count t id := by simp [countVote]

theorem RoundData.grows_addVote (r : RoundData V H A) (v : Vote H A) (w : ℕ) (t : VoteType) :
    r.Grows (r.addVote v w t).2 where
  proposal p h := by simpa using h
  count u id := by
    simp only [countVote, votesFor_addVote]
    by_cases hid : id = v.id
    · rw [if_pos hid]
      cases hvotes : r.votesFor id with
      | none => exact Nat.zero_le _
      | some b =>
        simp only [getD_some, add_perVoteType]
        omega
    · rw [if_neg hid]

/-- The stored proposal and the counted votes of a round are known. -/
structure RoundData.Known (known : Message V H A → Prop) (vals : Validators A) (height : ℕ) (round : ℤ)
    (r : RoundData V H A) : Prop where
  proposal : ∀ p, r.proposal = some p →
    known (.proposal p) ∧ p.toMessageHeader = ⟨height, round, vals.proposer height round⟩
  /-- The votes for an identifier are votes of the round for it. -/
  votes : ∀ id b, r.votesFor id = some b →
    b.Counts (fun t a => known (.vote t ⟨⟨height, round, a⟩, id⟩)) (vals.validatorVotingPower height)
  /-- The votes for an identifier are among all votes. -/
  all : ∀ id b t a, r.votesFor id = some b → b.voted t a = true → r.allVotes.voted t a = true
  /-- The proposer is counted on its own only as long as it has not voted. -/
  uncounted : r.uncountedProposerPower = 0 ∨ ∃ p, r.proposal = some p ∧ ∀ t,
    r.allVotes.voted t p.sender = false

omit [DecidableEq A] in
theorem RoundData.known_new (known : Message V H A → Prop) (vals : Validators A) (height : ℕ) (round : ℤ) :
    (newRoundData : RoundData V H A).Known known vals height round where
  proposal p h := by simp [newRoundData] at h
  votes id b h := by
    cases id with
    | none =>
      simp only [newRoundData, votesFor, some.injEq] at h
      rw [← h]
      exact counts_new _ _
    | some i => simp [newRoundData, votesFor] at h
  all id b t a h hv := by
    cases id with
    | none =>
      simp only [newRoundData, votesFor, some.injEq] at h
      rw [← h] at hv
      exact hv
    | some i => simp [newRoundData, votesFor] at h
  uncounted := .inl rfl

variable {known known' : Message V H A → Prop} {vals : Validators A} {height : ℕ} {round : ℤ}
  {r : RoundData V H A}

omit [DecidableEq A] in
theorem RoundData.Known.mono (h : r.Known known vals height round) (hk : ∀ m, known m → known' m) :
    r.Known known' vals height round where
  proposal p hp := ⟨hk _ (h.proposal p hp).1, (h.proposal p hp).2⟩
  votes id b hb := (h.votes id b hb).mono fun _ _ => hk _
  all := h.all
  uncounted := h.uncounted

omit [DecidableEq A] in
theorem RoundData.Known.setProposal (h : r.Known known vals height round) (hp : known (.proposal p))
    (hheader : p.toMessageHeader = ⟨height, round, vals.proposer height round⟩) (w : ℕ) :
    (r.setProposal p w).2.Known known vals height round where
  proposal p' hp' := by
    rw [setProposal_proposal, some.injEq] at hp'
    cases hr : r.proposal with
    | none =>
      rw [hr, getD_none] at hp'
      subst hp'
      exact ⟨hp, hheader⟩
    | some p₀ =>
      rw [hr, getD_some] at hp'
      subst hp'
      exact h.proposal p₀ hr
  votes id b hb := h.votes id b (by simpa using hb)
  all id b t a hb hv := by
    rw [setProposal_allVotes]
    exact h.all id b t a (by simpa using hb) hv
  uncounted := by
    unfold RoundData.setProposal
    split
    next => exact h.uncounted
    next hnone =>
      simp only
      have hzero : r.uncountedProposerPower = 0 := by
        refine h.uncounted.resolve_right ?_
        rintro ⟨p', hp', -⟩
        rw [hnone] at hp'
        cases hp'
      cases hvoted : !r.allVotes.voted .prevote p.sender && !r.allVotes.voted .precommit p.sender with
      | false => exact .inl hzero
      | true =>
        refine .inr ⟨p, rfl, fun t => ?_⟩
        rw [Bool.and_eq_true, Bool.not_eq_true', Bool.not_eq_true'] at hvoted
        cases t with
        | prevote => exact hvoted.1
        | precommit => exact hvoted.2

/-- A vote of the proposer ends its being counted on its own. -/
theorem RoundData.addVote_uncountedProposerPower (r : RoundData V H A) (v : Vote H A) (w : ℕ) (t : VoteType) :
    (r.addVote v w t).2.uncountedProposerPower =
      if r.uncountedProposerPower > 0 ∧ r.proposal.any (fun p => p.sender = v.sender) = true then 0
      else r.uncountedProposerPower := by
  unfold addVote setVotesFor
  cases v.id <;> rfl

theorem RoundData.Known.addVote (h : r.Known known vals height round) (hv : known (.vote t v))
    (hheight : v.height = height) (hround : v.round = round) :
    (r.addVote v (vals.validatorVotingPower height v.sender) t).2.Known known vals height round where
  proposal p hp := h.proposal p (by simpa using hp)
  votes id b hb := by
    rw [votesFor_addVote] at hb
    split at hb
    next hid =>
      subst hid hheight hround
      rw [some.injEq] at hb
      subst hb
      refine Counts.add ?_ hv
      cases hvotes : r.votesFor v.id with
      | none => exact counts_new _ _
      | some b => exact h.votes _ b hvotes
    next => exact h.votes id b hb
  all id b u a hb hvoted := by
    rw [addVote_allVotes, add_voted]
    rw [votesFor_addVote] at hb
    split at hb
    next hid =>
      rw [some.injEq] at hb
      rw [← hb, add_voted] at hvoted
      cases hvotes : r.votesFor id with
      | none =>
        rw [hvotes, getD_none, newBallotSet_voted, Bool.or_false] at hvoted
        rw [hvoted, Bool.true_or]
      | some b₀ =>
        rw [hvotes, getD_some] at hvoted
        rcases Bool.or_eq_true_iff.mp hvoted with hnew | hold
        · rw [hnew, Bool.true_or]
        · rw [h.all id b₀ u a hvotes hold, Bool.or_true]
    next => rw [h.all id b u a hb hvoted, Bool.or_true]
  uncounted := by
    rw [addVote_uncountedProposerPower, addVote_proposal, addVote_allVotes]
    rcases h.uncounted with hzero | ⟨p, hp, hnot⟩
    · exact .inl (by simp [hzero])
    · by_cases hsender : p.sender = v.sender
      · refine .inl ?_
        by_cases hzero : r.uncountedProposerPower > 0
        · rw [if_pos ⟨hzero, by simp [hp, hsender]⟩]
        · rw [if_neg fun hc => hzero hc.1]
          omega
      · refine .inr ⟨p, hp, fun u => ?_⟩
        rw [add_voted, hnot u, Bool.or_false]
        exact decide_eq_false fun hc => hsender hc.1

omit [DecidableEq A] in
theorem RoundData.setVotesFor_self (h : r.votesFor id = some b) : r.setVotesFor id b = r := by
  cases id with
  | none =>
    obtain rfl := some.inj h
    rfl
  | some id =>
    unfold setVotesFor
    simp only
    rw [show some b = r.perIDVotes id from h.symm, update_eq_self]

theorem RoundData.Known.addVote_of_old (h : r.Known known vals height round) {w : ℕ}
    (hold : (r.addVote v w t).1 = false) : (r.addVote v w t).2 = r := by
  have hvoted : ((r.votesFor v.id).getD newBallotSet).voted t v.sender = true := by
    simpa [RoundData.addVote, add_fst] using hold
  cases hb : r.votesFor v.id with
  | none => simp [hb] at hvoted
  | some b =>
    rw [hb, getD_some] at hvoted
    have hall := h.all v.id b t v.sender hb hvoted
    have hcounted :
        ¬ (r.uncountedProposerPower > 0 ∧ r.proposal.any (fun p => p.sender = v.sender) = true) := by
      rintro ⟨hpos, hany⟩
      rcases h.uncounted with hzero | ⟨p, hp, hno⟩
      · omega
      · simp only [hp, any_some, decide_eq_true_eq] at hany
        have := hno t
        rw [hany, hall] at this
        cases this
    unfold RoundData.addVote
    simp only [if_neg hcounted, add_of_voted hall, hb, getD_some, add_of_voted hvoted]
    exact setVotesFor_self hb

end

/-! ### The counter -/

namespace VoteCounter

omit [DecidableEq A] in
@[simp] theorem rounds_currentHeight (v : VoteCounter V H A) : v.rounds v.currentHeight = v.roundData := by
  simp [rounds]

structure Changes (v : VoteCounter V H A) (height : ℕ) (round : ℤ)
    (change : RoundData V H A → RoundData V H A)
    (v' : VoteCounter V H A) : Prop where
  validators : v'.validators = v.validators
  currentHeight : v'.currentHeight = v.currentHeight
  faulty : v'.faultyVotingPower = v.faultyVotingPower
  quorum : v'.quorumVotingPower = v.quorumVotingPower
  /-- Nothing is put among the messages of later heights for a height that is not later. -/
  future : ∀ h ≤ v.currentHeight, v'.futureMessages h = v.futureMessages h
  rounds : ∀ h r, v'.rounds h r =
    if h = height ∧ r = round then some (change ((v.rounds height round).getD newRoundData)) else v.rounds h r

/-- The messages of a round, none if it was not made. -/
def data (v : VoteCounter V H A) (height : ℕ) (round : ℤ) : RoundData V H A :=
  (v.rounds height round).getD newRoundData

variable {height : ℕ}

omit [DecidableEq A] in
theorem setRounds_changes (v : VoteCounter V H A) (hle : v.currentHeight ≤ height) (round : ℤ)
    (change : RoundData V H A → RoundData V H A) :
    v.Changes height round change (v.setRounds height (update (v.rounds height) round
      (some (change ((v.rounds height round).getD newRoundData))))) := by
  unfold setRounds
  split
  next hh =>
    subst hh
    refine ⟨rfl, rfl, rfl, rfl, fun _ _ => rfl, ?_⟩
    intro h r
    by_cases hc : h = v.currentHeight
    · by_cases hr : r = round <;> simp [rounds, hc, hr]
    · simp [rounds, hc]
  next hh =>
    refine ⟨rfl, rfl, rfl, rfl, fun h hle' => update_of_ne (by omega) _ _, ?_⟩
    intro h r
    by_cases hc : h = height
    · subst hc
      by_cases hr : r = round <;> simp [rounds, hh, hr]
    · simp [rounds, hc]

omit [DecidableEq A] in
/-- What a change to a round does: nothing if the height has passed. -/
theorem added_withRound (v : VoteCounter V H A) (height : ℕ) (round : ℤ)
    (change : RoundData V H A → Bool × RoundData V H A) :
    (height < v.currentHeight ∧ v.added (v.withRound height round change) = (false, v)) ∨
      (v.currentHeight ≤ height ∧
        (v.added (v.withRound height round change)).1 =
          (change ((v.rounds height round).getD newRoundData)).1 ∧
        v.Changes height round (fun r => (change r).2) (v.added (v.withRound height round change)).2) := by
  by_cases h : height < v.currentHeight
  · exact .inl ⟨h, by simp [added, withRound, h]⟩
  · refine .inr ⟨by omega, ?_, ?_⟩
    · simp [added, withRound, h]
    · have key := v.setRounds_changes (Nat.le_of_not_lt h) round fun r => (change r).2
      simpa [added, withRound, h] using key

/-- Proposals stay and counts grow at the current height, which stays. -/
structure Grows [DecidableEq H] (v v' : VoteCounter V H A) : Prop where
  currentHeight : v'.currentHeight = v.currentHeight
  faulty : v'.faultyVotingPower = v.faultyVotingPower
  quorum : v'.quorumVotingPower = v.quorumVotingPower
  roundData : ∀ r data, v.roundData r = some data → ∃ data', v'.roundData r = some data' ∧ data.Grows data'

variable [DecidableEq H]

omit [DecidableEq A] in
theorem Grows.refl (v : VoteCounter V H A) : v.Grows v :=
  ⟨rfl, rfl, rfl, fun _ data h => ⟨data, h, .refl data⟩⟩

variable {v v' : VoteCounter V H A} {change : RoundData V H A → RoundData V H A} {round : ℤ}

omit [DecidableEq H] [DecidableEq A] in
theorem Changes.roundData (h : v.Changes height round change v') (r : ℤ) :
    v'.roundData r = if v.currentHeight = height ∧ r = round
      then some (change ((v.roundData r).getD newRoundData)) else v.roundData r := by
  have key := h.rounds v.currentHeight r
  rw [← h.currentHeight, rounds_currentHeight, h.currentHeight] at key
  rw [key]
  by_cases hc : v.currentHeight = height ∧ r = round
  · rw [if_pos hc, if_pos hc, ← hc.1, ← hc.2, rounds_currentHeight]
  · rw [if_neg hc, if_neg hc, rounds_currentHeight]

omit [DecidableEq A] in
theorem Changes.grows (h : v.Changes height round change v')
    (hgrows : ∀ data : RoundData V H A, data.Grows (change data)) : v.Grows v' := by
  refine ⟨h.currentHeight, h.faulty, h.quorum, ?_⟩
  intro r data hr
  rw [h.roundData, hr, getD_some]
  by_cases hc : v.currentHeight = height ∧ r = round
  · exact ⟨_, if_pos hc, hgrows data⟩
  · exact ⟨data, if_neg hc, .refl data⟩

variable (vals : Validators A)

/-- The change a proposal makes to its round. -/
def putProposal (p : Proposal V A) (data : RoundData V H A) : Bool × RoundData V H A :=
  if p.sender ≠ vals.proposer p.height p.round then (false, data)
  else data.setProposal p (vals.validatorVotingPower p.height p.sender)

def putVote (vote : Vote H A) (t : VoteType) (data : RoundData V H A) : Bool × RoundData V H A :=
  data.addVote vote (vals.validatorVotingPower vote.height vote.sender) t

/-- The change a message makes to its round. -/
def put : Message V H A → RoundData V H A → Bool × RoundData V H A
  | .proposal p => putProposal vals p
  | .vote t vote => putVote vals vote t

variable (v)

/-- `AddProposal`, `AddPrevote` and `AddPrecommit`. -/
def add : Message V H A → Bool × VoteCounter V H A
  | .proposal p => v.addProposal p
  | .vote t vote => v.addVote vote t

theorem add_changes (m : Message V H A) :
    (m.header.height < v.currentHeight ∧ v.add m = (false, v)) ∨
      (v.currentHeight ≤ m.header.height ∧
        (v.add m).1 = (put v.validators m (v.data m.header.height m.header.round)).1 ∧
        v.Changes m.header.height m.header.round (fun r => (put v.validators m r).2) (v.add m).2) := by
  cases m <;> exact v.added_withRound _ _ _

omit [DecidableEq A] in
theorem hasFuturePrecommitQuorum_changes (height : ℕ) (round : ℤ) (id : Option H) :
    (height < v.currentHeight ∧ v.hasFuturePrecommitQuorum height round id = (false, v)) ∨
      (v.currentHeight ≤ height ∧
        v.Changes height round (fun r => r) (v.hasFuturePrecommitQuorum height round id).2) := by
  rcases v.added_withRound height round
    (fun data => (decide (data.countVote .precommit id ≥ v.quorumVotingPower), data)) with h | h
  · exact .inl h
  · exact .inr ⟨h.1, h.2.2⟩

variable {v}

theorem grows_put (m : Message V H A) (data : RoundData V H A) : data.Grows (put vals m data).2 := by
  cases m with
  | proposal p =>
    rw [put, putProposal]
    split
    · exact .refl data
    · exact data.grows_setProposal p _
  | vote t vote => exact data.grows_addVote vote _ t

theorem grows_add (v : VoteCounter V H A) (m : Message V H A) : v.Grows (v.add m).2 := by
  rcases v.add_changes m with ⟨-, h⟩ | ⟨-, -, h⟩
  · rw [h]
    exact .refl v
  · exact h.grows (grows_put v.validators m)

section

omit [DecidableEq A]

theorem grows_hasFuturePrecommitQuorum (v : VoteCounter V H A) (height : ℕ) (round : ℤ) (id : Option H) :
    v.Grows (v.hasFuturePrecommitQuorum height round id).2 := by
  rcases v.hasFuturePrecommitQuorum_changes height round id with ⟨-, h⟩ | ⟨-, h⟩
  · rw [h]
    exact .refl v
  · exact h.grows .refl

theorem Grows.getProposal (h : v.Grows v') (hp : v.getProposal r = some p) : v'.getProposal r = some p := by
  obtain ⟨data, hdata, hprop⟩ := bind_eq_some_iff.mp hp
  obtain ⟨data', hdata', hg⟩ := h.roundData r data hdata
  exact bind_eq_some_iff.mpr ⟨data', hdata', hg.proposal p hprop⟩

theorem hasQuorumForVote_iff :
    v.hasQuorumForVote r t id = true ↔ ∃ data, v.roundData r = some data ∧
      v.quorumVotingPower ≤ data.countVote t id := by
  unfold hasQuorumForVote
  split
  next h => simp [h]
  next data h => simp [h]

theorem Grows.hasQuorumForVote (h : v.Grows v') (hq : v.hasQuorumForVote r t id = true) :
    v'.hasQuorumForVote r t id = true := by
  obtain ⟨data, hdata, hle⟩ := hasQuorumForVote_iff.mp hq
  obtain ⟨data', hdata', hg⟩ := h.roundData r data hdata
  exact hasQuorumForVote_iff.mpr ⟨data', hdata', by rw [h.quorum]; exact hle.trans (hg.count t id)⟩

end

omit [DecidableEq A] [DecidableEq H] in
theorem Changes.data (h : v.Changes height round change v') (k : ℕ) (r : ℤ) :
    v'.data k r = if k = height ∧ r = round then change (v.data k r) else v.data k r := by
  unfold VoteCounter.data
  rw [h.rounds]
  split
  next hkr =>
    rw [hkr.1, hkr.2]
    rfl
  next => rfl

section

omit [DecidableEq H] [DecidableEq A]

theorem getProposal_eq (v : VoteCounter V H A) (r : ℤ) :
    v.getProposal r = (v.data v.currentHeight r).proposal := by
  unfold getProposal data
  rw [rounds_currentHeight]
  cases v.roundData r <;> rfl

theorem threshold_eq {count : RoundData V H A → ℕ} (hnew : count newRoundData = 0) {n : ℕ} (hpos : 1 ≤ n)
    (r : ℤ) :
    (match v.roundData r with
      | none => false
      | some data => decide (n ≤ count data)) = decide (n ≤ count (v.data v.currentHeight r)) := by
  unfold data
  rw [rounds_currentHeight]
  cases v.roundData r with
  | some d => rfl
  | none =>
    simp only [getD_none, hnew]
    exact (decide_eq_false (by omega)).symm

end

omit [DecidableEq A] in
theorem hasQuorumForVote_eq (hpos : 1 ≤ v.quorumVotingPower) (r : ℤ) (t : VoteType) (id : Option H) :
    v.hasQuorumForVote r t id = decide (v.quorumVotingPower ≤ (v.data v.currentHeight r).countVote t id) :=
  threshold_eq (by cases id <;> rfl) hpos r

section

omit [DecidableEq H] [DecidableEq A]

theorem hasQuorumForAny_eq (hpos : 1 ≤ v.quorumVotingPower) (r : ℤ) (t : VoteType) :
    v.hasQuorumForAny r t = decide (v.quorumVotingPower ≤ (v.data v.currentHeight r).countAny t) :=
  threshold_eq rfl hpos r

theorem hasNonFaultyFutureMessage_eq (v : VoteCounter V H A) (r : ℤ) :
    v.hasNonFaultyFutureMessage r =
      decide ((v.data v.currentHeight r).countFutureMessageSenders > v.faultyVotingPower) :=
  threshold_eq rfl (Nat.succ_pos v.faultyVotingPower) r

end

structure Holds (known : Message V H A → Prop) (vals : Validators A) (v : VoteCounter V H A) : Prop where
  validators : v.validators = vals
  quorum : v.quorumVotingPower = q (vals.totalVotingPower v.currentHeight)
  faulty : v.faultyVotingPower = f (vals.totalVotingPower v.currentHeight)
  future : ∀ h ≤ v.currentHeight, v.futureMessages h = none
  /-- Everything stored or counted is known. -/
  rounds : ∀ h r data, v.rounds h r = some data → data.Known known vals h r

variable {known known' : Message V H A → Prop} {vals : Validators A} {v v' : VoteCounter V H A}

omit [DecidableEq A] in
theorem holds_new (known : Message V H A → Prop) (vals : Validators A) (height : ℕ) :
    (new vals height : VoteCounter V H A).Holds known vals where
  validators := rfl
  quorum := rfl
  faulty := rfl
  future _ _ := rfl
  rounds h r data hr := by
    by_cases hh : h = height <;> simp [rounds, new, hh] at hr

section

variable (h : v.Holds known vals)
include h

omit [DecidableEq A] in
theorem Holds.mono (hk : ∀ m, known m → known' m) : v.Holds known' vals :=
  { h with rounds := fun n r data hr => (h.rounds n r data hr).mono hk }

omit [DecidableEq A] in
theorem Holds.changes (hc : v.Changes height round change v')
    (hchange : ∀ data : RoundData V H A, data.Known known vals height round →
      (change data).Known known vals height round) :
    v'.Holds known vals := by
  refine ⟨hc.validators.trans h.validators, ?_, ?_, ?_, ?_⟩
  · rw [hc.quorum, hc.currentHeight, h.quorum]
  · rw [hc.faulty, hc.currentHeight, h.faulty]
  · intro n hn
    rw [hc.currentHeight] at hn
    rw [hc.future n hn, h.future n hn]
  · intro n r data hr
    rw [hc.rounds] at hr
    split at hr
    next hnr =>
      obtain ⟨rfl, rfl⟩ := hnr
      rw [some.injEq] at hr
      subst hr
      refine hchange _ ?_
      cases hv : v.rounds n r with
      | none => exact known_new known vals n r
      | some data => exact h.rounds n r data hv
    next => exact h.rounds n r data hr

theorem Holds.add (m : Message V H A) (hm : known m) : (v.add m).2.Holds known vals := by
  rcases v.add_changes m with ⟨-, hv⟩ | ⟨-, -, hc⟩
  · rw [hv]
    exact h
  · refine h.changes hc fun data hdata => ?_
    rw [h.validators]
    cases m with
    | proposal p =>
      rw [put, putProposal]
      split
      · exact hdata
      next hsender =>
        refine hdata.setProposal hm ?_ _
        rw [ne_eq, not_not] at hsender
        rw [Message.header, ← hsender]
    | vote t vote => exact hdata.addVote hm rfl rfl

omit [DecidableEq A] in
theorem Holds.hasFuturePrecommitQuorum (height : ℕ) (round : ℤ) (id : Option H) :
    (v.hasFuturePrecommitQuorum height round id).2.Holds known vals := by
  rcases v.hasFuturePrecommitQuorum_changes height round id with ⟨-, hv⟩ | ⟨-, hc⟩
  · rw [hv]
    exact h
  · exact h.changes hc fun _ hdata => hdata

omit [DecidableEq A] in
theorem Holds.data_known (height : ℕ) (round : ℤ) : (v.data height round).Known known vals height round := by
  unfold data
  cases hdata : v.rounds height round with
  | none => exact known_new _ _ _ _
  | some data => exact h.rounds _ _ _ hdata

end

/-- A message that is not counted leaves the rounds as they are. -/
theorem Holds.add_data_of_old (h : v.Holds known vals) (m : Message V H A) (hold : (v.add m).1 = false)
    (k : ℕ) (r : ℤ) : (v.add m).2.data k r = v.data k r := by
  rcases v.add_changes m with ⟨-, heq⟩ | ⟨-, hfst, hc⟩
  · rw [heq]
  rw [hc.data]
  split
  next hkr =>
    obtain ⟨rfl, rfl⟩ := hkr
    rw [hold] at hfst
    cases m with
    | proposal p =>
      simp only [Message.header, put, putProposal, setProposal] at hfst ⊢
      split at hfst
      next hne => rw [if_pos hne]
      next hne =>
        rw [if_neg hne]
        cases hproposal : (v.data p.height p.round).proposal with
        | some p' => rfl
        | none => simp [hproposal] at hfst
    | vote t vote => exact (h.data_known _ _).addVote_of_old hfst.symm
  next => rfl

omit [DecidableEq A] [DecidableEq H] in
/-- The rounds of the next height, and of those after it, are the ones that were kept for them. -/
theorem startNewHeight_rounds (hfuture : ∀ h ≤ v.currentHeight, v.futureMessages h = none) (h : ℕ) :
    v.startNewHeight.rounds h = if v.currentHeight < h then v.rounds h else fun _ => none := by
  by_cases hc : h = v.currentHeight + 1
  · subst hc
    simp [rounds, startNewHeight]
  · by_cases hlt : v.currentHeight < h
    · have hne : h ≠ v.currentHeight := by omega
      simp [rounds, startNewHeight, hc, hne, hlt]
    · simp [rounds, startNewHeight, hc, hlt, hfuture h (by omega)]

omit [DecidableEq A] in
theorem Holds.startNewHeight (h : v.Holds known vals) : v.startNewHeight.Holds known vals where
  validators := h.validators
  quorum := by
    simp [VoteCounter.startNewHeight, h.validators]
  faulty := by
    simp [VoteCounter.startNewHeight, h.validators]
  future n hn := by
    by_cases hc : n = v.currentHeight + 1
    · simp [VoteCounter.startNewHeight, hc]
    · have hle : n ≤ v.currentHeight := by
        simp only [VoteCounter.startNewHeight] at hn
        omega
      simpa [VoteCounter.startNewHeight, hc] using h.future n hle
  rounds n r data hr := by
    rw [startNewHeight_rounds h.future] at hr
    split at hr
    · exact h.rounds n r data hr
    · cases hr

omit [DecidableEq A] in
theorem Holds.proposal (h : v.Holds known vals) (hp : v.getProposal r = some p) :
    known (.proposal p) ∧ p.toMessageHeader = ⟨v.currentHeight, r, vals.proposer v.currentHeight r⟩ := by
  obtain ⟨data, hdata, hprop⟩ := bind_eq_some_iff.mp hp
  rw [← rounds_currentHeight] at hdata
  exact (h.rounds _ _ data hdata).proposal p hprop

/-- A quorum: known votes of voters that have the power of one together. -/
def IsQuorum (known : Message V H A → Prop) (vals : Validators A) (height : ℕ) (round : ℤ) (t : VoteType)
    (id : Option H) : Prop :=
  ∃ S : Finset A, (∀ a ∈ S, known (.vote t ⟨⟨height, round, a⟩, id⟩)) ∧
    q (vals.totalVotingPower height) ≤ ∑ a ∈ S, vals.validatorVotingPower height a

omit [DecidableEq A] [DecidableEq H] in
theorem IsQuorum.mono (h : IsQuorum known vals height round t id) (hk : ∀ m, known m → known' m) :
    IsQuorum known' vals height round t id := by
  obtain ⟨S, hS, hq⟩ := h
  exact ⟨S, fun a ha => hk _ (hS a ha), hq⟩

omit [DecidableEq A] in
theorem Holds.isQuorum (h : v.Holds known vals) (hq : v.hasQuorumForVote r t id = true) :
    IsQuorum known vals v.currentHeight r t id := by
  obtain ⟨data, hdata, hle⟩ := hasQuorumForVote_iff.mp hq
  rw [← rounds_currentHeight] at hdata
  rw [h.quorum] at hle
  unfold countVote at hle
  cases hvotes : data.votesFor id with
  | none =>
    rw [hvotes] at hle
    exact ⟨∅, by simp, by simpa using hle⟩
  | some b =>
    rw [hvotes] at hle
    obtain ⟨S, -, hS, hsum⟩ := (h.rounds _ _ data hdata).votes id b hvotes t
    exact ⟨S, hS, hsum ▸ hle⟩

end VoteCounter

end Juno.Tendermint
