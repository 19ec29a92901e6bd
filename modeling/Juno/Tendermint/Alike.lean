import Juno.Tendermint.Saturation

/-!
# Machines that behave alike

Two machines with the same state and the same messages do the same, whatever else they have in
memory: the state of the application, if its answers do not depend on it, rounds that were made
for a message that was not stored, and what is remembered of syncs. The messages may also differ
at heights the machines are not at.

## The model

`Alike K` is about the messages of the heights in `K`. A round that was never made is the same
as an empty one, since a quorum is not empty.

The main result is `Alike.processWAL`.
-/

namespace Juno.Tendermint

open StateMachine

variable {σ V H A : Type} [Hashed V H] [DecidableEq H] [DecidableEq A]

/-! ### The messages of a round -/

namespace VoteCounter

/-- Two counters of the same validators at the same height, with the same messages at the heights in `K`. -/
structure Same (vals : Validators A) (K : Set ℕ) (v v' : VoteCounter V H A) : Prop where
  left : v.Holds (fun _ => True) vals
  right : v'.Holds (fun _ => True) vals
  currentHeight : v'.currentHeight = v.currentHeight
  data : ∀ h ∈ K, ∀ r, v'.data h r = v.data h r

variable {vals : Validators A} {K : Set ℕ} {v v' : VoteCounter V H A}

section

omit [Hashed V H] [DecidableEq A]

theorem Same.validators (h : Same vals K v v') : v'.validators = v.validators :=
  h.right.validators.trans h.left.validators.symm

theorem Same.quorum (h : Same vals K v v') : v'.quorumVotingPower = v.quorumVotingPower := by
  rw [h.right.quorum, h.left.quorum, h.currentHeight]

theorem Same.faulty (h : Same vals K v v') : v'.faultyVotingPower = v.faultyVotingPower := by
  rw [h.right.faulty, h.left.faulty, h.currentHeight]

theorem Same.refl (h : v.Holds (fun _ => True) vals) : Same vals K v v := ⟨h, h, rfl, fun _ _ _ => rfl⟩

end

section

variable (h : Same vals K v v')
include h

section

omit [Hashed V H] [DecidableEq A]

theorem Same.symm : Same vals K v' v :=
  ⟨h.right, h.left, h.currentHeight.symm, fun k hk r => (h.data k hk r).symm⟩

theorem Same.trans {v'' : VoteCounter V H A} (h' : Same vals K v' v'') : Same vals K v v'' :=
  ⟨h.left, h'.right, h'.currentHeight.trans h.currentHeight,
    fun k hk r => (h'.data k hk r).trans (h.data k hk r)⟩

theorem Same.changes {height : ℕ} {round : ℤ} {change : RoundData V H A → RoundData V H A}
    {w w' : VoteCounter V H A} (hw : v.Changes height round change w)
    (hw' : v'.Changes height round change w') (hleft : w.Holds (fun _ => True) vals)
    (hright : w'.Holds (fun _ => True) vals) :
    Same vals K w w' where
  left := hleft
  right := hright
  currentHeight := by rw [hw'.currentHeight, hw.currentHeight, h.currentHeight]
  data k hk r := by
    rw [hw'.data, hw.data, h.data k hk r]

end

omit [Hashed V H] in
theorem Same.add (m : Message V H A) :
    Same vals K (v.add m).2 (v'.add m).2 ∧
      (m.header.height ∈ K ∨ m.header.height < v.currentHeight → (v'.add m).1 = (v.add m).1) := by
  rcases v.add_changes m with ⟨hlt, heq⟩ | ⟨hle, hfst, hc⟩
  · rcases v'.add_changes m with ⟨-, heq'⟩ | ⟨hle', -⟩
    · rw [heq, heq']
      exact ⟨h, fun _ => rfl⟩
    · rw [h.currentHeight] at hle'
      omega
  · rcases v'.add_changes m with ⟨hlt', -⟩ | ⟨-, hfst', hc'⟩
    · rw [h.currentHeight] at hlt'
      omega
    · rw [h.validators] at hfst' hc'
      refine ⟨h.changes hc hc' (h.left.add m trivial) (h.right.add m trivial), fun hk => ?_⟩
      have hdata := h.data m.header.height (hk.resolve_right (by omega)) m.header.round
      rw [hfst', hfst, hdata]

end

section

omit [Hashed V H] [DecidableEq A]

theorem hasFuturePrecommitQuorum_same (h : v.Holds (fun _ => True) vals) (height : ℕ) (round : ℤ)
    (id : Option H) : Same vals K v (v.hasFuturePrecommitQuorum height round id).2 := by
  refine ⟨h, h.hasFuturePrecommitQuorum height round id, ?_, fun k _ r => ?_⟩
  · exact (grows_hasFuturePrecommitQuorum v height round id).currentHeight
  · rcases v.hasFuturePrecommitQuorum_changes height round id with ⟨-, heq⟩ | ⟨-, hc⟩
    · rw [heq]
    · rw [hc.data]
      split <;> rfl

theorem startNewHeight_data (h : v.Holds (fun _ => True) vals) (k : ℕ) (r : ℤ) :
    v.startNewHeight.data k r = if v.currentHeight < k then v.data k r else newRoundData := by
  unfold VoteCounter.data
  rw [startNewHeight_rounds h.future]
  split <;> rfl

theorem Same.startNewHeight (h : Same vals K v v') : Same vals K v.startNewHeight v'.startNewHeight where
  left := h.left.startNewHeight
  right := h.right.startNewHeight
  currentHeight := congrArg (· + 1) h.currentHeight
  data k hk r := by
    rw [startNewHeight_data h.left, startNewHeight_data h.right, h.currentHeight, h.data k hk r]

end

end VoteCounter

/-! ### Machines -/

/-- The answers of the application depend only on the height, the round and the value. -/
structure Application.Fixed (app : Application σ V) : Prop where
  value : ∀ height round a a', (app.value height round a).1 = (app.value height round a').1
  valid : ∀ height round a a' v, (app.valid height round a v).1 = (app.valid height round a' v).1

/-- Two machines in the same state, with the same messages at the heights in `K`. -/
structure Alike (vals : Validators A) (K : Set ℕ) (s s' : StateMachine σ V H A) : Prop where
  counter : VoteCounter.Same vals K s.voteCounter s'.voteCounter
  height : s.voteCounter.currentHeight = s.state.height
  nodeAddr : s'.nodeAddr = s.nodeAddr
  state : s'.state = s.state
  started : s'.isHeightStarted = s.isHeightStarted

/-- Two runs that return the same and leave machines that are alike. -/
structure Both {ρ : Type} (vals : Validators A) (K : Set ℕ) (r r' : ρ × StateMachine σ V H A) : Prop where
  result : r'.1 = r.1
  alike : Alike vals K r.2 r'.2

variable {vals : Validators A} {K : Set ℕ} {s s' : StateMachine σ V H A}

section

omit [Hashed V H] [DecidableEq A]

theorem Alike.refl (h : CounterInv vals s) : Alike vals K s s := ⟨.refl h.holds, h.height, rfl, rfl, rfl⟩

theorem Alike.symm (h : Alike vals K s s') : Alike vals K s' s :=
  ⟨h.counter.symm,
    by rw [h.counter.currentHeight, h.state, h.height], h.nodeAddr.symm, h.state.symm, h.started.symm⟩

theorem Alike.trans {s'' : StateMachine σ V H A} (h : Alike vals K s s') (h' : Alike vals K s' s'') :
    Alike vals K s s'' :=
  ⟨h.counter.trans h'.counter, h.height, h'.nodeAddr.trans h.nodeAddr, h'.state.trans h.state,
    h'.started.trans h.started⟩

theorem Alike.inv (h : Alike vals K s s') : CounterInv vals s := ⟨h.height, h.counter.left⟩

/-- Machines that differ only in the application and in what is remembered of syncs. -/
theorem Alike.of_memory (h : CounterInv vals s) (a : σ) (lastTriggerSync lastQuorum : ℕ) :
    Alike vals K s
      { s with application := a, lastTriggerSync := lastTriggerSync, lastQuorum := lastQuorum } :=
  ⟨.refl h.holds, h.height, rfl, rfl, rfl⟩

end

section

variable (hpos : ∀ height, 1 ≤ q (vals.totalVotingPower height)) (h : Alike vals K s s')
  (hK : s.state.height ∈ K)
include h hK

section

omit [Hashed V H] [DecidableEq A]

theorem Alike.data_eq (r : ℤ) :
    s'.voteCounter.data s'.voteCounter.currentHeight r =
      s.voteCounter.data s.voteCounter.currentHeight r := by
  rw [h.counter.currentHeight]
  exact h.counter.data _ (h.height ▸ hK) r

theorem Alike.getProposal (r : ℤ) : s'.voteCounter.getProposal r = s.voteCounter.getProposal r := by
  rw [VoteCounter.getProposal_eq, VoteCounter.getProposal_eq, h.data_eq hK]

theorem Alike.hasNonFaultyFutureMessage (r : ℤ) :
    s'.voteCounter.hasNonFaultyFutureMessage r = s.voteCounter.hasNonFaultyFutureMessage r := by
  rw [VoteCounter.hasNonFaultyFutureMessage_eq, VoteCounter.hasNonFaultyFutureMessage_eq, h.data_eq hK,
    h.counter.faulty]

end

omit hK [Hashed V H] [DecidableEq A] in
theorem Alike.proposer (r : ℤ) : s'.voteCounter.proposer r = s.voteCounter.proposer r := by
  unfold VoteCounter.proposer
  rw [h.counter.validators, h.counter.currentHeight]

include hpos

omit hK [Hashed V H] [DecidableEq A] in
theorem Alike.quorum_pos : 1 ≤ s.voteCounter.quorumVotingPower := by
  rw [h.counter.left.quorum]
  exact hpos _

section

omit [Hashed V H] [DecidableEq A]

theorem Alike.hasQuorumForVote (r : ℤ) (t : VoteType) (id : Option H) :
    s'.voteCounter.hasQuorumForVote r t id = s.voteCounter.hasQuorumForVote r t id := by
  have hq := h.quorum_pos hpos
  rw [VoteCounter.hasQuorumForVote_eq hq, VoteCounter.hasQuorumForVote_eq (h.counter.quorum ▸ hq),
    h.data_eq hK,
    h.counter.quorum]

theorem Alike.hasQuorumForAny (r : ℤ) (t : VoteType) :
    s'.voteCounter.hasQuorumForAny r t = s.voteCounter.hasQuorumForAny r t := by
  have hq := h.quorum_pos hpos
  rw [VoteCounter.hasQuorumForAny_eq hq, VoteCounter.hasQuorumForAny_eq (h.counter.quorum ▸ hq), h.data_eq hK,
    h.counter.quorum]

end

end

/-! ### Rounds -/

section

variable (h : Alike vals K s s')
include h

section

omit [Hashed V H] [DecidableEq A]

/-- What is left to differ: the messages, the application, and what is remembered of syncs. -/
theorem Alike.exists_eq :
    ∃ voteCounter a lastTriggerSync lastQuorum, s' = { s with
      voteCounter := voteCounter
      application := a
      lastTriggerSync := lastTriggerSync
      lastQuorum := lastQuorum } := by
  refine ⟨s'.voteCounter, s'.application, s'.lastTriggerSync, s'.lastQuorum, ?_⟩
  obtain ⟨nodeAddr, state, voteCounter, application, isHeightStarted, lastTriggerSync, lastQuorum⟩ := s'
  obtain ⟨-, -, hnode, hstate, hstarted⟩ := h
  simp only at hnode hstate hstarted
  subst hnode hstate hstarted
  rfl

theorem Alike.withState (state : State V) (hheight : state.height = s.state.height) (isHeightStarted : Bool) :
    Alike vals K { s with state := state, isHeightStarted := isHeightStarted }
      { s' with state := state, isHeightStarted := isHeightStarted } :=
  ⟨h.counter, h.height.trans hheight.symm, h.nodeAddr, rfl, rfl⟩

end

section

omit [Hashed V H]

theorem Alike.add (m : Message V H A) : Alike vals K { s with voteCounter := (s.voteCounter.add m).2 }
      { s' with voteCounter := (s'.voteCounter.add m).2 } :=
  ⟨(h.counter.add m).1, (VoteCounter.grows_add _ m).currentHeight.trans h.height, h.nodeAddr,
    h.state, h.started⟩

theorem Alike.sendProposal (value : V) : Both vals K (s.sendProposal value) (s'.sendProposal value) := by
  obtain ⟨v, a, l, lq, rfl⟩ := h.exists_eq
  exact ⟨rfl, h.add (.proposal _)⟩

theorem Alike.setStepAndSendPrevote (id : Option H) :
    Both vals K (s.setStepAndSendPrevote id) (s'.setStepAndSendPrevote id) := by
  obtain ⟨v, a, l, lq, rfl⟩ := h.exists_eq
  exact ⟨rfl, (h.withState { s.state with step := .prevote } rfl _).add (.vote _ _)⟩

theorem Alike.setStepAndSendPrecommit (id : Option H) :
    Both vals K (s.setStepAndSendPrecommit id) (s'.setStepAndSendPrecommit id) := by
  obtain ⟨v, a, l, lq, rfl⟩ := h.exists_eq
  exact ⟨rfl, (h.withState { s.state with step := .precommit } rfl _).add (.vote _ _)⟩

end

end

section

variable {app : Application σ V} (hfixed : app.Fixed)
include hfixed

omit [Hashed V H] [DecidableEq A] in
theorem Alike.proposalValue (h : Alike vals K s s') :
    Both vals K (s.proposalValue app) (s'.proposalValue app) := by
  obtain ⟨v, a, l, lq, rfl⟩ := h.exists_eq
  unfold proposalValue
  simp only
  split
  · exact ⟨rfl, h⟩
  · exact ⟨hfixed.value _ _ _ _, h.counter, h.height, rfl, rfl, rfl⟩

omit [Hashed V H] in
theorem Alike.startRound (h : Alike vals K s s') (r : ℤ) :
    Both vals K (s.startRound app r) (s'.startRound app r) := by
  have hproposer := h.proposer r
  obtain ⟨v, a, l, lq, rfl⟩ := h.exists_eq
  have hreset := h.withState (s.state.resetState r) rfl s.isHeightStarted
  unfold startRound
  simp only at hproposer ⊢
  rw [hproposer]
  split
  · obtain ⟨hvalue, hafter⟩ := hreset.proposalValue hfixed
    rw [hvalue]
    exact hafter.sendProposal _
  · exact ⟨rfl, hreset⟩

omit [DecidableEq A] in
theorem Alike.findProposal (h : Alike vals K s s') (hK : s.state.height ∈ K) (r : ℤ) :
    Both vals K (s.findProposal app r) (s'.findProposal app r) := by
  unfold StateMachine.findProposal
  rw [h.getProposal hK]
  cases s.voteCounter.getProposal r with
  | none => exact ⟨rfl, h⟩
  | some p =>
    refine ⟨?_, { h with }⟩
    simp only [hfixed.valid p.height p.round s'.application s.application p.value]

end

/-! ### The rules -/

section

variable (h : Alike vals K s s')
include h

omit [DecidableEq A] in
theorem Alike.isLockedOn (id : H) : s'.isLockedOn id = s.isLockedOn id := by
  unfold StateMachine.isLockedOn
  rw [h.state]

theorem Alike.doFirstProposal (p : CachedProposal V H A) :
    Both vals K (s.doFirstProposal p) (s'.doFirstProposal p) := by
  unfold StateMachine.doFirstProposal
  simp only [h.isLockedOn, h.state]
  exact h.setStepAndSendPrevote _

theorem Alike.doProposalAndPolkaPrevious (p : CachedProposal V H A) :
    Both vals K (s.doProposalAndPolkaPrevious p) (s'.doProposalAndPolkaPrevious p) := by
  unfold StateMachine.doProposalAndPolkaPrevious
  simp only [h.isLockedOn, h.state]
  exact h.setStepAndSendPrevote _

section

omit [Hashed V H] [DecidableEq A]

theorem Alike.doPolkaAny : Both vals K s.doPolkaAny s'.doPolkaAny := by
  obtain ⟨v, a, l, lq, rfl⟩ := h.exists_eq
  exact ⟨rfl, h.counter, h.height, rfl, rfl, rfl⟩

theorem Alike.doPrecommitAny : Both vals K s.doPrecommitAny s'.doPrecommitAny := by
  obtain ⟨v, a, l, lq, rfl⟩ := h.exists_eq
  exact ⟨rfl, h.counter, h.height, rfl, rfl, rfl⟩

end

omit [Hashed V H] in
theorem Alike.doProposalAndPolkaCurrent (p : CachedProposal V H A) :
    Both vals K (s.doProposalAndPolkaCurrent p) (s'.doProposalAndPolkaCurrent p) := by
  obtain ⟨v, a, l, lq, rfl⟩ := h.exists_eq
  unfold doProposalAndPolkaCurrent lockAndPrecommit
  simp only
  split
  · exact ⟨rfl, (h.add (.vote _ _)).counter, (h.add (.vote _ _)).height, rfl, rfl, rfl⟩
  · exact ⟨rfl, h.counter, h.height, rfl, rfl, rfl⟩

omit [Hashed V H] [DecidableEq A] in
theorem Alike.doCommitValue (p : CachedProposal V H A) :
    Both vals K (s.doCommitValue p) (s'.doCommitValue p) := by
  obtain ⟨v, a, l, lq, rfl⟩ := h.exists_eq
  exact ⟨rfl, h.counter.startNewHeight, congrArg (· + 1) h.height, rfl, rfl, rfl⟩

end

/-! ### The loop -/

variable {msg : MessageHeader A} {p : Vote H A}

section

variable {app : Application σ V} (hfixed : app.Fixed) (hpos : ∀ height, 1 ≤ q (vals.totalVotingPower height))
include hfixed hpos

theorem Alike.tryRules (h : Alike vals K s s') (hK : s.state.height ∈ K) (recent : Option ℤ)
    (c rc : Option (CachedProposal V H A)) :
    Both vals K (s.tryRules app recent c rc) (s'.tryRules app recent c rc) := by
  -- the conditions are about the state and the messages of the height
  unfold StateMachine.tryRules StateMachine.ran uponFirstProposal uponProposalAndPolkaPrevious uponPolkaAny
    uponProposalAndPolkaCurrent uponPolkaNil uponPrecommitAny uponCommitValue uponSkipRound
  simp only [h.state, h.hasQuorumForVote hpos hK, h.hasQuorumForAny hpos hK, h.hasNonFaultyFutureMessage hK]
  have hran : ∀ {r r' : Action V H A × StateMachine σ V H A} (b : Bool), Both vals K r r' →
      Both vals K ((some r.1, b), r.2) ((some r'.1, b), r'.2) := fun b hr => ⟨by rw [hr.result], hr.alike⟩
  split
  · exact hran true (h.doFirstProposal _)
  split
  · exact hran true (h.doProposalAndPolkaPrevious _)
  split
  · exact hran true h.doPolkaAny
  split
  next p _ =>
    obtain ⟨hact, hafter⟩ := h.doProposalAndPolkaCurrent p
    exact ⟨by rw [hact], hafter⟩
  split
  · exact hran true (h.setStepAndSendPrecommit _)
  split
  · exact hran true h.doPrecommitAny
  split
  · exact hran false (h.doCommitValue _)
  split
  · exact hran true (h.startRound hfixed _)
  · exact ⟨rfl, h⟩

theorem Alike.process (h : Alike vals K s s') (hK : s.state.height ∈ K) (recent : Option ℤ) :
    Both vals K (s.process app recent) (s'.process app recent) := by
  unfold StateMachine.process
  obtain ⟨hc, h₁⟩ := h.findProposal hfixed hK s.state.round
  obtain ⟨-, a, ha⟩ := findProposal_found app s s.state.round
  have hK₁ : (s.findProposal app s.state.round).2.state.height ∈ K := by rw [ha]; exact hK
  simp only [h.state, hc]
  cases recent with
  | none => exact h₁.tryRules hfixed hpos hK₁ _ _ _
  | some r =>
    obtain ⟨hrc, h₂⟩ := h₁.findProposal hfixed hK₁ r
    obtain ⟨-, b, hb⟩ := findProposal_found app (s.findProposal app s.state.round).2 r
    simp only [findRoundProposal, hrc]
    exact h₂.tryRules hfixed hpos (by rw [hb]; exact hK₁) _ _ _

omit hfixed hpos in
/-- A turn that is followed by another stays in the height. -/
theorem process_height {recent : Option ℤ} (hcont : (s.process app recent).1.2 = true) :
    (s.process app recent).2.state.height = s.state.height := by
  obtain ⟨a, c, rc, -, -, h⟩ := process_fired app s recent
  generalize s.process app recent = turn at h hcont
  cases h with
  | commitValue => cases hcont
  | skipRound r =>
    have hstate := startRound_state app { s with application := a } r
    exact (congrArg State.height hstate).trans rfl
  | _ => rfl

theorem Alike.loop (recent : Option ℤ) (n : ℕ) :
    ∀ {s s' : StateMachine σ V H A}, Alike vals K s s' → s.state.height ∈ K →
      Both vals K (loop app recent n s) (loop app recent n s') := by
  induction n with
  | zero =>
    intro s s' h hK
    obtain ⟨hact, hafter⟩ := h.process hfixed hpos hK recent
    simp only [StateMachine.loop]
    exact ⟨by rw [hact], hafter⟩
  | succ n ih =>
    intro s s' h hK
    obtain ⟨hact, hafter⟩ := h.process hfixed hpos hK recent
    cases hcont : (s.process app recent).1.2 with
    | false =>
      rw [loop_of_stop app _ hcont, loop_of_stop app _ (by rw [hact]; exact hcont)]
      exact ⟨by rw [hact], hafter⟩
    | true =>
      rw [loop_of_continue app _ hcont, loop_of_continue app _ (by rw [hact]; exact hcont)]
      obtain ⟨hacts, hend⟩ := ih hafter (by rw [process_height hcont]; exact hK)
      exact ⟨by rw [hact, hacts], hend⟩

theorem Alike.processLoop (h : Alike vals K s s') (hK : s.state.height ∈ K) (as : List (Action V H A))
    (recent : Option ℤ) : Both vals K (s.processLoop app as recent) (s'.processLoop app as recent) := by
  have hturns : s'.turns recent = s.turns recent := by
    unfold turns
    rw [h.state]
  unfold StateMachine.processLoop
  rw [hturns]
  obtain ⟨hacts, hend⟩ := Alike.loop hfixed hpos recent (s.turns recent) h hK
  exact ⟨by rw [hacts], hend⟩

/-! ### The entries of the log -/

/-- An action that is not about the log or a sync. -/
def Action.isVisible : Action V H A → Bool
  | .writeWAL _ => false
  | .triggerSync _ _ => false
  | _ => true

def visible (as : List (Action V H A)) : List (Action V H A) := as.filter Action.isVisible

theorem Alike.processStart (h : Alike vals K s s') (hK : s.state.height ∈ K) (round : ℤ) :
    Both vals K (s.processStart app round) (s'.processStart app round) := by
  unfold StateMachine.processStart
  rw [h.started]
  split
  · exact ⟨rfl, h⟩
  · have hstarted : Alike vals K { s with isHeightStarted := true } { s' with isHeightStarted := true } :=
      { h with started := rfl }
    obtain ⟨hact, hround⟩ := hstarted.startRound hfixed round
    have hheight := congrArg State.height (startRound_state app { s with isHeightStarted := true } round)
    simp only
    rw [hact]
    obtain ⟨hacts, hend⟩ := hround.processLoop hfixed hpos (by rw [hheight]; exact hK)
      [({ s with isHeightStarted := true }.startRound app round).1] none
    rw [hacts, hend.state]
    exact ⟨rfl, hend⟩

theorem Alike.processMessage (h : Alike vals K s s') (hK : s.state.height ∈ K) (msg : MessageHeader A)
    (e : WALEntry V H A) : Both vals K (s.processMessage app msg e) (s'.processMessage app msg e) := by
  unfold StateMachine.processMessage
  rw [h.state]
  split
  · exact ⟨rfl, h⟩
  · exact h.processLoop hfixed hpos hK _ _

omit hfixed hpos in
theorem processMessage_of_ne (hne : msg.height ≠ s.state.height) (e : WALEntry V H A) :
    s.processMessage app msg e = ([.writeWAL e], s) := if_pos hne

section

variable (h : Alike vals K s s')
include h

/-- A message that both counted: if it is one of the current height, they agree on whether it is new. -/
theorem Alike.counted (hK : s.state.height ∈ K) {isNew isNew' : Bool}
    (hnew : msg.height = s.state.height → isNew' = isNew) (e : WALEntry V H A) :
    visible (if !isNew' || !s'.isHeightStarted then ([], s') else s'.processMessage app msg e).1 =
        visible (if !isNew || !s.isHeightStarted then ([], s) else s.processMessage app msg e).1 ∧
      Alike vals K (if !isNew || !s.isHeightStarted then ([], s) else s.processMessage app msg e).2
        (if !isNew' || !s'.isHeightStarted then ([], s') else s'.processMessage app msg e).2 := by
  by_cases hheight : msg.height = s.state.height
  · rw [hnew hheight, h.started]
    split
    · exact ⟨rfl, h⟩
    · obtain ⟨hacts, hend⟩ := h.processMessage hfixed hpos hK msg e
      exact ⟨by rw [hacts], hend⟩
  · rw [processMessage_of_ne hheight, processMessage_of_ne (by rw [h.state]; exact hheight)]
    split <;> split <;> exact ⟨rfl, h⟩

theorem Alike.processProposal (hK : s.state.height ∈ K) (p : Proposal V A) :
    visible (s'.processProposal app p).1 = visible (s.processProposal app p).1 ∧
      Alike vals K (s.processProposal app p).2 (s'.processProposal app p).2 :=
  (h.add (.proposal p)).counted hfixed hpos hK
    (fun hheight => (h.counter.add (.proposal p)).2 (.inl (hheight ▸ hK))) _

theorem Alike.processPrevote (hK : s.state.height ∈ K) (p : Vote H A) :
    visible (s'.processPrevote app p).1 = visible (s.processPrevote app p).1 ∧
      Alike vals K (s.processPrevote app p).2 (s'.processPrevote app p).2 :=
  (h.add (.vote .prevote p)).counted hfixed hpos hK
    (fun hheight => (h.counter.add (.vote .prevote p)).2 (.inl (hheight ▸ hK))) _

end

omit hfixed hpos in
/-- A precommit that is not of a later height is a message like the others. -/
theorem processPrecommit_of_le (hle : p.height ≤ s.state.height) : s.processPrecommit app p =
      if !(s.voteCounter.addVote p .precommit).1 || !s.isHeightStarted
      then ([], { s with voteCounter := (s.voteCounter.addVote p .precommit).2 })
      else { s with voteCounter := (s.voteCounter.addVote p .precommit).2 }.processMessage app
        p.toMessageHeader
        (.precommit p) := by
  have hquorum : ∀ s : StateMachine σ V H A, p.height ≤ s.state.height →
      s.hasFuturePrecommitQuorum p = (false, s) :=
    fun s hle => if_neg fun hc => absurd hc.2.1 (by omega)
  unfold processPrecommit VoteCounter.addPrecommit
  simp only [hquorum { s with voteCounter := (s.voteCounter.addVote p .precommit).2 } hle]
  rfl

omit hfixed hpos in
/-- A precommit of a later height is counted, and logged if it does not start a sync. -/
theorem processPrecommit_of_lt (app : Application σ V) (hinv : CounterInv vals s)
    (hlt : s.state.height < p.height) : visible (s.processPrecommit app p).1 = [] ∧
      Alike vals K { s with voteCounter := (s.voteCounter.addVote p .precommit).2 }
        (s.processPrecommit app p).2 := by
  have hadded : CounterInv vals { s with voteCounter := (s.voteCounter.addVote p .precommit).2 } :=
    hinv.add (.vote .precommit p) rfl rfl
  have hlooked : Alike vals K { s with voteCounter := (s.voteCounter.addVote p .precommit).2 }
      ({ s with voteCounter := (s.voteCounter.addVote p .precommit).2 }.hasFuturePrecommitQuorum p).2 := by
    unfold hasFuturePrecommitQuorum
    split
    · exact ⟨VoteCounter.hasFuturePrecommitQuorum_same hadded.holds _ _ _, hadded.height, rfl, rfl, rfl⟩
    · exact .refl hadded
  unfold processPrecommit VoteCounter.addPrecommit
  simp only
  split
  · exact ⟨rfl, .refl hadded⟩
  split
  · exact ⟨rfl, { hlooked with }⟩
  · rw [processMessage_of_ne (by rw [hlooked.state]; exact hlt.ne')]
    exact ⟨rfl, hlooked⟩

theorem Alike.processPrecommit (h : Alike vals K s s') (hK : s.state.height ∈ K) (p : Vote H A) :
    visible (s'.processPrecommit app p).1 = visible (s.processPrecommit app p).1 ∧
      Alike vals K (s.processPrecommit app p).2 (s'.processPrecommit app p).2 := by
  by_cases hle : p.height ≤ s.state.height
  · rw [processPrecommit_of_le hle, processPrecommit_of_le (by rw [h.state]; exact hle)]
    refine (h.add (.vote .precommit p)).counted hfixed hpos hK (fun hheight => ?_) _
    exact (h.counter.add (.vote .precommit p)).2 (.inl (hheight ▸ hK))
  · have hlt : s.state.height < p.height := not_le.mp hle
    obtain ⟨hacts, hend⟩ := processPrecommit_of_lt (K := K) app h.inv hlt
    obtain ⟨hacts', hend'⟩ := processPrecommit_of_lt (K := K) app h.symm.inv (by rw [h.state]; exact hlt)
    exact ⟨hacts'.trans hacts.symm, (hend.symm.trans (h.add (.vote .precommit p))).trans hend'⟩

theorem Alike.processTimeout (h : Alike vals K s s') (hK : s.state.height ∈ K) (tm : Timeout) :
    Both vals K (s.processTimeout app tm) (s'.processTimeout app tm) := by
  have hsame : s'.isSameHeightAndRound tm = s.isSameHeightAndRound tm := by
    unfold isSameHeightAndRound
    rw [h.state]
  unfold StateMachine.processTimeout onTimeout
  cases tm.step with
  | propose =>
    simp only [onTimeoutPropose, hsame, h.state]
    split
    · obtain ⟨hact, hafter⟩ := h.setStepAndSendPrevote none
      rw [hact]
      exact hafter.processLoop hfixed hpos hK _ _
    · exact h.processLoop hfixed hpos hK _ _
  | prevote =>
    simp only [onTimeoutPrevote, hsame, h.state]
    split
    · obtain ⟨hact, hafter⟩ := h.setStepAndSendPrecommit none
      rw [hact]
      exact hafter.processLoop hfixed hpos hK _ _
    · exact h.processLoop hfixed hpos hK _ _
  | precommit =>
    simp only [onTimeoutPrecommit, hsame]
    split
    · obtain ⟨hact, hafter⟩ := h.startRound hfixed (nextRound tm.round)
      rw [hact]
      refine hafter.processLoop hfixed hpos ?_ _ _
      rw [startRound_state]
      exact hK
    · exact h.processLoop hfixed hpos hK _ _

/-- **Machines that are alike treat an entry of the log alike.** -/
theorem Alike.processWAL (h : Alike vals K s s') (hK : s.state.height ∈ K) (e : WALEntry V H A) :
    visible (s'.processWAL app e).1 = visible (s.processWAL app e).1 ∧
      Alike vals K (s.processWAL app e).2 (s'.processWAL app e).2 := by
  cases e with
  | start height =>
    obtain ⟨hacts, hend⟩ := h.processStart hfixed hpos hK 0
    exact ⟨congrArg visible hacts, hend⟩
  | proposal p => exact h.processProposal hfixed hpos hK p
  | prevote p => exact h.processPrevote hfixed hpos hK p
  | precommit p => exact h.processPrecommit hfixed hpos hK p
  | timeout tm =>
    obtain ⟨hacts, hend⟩ := h.processTimeout hfixed hpos hK tm
    exact ⟨congrArg visible hacts, hend⟩

end

end Juno.Tendermint
