import Juno.Tendermint.Moves

/-!
# What a machine does within a height

The properties of one validator over every run of proper calls: it votes at most once per
round and step, its rounds increase, its lock is backed by the votes it holds, and it commits
only what a quorum precommitted.

## The model

Every message a machine sends, and every round it starts to wait in, leaves a `Mark`: the
height, the round and the step it belongs to. That the marks of a run are strictly increasing
says all of "at most one", "rounds increase" and "no prevote after the precommit" at once.

The main result is `calls_inv`.
-/

namespace Juno.Tendermint

open List StateMachine VoteCounter

/-! ### Marks -/

/-- A place in the course of a machine. -/
structure Mark where
  height : ℕ
  round : ℤ
  step : Step
  deriving DecidableEq

/-- The order in which a machine goes through its heights, rounds and steps. -/
def Mark.Before (m m' : Mark) : Prop :=
  m.height < m'.height ∨ (m.height = m'.height ∧
    (m.round < m'.round ∨ (m.round = m'.round ∧ m.step.toNat < m'.step.toNat)))

variable {σ V H A : Type} [Hashed V H] [DecidableEq H] [DecidableEq A]

/-- The mark an action leaves: a message belongs to its step, and so does the timeout that is scheduled when a
round is entered in which another validator proposes. -/
def Action.mark : Action V H A → Option Mark
  | .broadcastProposal p => some ⟨p.height, p.round, .propose⟩
  | .scheduleTimeout ⟨.propose, height, round⟩ => some ⟨height, round, .propose⟩
  | .broadcastPrevote p => some ⟨p.height, p.round, .prevote⟩
  | .broadcastPrecommit p => some ⟨p.height, p.round, .precommit⟩
  | _ => none

def marks (as : List (Action V H A)) : List Mark := as.filterMap Action.mark

/-- The machine has come as far as the mark. -/
def StateMachine.Reached (s : StateMachine σ V H A) (m : Mark) : Prop :=
  m.height < s.state.height ∨ (s.isHeightStarted = true ∧ m.height = s.state.height ∧
    (m.round < s.state.round ∨ (m.round = s.state.round ∧ m.step.toNat ≤ s.state.step.toNat)))

variable {received : Message V H A → Prop} {s s' : StateMachine σ V H A} {as hist : List (Action V H A)}
  {m : Mark} {r : ℤ}

section

omit [Hashed V H] [DecidableEq H] [DecidableEq A]

theorem StateMachine.CanEnter.before (hr : s.CanEnter r) (hm : s.Reached m) :
    m.Before ⟨s.state.height, r, .propose⟩ := by
  rcases hm with hlt | ⟨hs, hh, hle⟩
  · exact .inl hlt
  · rcases hr with ⟨hns, -⟩ | ⟨-, hr⟩
    · rw [hs] at hns
      cases hns
    · refine .inr ⟨hh, .inl ?_⟩
      simp only
      omega

theorem StateMachine.CanEnter.reached (hr : s.CanEnter r) (hm : s.Reached m)
    (hstarted : s'.isHeightStarted = true) (hstate : s'.state = s.state.resetState r) : s'.Reached m := by
  rcases hr.before hm with hlt | ⟨hh, hlt | ⟨-, hlt⟩⟩
  · exact .inl (by rw [hstate]; exact hlt)
  · exact .inr ⟨hstarted, by rw [hstate]; exact hh, .inl (by rw [hstate]; exact hlt)⟩
  · exact absurd hlt (Nat.not_lt_zero _)

/-- A vote of the next step is after everything that was reached. -/
theorem StateMachine.Reached.before_of_step (hm : s.Reached m) {step : Step}
    (hstep : s.state.step.toNat < step.toNat) : m.Before ⟨s.state.height, s.state.round, step⟩ := by
  rcases hm with hlt | ⟨-, hh, hle⟩
  · exact .inl hlt
  · refine .inr ⟨hh, ?_⟩
    simp only
    omega

theorem StateMachine.Reached.of_step (hm : s.Reached m) (hs : s'.isHeightStarted = s.isHeightStarted)
    (hheight : s'.state.height = s.state.height) (hround : s'.state.round = s.state.round)
    (hstep : s.state.step.toNat ≤ s'.state.step.toNat) : s'.Reached m := by
  unfold Reached at hm ⊢
  rw [hs, hheight, hround]
  refine hm.imp_right (And.imp_right (And.imp_right (Or.imp_right (And.imp_right ?_))))
  intro h
  omega

end

/-- **A move leaves at most one mark, after everything that was reached.** -/
theorem Move.mark (h : Move received s as s') :
    (∀ m, s.Reached m → s'.Reached m) ∧
      (marks as = [] ∨ ∃ m, marks as = [m] ∧ (∀ m', s.Reached m' → m'.Before m) ∧ s'.Reached m) := by
  cases h with
  | enterPropose r hr | enterWait r hr =>
    exact ⟨fun m hm => hr.reached hm rfl rfl,
      .inr ⟨⟨s.state.height, r, .propose⟩, rfl, fun m hm => hr.before hm,
      .inr ⟨rfl, rfl, .inr ⟨rfl, le_rfl⟩⟩⟩⟩
  | schedule step hstep prevote precommit =>
    refine ⟨fun m hm => hm, .inl ?_⟩
    cases step with
    | propose => exact absurd rfl hstep
    | prevote => rfl
    | precommit => rfl
  | prevote hs hstep | lock hs hstep | precommitNil hs hstep =>
    refine ⟨fun m hm => hm.of_step rfl rfl rfl ?_, .inr ⟨_, rfl, ?_, ?_⟩⟩
    · simp [hstep, setStepAndSendPrecommit, Step.toNat]
    · exact fun m hm => hm.before_of_step (by simp [hstep, Step.toNat])
    · exact .inr ⟨hs, rfl, .inr ⟨rfl, le_rfl⟩⟩
  | setValid hs hstep p hp => exact ⟨fun m hm => hm, .inl rfl⟩
  | commit hs r c hp hq =>
    refine ⟨fun m hm => .inl ?_, .inl rfl⟩
    have hle : m.height ≤ s.state.height := by
      rcases hm with hlt | ⟨-, hh, -⟩ <;> omega
    exact Nat.lt_succ_of_le hle
  | _ => exact ⟨fun m hm => hm, .inl rfl⟩

omit [Hashed V H] [DecidableEq H] [DecidableEq A] in
theorem marks_append (as bs : List (Action V H A)) : marks (as ++ bs) = marks as ++ marks bs :=
  filterMap_append

/-! ### Locks -/

structure LockInv (s : StateMachine σ V H A) : Prop where
  height : s.voteCounter.currentHeight = s.state.height
  round : 0 ≤ s.state.round
  locked_le : s.state.lockedRound ≤ s.state.validRound
  valid_le : s.state.validRound ≤ s.state.round
  locked_lt : s.state.step ≠ .precommit → s.state.lockedRound < s.state.round
  fresh : s.isHeightStarted = false → s.state.validRound = -1
  /-- A locked value is the one a quorum prevoted in the locked round. -/
  locked : ∀ v, s.state.lockedValue = some v →
    0 ≤ s.state.lockedRound ∧ ∃ p, s.Backed s.state.lockedRound .prevote p ∧ p.value = v

omit [DecidableEq A] in
theorem lockInv_new (nodeAddr : A) (app : σ) (vals : Validators A) (height : ℕ) :
    LockInv (new nodeAddr app vals height : StateMachine σ V H A) := by
  constructor <;> simp [new, VoteCounter.new]

variable {p : Proposal V A}

section

omit [DecidableEq A]

theorem StateMachine.Backed.grows {t : VoteType} (h : s.Backed r t p)
    (hg : s.voteCounter.Grows s'.voteCounter) : s'.Backed r t p :=
  ⟨hg.getProposal h.1, hg.hasQuorumForVote h.2⟩

/-- What the invariant says about the locked value stays true when the counter grows. -/
theorem LockInv.locked_grows (h : LockInv s) (hg : s.voteCounter.Grows s'.voteCounter) :
    ∀ v, s.state.lockedValue = some v →
      0 ≤ s.state.lockedRound ∧ ∃ p, s'.Backed s.state.lockedRound .prevote p ∧ p.value = v := by
  intro v hv
  obtain ⟨h0, p, hp, hpv⟩ := h.locked v hv
  exact ⟨h0, p, hp.grows hg, hpv⟩

theorem LockInv.of_grows (h : LockInv s) (hg : s.voteCounter.Grows s'.voteCounter)
    (hstate : s'.state = s.state) (hs : s'.isHeightStarted = s.isHeightStarted) :
    LockInv s' where
  height := by rw [hg.currentHeight, hstate, h.height]
  round := hstate ▸ h.round
  locked_le := hstate ▸ h.locked_le
  valid_le := hstate ▸ h.valid_le
  locked_lt := hstate ▸ h.locked_lt
  fresh hns := hstate ▸ h.fresh (hs ▸ hns)
  locked := hstate ▸ h.locked_grows hg

theorem LockInv.enter (h : LockInv s) (hr : s.CanEnter r) (hg : s.voteCounter.Grows s'.voteCounter)
    (hstate : s'.state = s.state.resetState r) (hs : s'.isHeightStarted = true) : LockInv s' := by
  have hvalid := h.valid_le
  have hlocked := h.locked_le
  have hround := h.round
  have hlt : 0 ≤ r ∧ s.state.validRound < r := by
    rcases hr with ⟨hns, h0⟩ | ⟨-, hlt⟩
    · have := h.fresh hns
      omega
    · omega
  constructor
  case height => rw [hg.currentHeight, hstate, h.height]; rfl
  case round => rw [hstate]; exact hlt.1
  case locked_le => rw [hstate]; exact h.locked_le
  case valid_le => rw [hstate]; exact hlt.2.le
  case locked_lt =>
    intro _
    rw [hstate]
    exact h.locked_le.trans_lt hlt.2
  case fresh => intro hns; rw [hs] at hns; cases hns
  case locked => rw [hstate]; exact h.locked_grows hg

end

theorem LockInv.move (h : LockInv s) (hm : Move received s as s') : LockInv s' := by
  cases hm with
  | consult | sync => exact h.of_grows (.refl _) rfl rfl
  | log e => exact h
  | proposal p hp => exact h.of_grows (grows_add _ (.proposal p)) rfl rfl
  | vote t v hv => exact h.of_grows (grows_add _ (.vote t v)) rfl rfl
  | look height round id => exact h.of_grows (grows_hasFuturePrecommitQuorum _ height round id) rfl rfl
  | enterPropose r hr value => exact h.enter hr (grows_add _ (.proposal _)) rfl rfl
  | enterWait r hr => exact h.enter hr (.refl _) rfl rfl
  | schedule step hstep prevote precommit =>
    exact { h with }
  | prevote hs hstep id hid =>
    have hg := grows_add s.voteCounter (.vote .prevote ⟨s.header, id⟩)
    have hlt := h.locked_lt (by simp [hstep])
    exact { h with
      height := hg.currentHeight.trans h.height, locked_lt := fun _ => hlt, locked := h.locked_grows hg }
  | precommitNil hs hstep =>
    have hg := grows_add s.voteCounter (.vote .precommit ⟨s.header, none⟩)
    exact { h with
      height := hg.currentHeight.trans h.height, locked_lt := fun hne => absurd rfl hne, locked :=
        h.locked_grows hg }
  | lock hs hstep p hp =>
    have hg := grows_add s.voteCounter (.vote .precommit ⟨s.header, some (Hashed.hash p.value)⟩)
    refine ⟨hg.currentHeight.trans h.height, h.round, le_rfl, le_rfl, fun hne => absurd rfl hne, ?_, ?_⟩
    · intro hns
      rw [show s.isHeightStarted = false from hns] at hs
      cases hs
    · intro v hv
      cases hv
      exact ⟨h.round, p, hp.grows hg, rfl⟩
  | setValid hs hstep p hp =>
    refine ⟨h.height, h.round, h.locked_le.trans h.valid_le, le_rfl, h.locked_lt, ?_, h.locked⟩
    intro hns
    rw [show s.isHeightStarted = false from hns] at hs
    cases hs
  | commit hs r c hp hq =>
    refine ⟨?_, le_rfl, le_rfl, (by decide : (-1 : ℤ) ≤ 0), fun _ => (by decide : (-1 : ℤ) < 0),
      fun _ => rfl, ?_⟩
    · exact congrArg (· + 1) h.height
    · intro v hv
      cases hv

/-! ### Messages -/

def Sent (hist : List (Action V H A)) : Message V H A → Prop
  | .proposal p => .broadcastProposal p ∈ hist
  | .vote .prevote v => .broadcastPrevote v ∈ hist
  | .vote .precommit v => .broadcastPrecommit v ∈ hist

def Known (received : Message V H A → Prop) (hist : List (Action V H A)) (m : Message V H A) : Prop :=
  received m ∨ Sent hist m

section

omit [Hashed V H] [DecidableEq H] [DecidableEq A]

theorem Sent.append {m : Message V H A} (h : Sent hist m) (as : List (Action V H A)) :
    Sent (hist ++ as) m := by
  cases m with
  | proposal p => exact mem_append_left as h
  | vote t v => cases t <;> exact mem_append_left as h

theorem Sent.append_right {m : Message V H A} (h : Sent as m) (hist : List (Action V H A)) :
    Sent (hist ++ as) m := by
  cases m with
  | proposal p => exact mem_append_right hist h
  | vote t v => cases t <;> exact mem_append_right hist h

theorem Known.append {m : Message V H A} (h : Known received hist m) (as : List (Action V H A)) :
    Known received (hist ++ as) m :=
  h.imp_right (·.append as)

end

variable {vals : Validators A}

theorem holds_move (hm : Move received s as s') (h : s.voteCounter.Holds (Known received hist) vals) :
    s'.voteCounter.Holds (Known received (hist ++ as)) vals := by
  have h' := h.mono fun m hm => Known.append hm as
  have own : ∀ {m : Message V H A}, Sent as m → Known received (hist ++ as) m :=
    fun hs => .inr (hs.append_right hist)
  cases hm with
  | proposal p hp => exact h'.add (.proposal p) (.inl hp)
  | vote t v hv => exact h'.add (.vote t v) (.inl hv)
  | look height round id => exact h'.hasFuturePrecommitQuorum height round id
  | enterPropose r hr value => exact h'.add (.proposal _) (own (by simp [Sent]))
  | prevote hs hstep id hid => exact h'.add (.vote _ _) (own (by simp [Sent, setStepAndSendPrevote]))
  | precommitNil hs hstep => exact h'.add (.vote _ _) (own (by simp [Sent, setStepAndSendPrecommit]))
  | lock hs hstep p hp => exact h'.add (.vote _ _) (own (by simp [Sent]))
  | commit hs r c hp hq => exact h'.startNewHeight
  | _ => exact h'

/-- A value was decided: the proposer proposed it, and a quorum precommitted it in the same round. -/
def Decided (known : Message V H A → Prop) (vals : Validators A) (p : Proposal V A) : Prop :=
  known (.proposal p) ∧ p.sender = vals.proposer p.height p.round ∧
    VoteCounter.IsQuorum known vals p.height p.round .precommit (some (Hashed.hash p.value))

structure Inv (received : Message V H A → Prop) (vals : Validators A) (hist : List (Action V H A))
    (s : StateMachine σ V H A) : Prop where
  lock : LockInv s
  holds : s.voteCounter.Holds (Known received hist) vals
  ordered : (marks hist).Pairwise Mark.Before
  reached : ∀ m ∈ marks hist, s.Reached m
  decided : ∀ p, .commit p ∈ hist → p.height < s.state.height ∧ Decided (Known received hist) vals p

omit [DecidableEq A] in
theorem inv_new (received : Message V H A → Prop) (nodeAddr : A) (app : σ) (vals : Validators A)
    (height : ℕ) :
    Inv received vals [] (new nodeAddr app vals height : StateMachine σ V H A) where
  lock := lockInv_new nodeAddr app vals height
  holds := holds_new _ vals height
  ordered := .nil
  reached := by simp [marks]
  decided := by simp

theorem Move.height_le (h : Move received s as s') : s.state.height ≤ s'.state.height := by
  cases h with
  | commit => exact Nat.le_succ _
  | _ => exact le_rfl

theorem Move.decided (h : Move received s as s') (hinv : Inv received vals hist s)
    (hp : .commit p ∈ as) : p.height < s'.state.height ∧ Decided (Known received hist) vals p := by
  cases h with
  | commit hs r c hget hq =>
    rw [mem_singleton, doCommitValue, Action.commit.injEq] at hp
    subst hp
    obtain ⟨hknown, hheader⟩ := hinv.holds.proposal hget
    have hquorum := hinv.holds.isQuorum hq
    rw [hinv.lock.height] at hheader hquorum
    have hheight : c.height = s.state.height := congrArg MessageHeader.height hheader
    refine ⟨?_, hknown, ?_, ?_⟩
    · rw [hheight]
      exact Nat.lt_succ_self _
    · rw [hheader]
    · rw [hheight]
      exact hquorum
  | schedule step => simp [scheduleTimeout] at hp
  | prevote => simp [setStepAndSendPrevote] at hp
  | precommitNil => simp [setStepAndSendPrecommit] at hp
  | _ => simp at hp

omit [DecidableEq H] [DecidableEq A] in
theorem Decided.append (h : Decided (Known received hist) vals p) (as : List (Action V H A)) :
    Decided (Known received (hist ++ as)) vals p :=
  ⟨h.1.append as, h.2.1, h.2.2.mono fun _ hm => hm.append as⟩

theorem Inv.move (hinv : Inv received vals hist s) (h : Move received s as s') :
    Inv received vals (hist ++ as) s' := by
  obtain ⟨hkeep, hmark⟩ := h.mark
  constructor
  case lock => exact hinv.lock.move h
  case holds => exact holds_move h hinv.holds
  case ordered =>
    rw [marks_append]
    rcases hmark with hnil | ⟨m, hm, hbefore, -⟩
    · rw [hnil, append_nil]
      exact hinv.ordered
    · rw [hm, pairwise_append]
      refine ⟨hinv.ordered, pairwise_singleton _ _, ?_⟩
      intro m' hm' m'' hm''
      rw [mem_singleton] at hm''
      subst hm''
      exact hbefore m' (hinv.reached m' hm')
  case reached =>
    intro m hm
    rw [marks_append, mem_append] at hm
    rcases hm with hm | hm
    · exact hkeep m (hinv.reached m hm)
    · rcases hmark with hnil | ⟨m', hm', -, hreached⟩
      · rw [hnil] at hm
        cases hm
      · rw [hm', mem_singleton] at hm
        subst hm
        exact hreached
  case decided =>
    intro p hp
    rcases mem_append.mp hp with hp | hp
    · obtain ⟨hlt, hdec⟩ := hinv.decided p hp
      exact ⟨hlt.trans_le h.height_le, hdec.append as⟩
    · obtain ⟨hlt, hdec⟩ := h.decided hinv hp
      exact ⟨hlt, hdec.append as⟩

theorem Inv.moves (hinv : Inv received vals hist s) (h : Moves received s as s') :
    Inv received vals (hist ++ as) s' :=
  h.preserves (fun hm hi => hi.move hm) hinv

/-! ### Runs of calls -/

variable (app : Application σ V)

/-- A run of calls: all the actions, and the machine after them. -/
def StateMachine.calls (s : StateMachine σ V H A) :
    List (Call V H A) → List (Action V H A) × StateMachine σ V H A
  | [] => ([], s)
  | c :: cs => ((s.call app c).1 ++ ((s.call app c).2.calls cs).1, ((s.call app c).2.calls cs).2)

def StateMachine.ProperRun (s : StateMachine σ V H A) : List (Call V H A) → Prop
  | [] => True
  | c :: cs => s.Proper app c ∧ (s.call app c).2.ProperRun cs

theorem Inv.calls {cs : List (Call V H A)} (hinv : Inv received vals hist s) (hproper : s.ProperRun app cs)
    (hreceived : ∀ c ∈ cs, ∀ m ∈ c.messages, received m) :
    Inv received vals (hist ++ (s.calls app cs).1) (s.calls app cs).2 := by
  induction cs generalizing s hist with
  | nil => simpa [calls] using hinv
  | cons c cs ih =>
    have hmoves := call_moves app hproper.1 (fun _ => hinv.lock.round) (hreceived c (by simp))
    have key := ih (hinv.moves hmoves) hproper.2 fun c' hc' => hreceived c' (by simp [hc'])
    rwa [append_assoc] at key

def Brought (cs : List (Call V H A)) (m : Message V H A) : Prop := ∃ c ∈ cs, m ∈ c.messages

/-- The invariant of a machine that was just made, after a run of proper calls. -/
theorem calls_inv (nodeAddr : A) (a : σ) (vals : Validators A) (height : ℕ) (cs : List (Call V H A))
    (hproper : (new nodeAddr a vals height : StateMachine σ V H A).ProperRun app cs) :
    Inv (Brought cs) vals ((new nodeAddr a vals height : StateMachine σ V H A).calls app cs).1
      ((new nodeAddr a vals height : StateMachine σ V H A).calls app cs).2 :=
  (inv_new (Brought cs) nodeAddr a vals height).calls app hproper fun c hc _ hm => ⟨c, hc, hm⟩

/-- **One validator over every run of proper calls.** The marks of its actions are strictly increasing, so it
sends at most one proposal, one prevote and one precommit per round, in this order, and its rounds increase;
the lock is not later than the valid value, nor that than the round; a locked value is that of the stored
proposal of the locked round, with a quorum of prevotes in that round; and a value is committed only if its
proposer proposed it and a quorum precommitted it in the same round of the height. -/
theorem calls_vote_in_order (nodeAddr : A) (a : σ) (vals : Validators A) (height : ℕ) (cs : List (Call V H A))
    (hproper : (new nodeAddr a vals height : StateMachine σ V H A).ProperRun app cs)
    {actions : List (Action V H A)} {s : StateMachine σ V H A}
    (hrun : (new nodeAddr a vals height : StateMachine σ V H A).calls app cs = (actions, s)) :
    (marks actions).Pairwise Mark.Before ∧
      s.state.lockedRound ≤ s.state.validRound ∧ s.state.validRound ≤ s.state.round ∧
      (∀ v, s.state.lockedValue = some v → ∃ p, s.Backed s.state.lockedRound .prevote p ∧ p.value = v ∧
        p.height = s.state.height ∧ p.round = s.state.lockedRound) ∧
      ∀ p, .commit p ∈ actions → Decided (Known (Brought cs) actions) vals p := by
  have hinv := calls_inv app nodeAddr a vals height cs hproper
  rw [hrun] at hinv
  refine ⟨hinv.ordered, hinv.lock.locked_le, hinv.lock.valid_le, ?_, fun p hp => (hinv.decided p hp).2⟩
  intro v hv
  obtain ⟨-, p, hp, hpv⟩ := hinv.lock.locked v hv
  have hheader := (hinv.holds.proposal hp.1).2
  rw [hinv.lock.height] at hheader
  exact ⟨p, hp, hpv, congrArg MessageHeader.height hheader, congrArg MessageHeader.round hheader⟩

/-! ### Four validators -/

structure Block where
  hash : ℕ
  deriving DecidableEq, Repr

instance : Hashed Block ℕ := ⟨Block.hash⟩

/-- The names of four validators. -/
inductive Member where
  | v0
  | v1
  | v2
  | v3
  deriving DecidableEq, Repr

def Member.inTurn (n : ℕ) : Member :=
  if n % 4 = 0 then .v0 else if n % 4 = 1 then .v1 else if n % 4 = 2 then .v2 else .v3

def fourValidators : Validators Member where
  totalVotingPower _ := 4
  validatorVotingPower _ _ := 1
  proposer height round := Member.inTurn (height + round.toNat)

/-- An application that always proposes the block `0` and accepts everything. -/
def anyBlock : Application Unit Block := ⟨fun _ _ _ => (⟨0⟩, ()), fun _ _ _ _ => (true, ())⟩

def validator (a : Member) : StateMachine Unit Block ℕ Member := new a () fourValidators 1

/-- The proposal of the block 7 by the proposer of round 0 at height 1. -/
def firstProposal : Proposal Block Member := ⟨⟨1, 0, .v1⟩, -1, ⟨7⟩⟩

theorem calls_vote_in_order_first :
    (validator .v0).ProperRun anyBlock [.start 0, .proposal firstProposal] ∧
      (marks ((validator .v0).calls anyBlock [.start 0, .proposal firstProposal]).1).Pairwise Mark.Before :=
  have hproper : (validator .v0).ProperRun anyBlock [.start 0, .proposal firstProposal] :=
    ⟨fun _ => le_rfl, trivial, trivial⟩
  ⟨hproper, (calls_vote_in_order anyBlock Member.v0 () fourValidators 1 _ hproper rfl).1⟩

/-- A timeout that reaches the machine before the height is started makes it prevote; the start then puts it
back to the beginning of the round, where it prevotes again. -/
theorem timeout_before_start_prevotes_twice :
    Action.broadcastPrevote ⟨⟨1, 0, .v0⟩, none⟩ ∈
        ((validator .v0).calls anyBlock [.timeout ⟨.propose, 1, 0⟩, .start 0, .proposal firstProposal]).1 ∧
      Action.broadcastPrevote ⟨⟨1, 0, .v0⟩, some 7⟩ ∈ ((validator .v0).calls anyBlock
        [.timeout ⟨.propose, 1, 0⟩, .start 0, .proposal firstProposal]).1 := by
  decide +kernel

end Juno.Tendermint
