import Juno.Tendermint.VoteCounter

/-!
# The Tendermint state machine

`consensus/tendermint`: one validator. Every `Process…` call takes an input (a start, a
message, a timeout), changes the machine and returns the actions the driver has to carry
out. After the input is taken the rules of the algorithm are tried in a loop until none
of them applies.

## The model

`StateMachine` is the Go struct and every function on it is a function that returns the changed machine. The
application is stateful: `Value` and `Valid` may answer differently each time they are called, also by the
height and round of the machine. `process` is one turn of the loop; `processLoop` repeats it as often as
`turns` allows, and `processLoop_eq` says that this is the loop of the source, which runs until `process` says
stop: `turns` is a bound that every turn lowers.
-/

namespace Juno.Tendermint

/-- `types.Hashable`: the identifier of a value. -/
class Hashed (V : Type) (H : outParam Type) where
  hash : V → H

/-- `Application`, over the states it can be in. The source passes no height and round; an application knows
of them from elsewhere. -/
structure Application (σ V : Type) where
  /-- `Value`: a value to propose, at a height and a round. -/
  value : ℕ → ℤ → σ → V × σ
  /-- `Valid`: of a value that was proposed at a height and a round. -/
  valid : ℕ → ℤ → σ → V → Bool × σ

structure Timeout where
  step : Step
  height : ℕ
  round : ℤ
  deriving DecidableEq, Repr

inductive WALEntry (V H A : Type) where
  | start (height : ℕ)
  | proposal (p : Proposal V A)
  | prevote (p : Vote H A)
  | precommit (p : Vote H A)
  | timeout (tm : Timeout)
  deriving DecidableEq, Repr

inductive Action (V H A : Type) where
  | writeWAL (entry : WALEntry V H A)
  | broadcastProposal (p : Proposal V A)
  | broadcastPrevote (p : Vote H A)
  | broadcastPrecommit (p : Vote H A)
  | scheduleTimeout (tm : Timeout)
  | commit (p : Proposal V A)
  | triggerSync (first last : ℕ)
  deriving DecidableEq, Repr

structure State (V : Type) where
  height : ℕ
  round : ℤ
  step : Step
  lockedValue : Option V
  lockedRound : ℤ
  validValue : Option V
  validRound : ℤ
  /-- `timeoutPrevoteScheduled`: line 34 ran in this round. -/
  timeoutPrevoteScheduled : Bool
  /-- `timeoutPrecommitScheduled`: line 47 ran in this round. -/
  timeoutPrecommitScheduled : Bool
  /-- `lockedValueAndOrValidValueSet`: line 36 ran in this round. -/
  lockedValueAndOrValidValueSet : Bool
  deriving DecidableEq, Repr

structure StateMachine (σ V H A : Type) where
  nodeAddr : A
  state : State V
  voteCounter : VoteCounter V H A
  application : σ
  isHeightStarted : Bool
  lastTriggerSync : ℕ
  lastQuorum : ℕ

/-- `CachedProposal`. The identifier is always there. -/
structure CachedProposal (V H A : Type) extends Proposal V A where
  valid : Bool
  id : H

def new {σ V H A : Type} (nodeAddr : A) (app : σ) (vals : Validators A) (height : ℕ) :
    StateMachine σ V H A where
  nodeAddr := nodeAddr
  state :=
    { height := height
      round := 0
      step := .propose
      lockedValue := none
      lockedRound := -1
      validValue := none
      validRound := -1
      timeoutPrevoteScheduled := false
      timeoutPrecommitScheduled := false
      lockedValueAndOrValidValueSet := false }
  voteCounter := VoteCounter.new vals height
  application := app
  isHeightStarted := false
  lastTriggerSync := 0
  lastQuorum := 0

/-- `timeout.Round + 1` on the 64-bit integers that rounds are. -/
def nextRound (round : ℤ) : ℤ := (round + 1 + 2 ^ 63) % 2 ^ 64 - 2 ^ 63

def State.resetState {V : Type} (s : State V) (round : ℤ) : State V :=
  { s with
    round := round
    step := .propose
    timeoutPrevoteScheduled := false
    lockedValueAndOrValidValueSet := false
    timeoutPrecommitScheduled := false }

namespace StateMachine

variable {σ V H A : Type} [Hashed V H] [DecidableEq H] [DecidableEq A] (app : Application σ V)
  (s : StateMachine σ V H A)

/-! ### Sending -/

/-- The header of the machine's own messages. -/
def header : MessageHeader A := ⟨s.state.height, s.state.round, s.nodeAddr⟩

def sendProposal (value : V) : Action V H A × StateMachine σ V H A :=
  let proposalMessage : Proposal V A := ⟨s.header, s.state.validRound, value⟩
  (.broadcastProposal proposalMessage,
    { s with voteCounter := (s.voteCounter.addProposal proposalMessage).2 })

def setStepAndSendPrevote (id : Option H) : Action V H A × StateMachine σ V H A :=
  let vote : Vote H A := ⟨s.header, id⟩
  (.broadcastPrevote vote,
    { s with
      voteCounter := (s.voteCounter.addPrevote vote).2
      state := { s.state with step := .prevote } })

def setStepAndSendPrecommit (id : Option H) : Action V H A × StateMachine σ V H A :=
  let vote : Vote H A := ⟨s.header, id⟩
  (.broadcastPrecommit vote,
    { s with
      voteCounter := (s.voteCounter.addPrecommit vote).2
      state := { s.state with step := .precommit } })

def scheduleTimeout (step : Step) : Action V H A :=
  .scheduleTimeout ⟨step, s.state.height, s.state.round⟩

/-- The value a proposer proposes: the valid value if there is one, else a new one. -/
def proposalValue : V × StateMachine σ V H A :=
  match s.state.validValue with
  | some value => (value, s)
  | none =>
    ((app.value s.state.height s.state.round s.application).1,
      { s with application := (app.value s.state.height s.state.round s.application).2 })

def startRound (r : ℤ) : Action V H A × StateMachine σ V H A :=
  let s := { s with state := s.state.resetState r }
  if s.voteCounter.proposer r = s.nodeAddr then
    (s.proposalValue app).2.sendProposal (s.proposalValue app).1
  else (s.scheduleTimeout .propose, s)

def findProposal (r : ℤ) : Option (CachedProposal V H A) × StateMachine σ V H A :=
  match s.voteCounter.getProposal r with
  | none => (none, s)
  | some proposal =>
    (some ⟨proposal, (app.valid proposal.height proposal.round s.application proposal.value).1,
        Hashed.hash proposal.value⟩,
      { s with application := (app.valid proposal.height proposal.round s.application proposal.value).2 })

/-! ### The rules -/

variable (cachedProposal : CachedProposal V H A)

/-- `uponFirstProposal`: line 22. -/
def uponFirstProposal : Bool :=
  cachedProposal.validRound = -1 ∧ s.state.step = .propose

def isLockedOn (id : H) : Bool := s.state.lockedValue.any fun v => Hashed.hash v = id

def doFirstProposal : Action V H A × StateMachine σ V H A :=
  let shouldVoteForValue := cachedProposal.valid ∧ (s.state.lockedRound = -1 ∨ s.isLockedOn cachedProposal.id)
  s.setStepAndSendPrevote (if shouldVoteForValue then some cachedProposal.id else none)

/-- `uponProposalAndPolkaPrevious`: line 28. -/
def uponProposalAndPolkaPrevious : Bool :=
  let vr := cachedProposal.validRound
  s.voteCounter.hasQuorumForVote vr .prevote (some cachedProposal.id) ∧ s.state.step = .propose ∧ vr ≥ 0 ∧
    vr < s.state.round

def doProposalAndPolkaPrevious : Action V H A × StateMachine σ V H A :=
  let shouldVoteForValue :=
    cachedProposal.valid ∧ (s.state.lockedRound ≤ cachedProposal.validRound ∨ s.isLockedOn cachedProposal.id)
  s.setStepAndSendPrevote (if shouldVoteForValue then some cachedProposal.id else none)

/-- `uponPolkaAny`: line 34. -/
def uponPolkaAny : Bool :=
  s.state.step = .prevote ∧ s.voteCounter.hasQuorumForAny s.state.round .prevote ∧
    !s.state.timeoutPrevoteScheduled

def doPolkaAny : Action V H A × StateMachine σ V H A :=
  (s.scheduleTimeout .prevote, { s with state := { s.state with timeoutPrevoteScheduled := true } })

/-- `uponProposalAndPolkaCurrent`: line 36. -/
def uponProposalAndPolkaCurrent : Bool :=
  s.voteCounter.hasQuorumForVote s.state.round .prevote (some cachedProposal.id) ∧ cachedProposal.valid ∧
    s.state.step ≠ .propose ∧ !s.state.lockedValueAndOrValidValueSet

/-- The first half of `doProposalAndPolkaCurrent`: a machine that has not precommitted in the round locks the
value. -/
def lockAndPrecommit : Option (Action V H A) × StateMachine σ V H A :=
  if s.state.step = .prevote then
    let s := { s with
      state := { s.state with
        lockedValue := some cachedProposal.value
        lockedRound := s.state.round } }
    (some (s.setStepAndSendPrecommit (some cachedProposal.id)).1,
      (s.setStepAndSendPrecommit (some cachedProposal.id)).2)
  else (none, s)

def doProposalAndPolkaCurrent : Option (Action V H A) × StateMachine σ V H A :=
  let (action, s) := s.lockAndPrecommit cachedProposal
  (action,
    { s with
      state := { s.state with
        validValue := some cachedProposal.value
        validRound := s.state.round
        lockedValueAndOrValidValueSet := true } })

/-- `uponPolkaNil`: line 44. -/
def uponPolkaNil : Bool :=
  s.voteCounter.hasQuorumForVote s.state.round .prevote none ∧ s.state.step = .prevote

def doPolkaNil : Action V H A × StateMachine σ V H A := s.setStepAndSendPrecommit none

/-- `uponPrecommitAny`: line 47. -/
def uponPrecommitAny : Bool :=
  s.voteCounter.hasQuorumForAny s.state.round .precommit ∧ !s.state.timeoutPrecommitScheduled

def doPrecommitAny : Action V H A × StateMachine σ V H A :=
  (s.scheduleTimeout .precommit, { s with state := { s.state with timeoutPrecommitScheduled := true } })

/-- `uponCommitValue`: line 49. -/
def uponCommitValue : Bool :=
  s.voteCounter.hasQuorumForVote cachedProposal.round .precommit (some cachedProposal.id) ∧
    cachedProposal.valid

/-- `doCommitValue`: the next height, which has to be started. -/
def doCommitValue : Action V H A × StateMachine σ V H A :=
  let state := { s.state with
    height := s.state.height + 1
    lockedRound := -1
    lockedValue := none
    validRound := -1
    validValue := none }
  (.commit cachedProposal.toProposal,
    { s with
      voteCounter := s.voteCounter.startNewHeight
      state := state.resetState 0
      isHeightStarted := false })

/-- `uponSkipRound`: line 55. -/
def uponSkipRound (futureR : ℤ) : Bool :=
  futureR > s.state.round ∧ s.voteCounter.hasNonFaultyFutureMessage futureR

def doSkipRound (futureR : ℤ) : Action V H A × StateMachine σ V H A := s.startRound app futureR

/-! ### The loop -/

/-- What a turn of the loop did: its action, and whether there is another turn. -/
abbrev Turn (σ V H A : Type) := (Option (Action V H A) × Bool) × StateMachine σ V H A

def ran (r : Action V H A × StateMachine σ V H A) (shouldContinue : Bool) : Turn σ V H A :=
  ((some r.1, shouldContinue), r.2)

variable (recentlyReceivedRound : Option ℤ)

/-- The rules in the order they are tried, with the proposals of the current round and of the round looked at
for a commit. -/
def tryRules (cachedProposal roundCachedProposal : Option (CachedProposal V H A)) : Turn σ V H A :=
  match cachedProposal.filter s.uponFirstProposal with
  | some p => ran (s.doFirstProposal p) true
  | none =>
  match cachedProposal.filter s.uponProposalAndPolkaPrevious with
  | some p => ran (s.doProposalAndPolkaPrevious p) true
  | none =>
  if s.uponPolkaAny then ran s.doPolkaAny true
  else
  match cachedProposal.filter s.uponProposalAndPolkaCurrent with
  | some p => (((s.doProposalAndPolkaCurrent p).1, true), (s.doProposalAndPolkaCurrent p).2)
  | none =>
  if s.uponPolkaNil then ran s.doPolkaNil true
  else if s.uponPrecommitAny then ran s.doPrecommitAny true
  else
  match roundCachedProposal.filter s.uponCommitValue with
  | some p => ran (s.doCommitValue p) false
  | none =>
  match recentlyReceivedRound.filter s.uponSkipRound with
  | some r => ran (s.doSkipRound app r) true
  | none => ((none, false), s)

/-- The proposal that is looked at for a commit. -/
def findRoundProposal (cachedProposal : Option (CachedProposal V H A)) :
    Option (CachedProposal V H A) × StateMachine σ V H A :=
  match recentlyReceivedRound with
  | none => (cachedProposal, s)
  | some r => s.findProposal app r

/-- `process`: one turn of the loop. -/
def process : Turn σ V H A :=
  let (cachedProposal, s) := s.findProposal app s.state.round
  let (roundCachedProposal, s) := s.findRoundProposal app recentlyReceivedRound cachedProposal
  s.tryRules app recentlyReceivedRound cachedProposal roundCachedProposal

/-- A number every turn lowers that is followed by another one. -/
def turns : ℕ :=
  (if recentlyReceivedRound.any (· > s.state.round) then 6 else 0) + (2 - s.state.step.toNat) +
    (!s.state.timeoutPrevoteScheduled).toNat + (!s.state.timeoutPrecommitScheduled).toNat +
    (!s.state.lockedValueAndOrValidValueSet).toNat

/-- At most `n + 1` turns of the loop. -/
def loop (recentlyReceivedRound : Option ℤ) :
    ℕ → StateMachine σ V H A → List (Action V H A) × StateMachine σ V H A
  | 0, s => ((s.process app recentlyReceivedRound).1.1.toList, (s.process app recentlyReceivedRound).2)
  | n + 1, s =>
    let ((action, shouldContinue), s) := s.process app recentlyReceivedRound
    if shouldContinue then
      (action.toList ++ (loop recentlyReceivedRound n s).1, (loop recentlyReceivedRound n s).2)
    else (action.toList, s)

def processLoop (resultActions : List (Action V H A)) (recentlyReceivedRound : Option ℤ) :
    List (Action V H A) × StateMachine σ V H A :=
  (resultActions ++ (loop app recentlyReceivedRound (s.turns recentlyReceivedRound) s).1,
    (loop app recentlyReceivedRound (s.turns recentlyReceivedRound) s).2)

/-! ### The inputs -/

/-- `ProcessStart`. The entry of the log is a pointer to the machine's height: it is written after the loop,
so it has the height the loop ended in. -/
def processStart (round : ℤ) : List (Action V H A) × StateMachine σ V H A :=
  if s.isHeightStarted then ([], s)
  else
    let (action, s) := { s with isHeightStarted := true }.startRound app round
    let (actions, s) := s.processLoop app [action] none
    (.writeWAL (.start s.state.height) :: actions, s)

/-- `processMessage`: the message is logged, and the rules are tried if it is one of the current height. -/
def processMessage (msg : MessageHeader A) (walEntry : WALEntry V H A) :
    List (Action V H A) × StateMachine σ V H A :=
  if msg.height ≠ s.state.height then ([.writeWAL walEntry], s)
  else s.processLoop app [.writeWAL walEntry] (some msg.round)

def processProposal (p : Proposal V A) : List (Action V H A) × StateMachine σ V H A :=
  let (isNew, voteCounter) := s.voteCounter.addProposal p
  let s := { s with voteCounter := voteCounter }
  if !isNew || !s.isHeightStarted then ([], s) else s.processMessage app p.toMessageHeader (.proposal p)

def processPrevote (p : Vote H A) : List (Action V H A) × StateMachine σ V H A :=
  let (isNew, voteCounter) := s.voteCounter.addPrevote p
  let s := { s with voteCounter := voteCounter }
  if !isNew || !s.isHeightStarted then ([], s) else s.processMessage app p.toMessageHeader (.prevote p)

def hasFuturePrecommitQuorum (p : Vote H A) : Bool × StateMachine σ V H A :=
  if p.id.isSome ∧ p.height > s.state.height ∧ p.height > s.lastTriggerSync then
    ((s.voteCounter.hasFuturePrecommitQuorum p.height p.round p.id).1,
      { s with voteCounter := (s.voteCounter.hasFuturePrecommitQuorum p.height p.round p.id).2 })
  else (false, s)

def triggerSync (p : Vote H A) : List (Action V H A) × StateMachine σ V H A :=
  let lastQuorum := max s.lastQuorum p.height
  ([.triggerSync (max (s.lastTriggerSync + 1) s.state.height) lastQuorum],
    { s with lastQuorum := lastQuorum, lastTriggerSync := lastQuorum })

/-- `ProcessPrecommit`: a precommit that shows a later height to be decided starts a sync, and is not
logged. -/
def processPrecommit (p : Vote H A) : List (Action V H A) × StateMachine σ V H A :=
  let (isNew, voteCounter) := s.voteCounter.addPrecommit p
  let s := { s with voteCounter := voteCounter }
  if !isNew || !s.isHeightStarted then ([], s)
  else
    let (isFuture, s) := s.hasFuturePrecommitQuorum p
    if isFuture then s.triggerSync p else s.processMessage app p.toMessageHeader (.precommit p)

/-- The precommits of a synced block, one after the other. -/
def processPrecommits (s : StateMachine σ V H A) :
    List (Vote H A) → List (Action V H A) × StateMachine σ V H A
  | [] => ([], s)
  | p :: ps =>
    let (actions, s) := s.processPrecommit app p
    (actions ++ (processPrecommits s ps).1, (processPrecommits s ps).2)

def processSync (proposal : Proposal V A) (precommits : List (Vote H A)) :
    List (Action V H A) × StateMachine σ V H A :=
  let (actions, s) := s.processProposal app proposal
  (actions ++ (s.processPrecommits app precommits).1, (s.processPrecommits app precommits).2)

variable (timeout : Timeout)

def isSameHeightAndRound : Bool :=
  s.state.height = timeout.height ∧ s.state.round = timeout.round

def onTimeoutPropose : List (Action V H A) × StateMachine σ V H A :=
  if s.isSameHeightAndRound timeout ∧ s.state.step = .propose then
    ([.writeWAL (.timeout timeout), (s.setStepAndSendPrevote none).1], (s.setStepAndSendPrevote none).2)
  else ([], s)

def onTimeoutPrevote : List (Action V H A) × StateMachine σ V H A :=
  if s.isSameHeightAndRound timeout ∧ s.state.step = .prevote then
    ([.writeWAL (.timeout timeout), (s.setStepAndSendPrecommit none).1], (s.setStepAndSendPrecommit none).2)
  else ([], s)

def onTimeoutPrecommit : List (Action V H A) × StateMachine σ V H A :=
  if s.isSameHeightAndRound timeout then
    ([.writeWAL (.timeout timeout), (s.startRound app (nextRound timeout.round)).1],
      (s.startRound app (nextRound timeout.round)).2)
  else ([], s)

/-- The switch of `ProcessTimeout`. -/
def onTimeout (tm : Timeout) : List (Action V H A) × StateMachine σ V H A :=
  match tm.step with
  | .propose => s.onTimeoutPropose tm
  | .prevote => s.onTimeoutPrevote tm
  | .precommit => s.onTimeoutPrecommit app tm

/-- `ProcessTimeout`. The rules are tried also when the timeout is an old one, and when the height was not
started. -/
def processTimeout (tm : Timeout) : List (Action V H A) × StateMachine σ V H A :=
  let (actions, s) := s.onTimeout app tm
  s.processLoop app actions none

def processWAL : WALEntry V H A → List (Action V H A) × StateMachine σ V H A
  | .start _ => s.processStart app 0
  | .proposal p => s.processProposal app p
  | .prevote p => s.processPrevote app p
  | .precommit p => s.processPrecommit app p
  | .timeout tm => s.processTimeout app tm

end StateMachine

inductive Call (V H A : Type) where
  /-- `ProcessStart`. -/
  | start (round : ℤ)
  /-- `ProcessProposal`. -/
  | proposal (p : Proposal V A)
  /-- `ProcessPrevote`. -/
  | prevote (p : Vote H A)
  /-- `ProcessPrecommit`. -/
  | precommit (p : Vote H A)
  /-- `ProcessSync`. -/
  | sync (p : Proposal V A) (precommits : List (Vote H A))
  /-- `ProcessTimeout`. -/
  | timeout (tm : Timeout)
  /-- `ProcessWAL`. -/
  | wal (entry : WALEntry V H A)
  deriving DecidableEq, Repr

variable {σ V H A : Type} [Hashed V H] [DecidableEq H] [DecidableEq A] (app : Application σ V)

def StateMachine.call (s : StateMachine σ V H A) : Call V H A → List (Action V H A) × StateMachine σ V H A
  | .start round => s.processStart app round
  | .proposal p => s.processProposal app p
  | .prevote p => s.processPrevote app p
  | .precommit p => s.processPrecommit app p
  | .sync p precommits => s.processSync app p precommits
  | .timeout tm => s.processTimeout app tm
  | .wal entry => s.processWAL app entry

end Juno.Tendermint
