import Mathlib

/-!
# The vote counter

`consensus/votecounter`: what a validator holds of the messages it received. For every
height and round there is the first proposal of the round's proposer, and for every value
identifier the validators that voted for it, with their voting power summed up as they
are added. Messages of later heights are kept until their height starts.

## The model

The Go maps are functions to `Option`. A pointer to a round's data, which the source
changes in place, is a function on the data (`withRound`). The voting power of a
validator that voted is added once for each set it is in, so the sums stay below the
total and are natural numbers; the thresholds `f` and `q` are computed as the source
does, in 64 bits.
-/

namespace Juno.Tendermint

open Function

inductive Step where
  /-- `StepPropose`. -/
  | propose
  /-- `StepPrevote`. -/
  | prevote
  /-- `StepPrecommit`. -/
  | precommit
  deriving DecidableEq, Repr

/-- A step as the number it is in the source. -/
def Step.toNat : Step → ℕ
  | propose => 0
  | prevote => 1
  | precommit => 2

structure MessageHeader (A : Type) where
  height : ℕ
  round : ℤ
  sender : A
  deriving DecidableEq, Repr

structure Proposal (V A : Type) extends MessageHeader A where
  validRound : ℤ
  value : V
  deriving DecidableEq, Repr

/-- `Vote`: a `Prevote` or a `Precommit`; no identifier is a vote for nil. -/
structure Vote (H A : Type) extends MessageHeader A where
  id : Option H
  deriving DecidableEq, Repr

inductive VoteType where
  | prevote
  | precommit
  deriving DecidableEq, Repr

structure Validators (A : Type) where
  totalVotingPower : ℕ → ℕ
  validatorVotingPower : ℕ → A → ℕ
  proposer : ℕ → ℤ → A

/-! ### Ballots -/

/-- `ballotSet`: who cast which kind of vote. -/
structure BallotSet (A : Type) where
  ballots : A → Option (VoteType → Bool)
  /-- `perVoteType`: the power behind each kind of vote. -/
  perVoteType : VoteType → ℕ
  /-- `total`: the power of all that voted. -/
  total : ℕ

def newBallotSet {A : Type} : BallotSet A := ⟨fun _ => none, fun _ => 0, 0⟩

section

variable {V H A : Type} [DecidableEq A] (b : BallotSet A)

def BallotSet.enter (addr : A) (addrPower : ℕ) : BallotSet A :=
  match b.ballots addr with
  | none => { b with ballots := update b.ballots addr (some fun _ => false), total := b.total + addrPower }
  | some _ => b

/-- Whether a validator cast a vote of the kind. -/
def BallotSet.voted (voteType : VoteType) (addr : A) : Bool :=
  match b.ballots addr with
  | none => false
  | some ballot => ballot voteType

/-- `ballotSet.add`: false if the vote was counted before. -/
def BallotSet.add (addr : A) (addrPower : ℕ) (voteType : VoteType) : Bool × BallotSet A :=
  let b := b.enter addr addrPower
  if b.voted voteType addr then (false, b)
  else
    (true, { b with
      ballots := update b.ballots addr
        (some (update ((b.ballots addr).getD fun _ => false) voteType true))
      perVoteType := update b.perVoteType voteType (b.perVoteType voteType + addrPower) })

/-! ### Rounds -/

structure RoundData (V H A : Type) where
  /-- `proposal`: the first one of the round. -/
  proposal : Option (Proposal V A)
  /-- `uncountedProposerPower`: the power of a proposer that has not voted. -/
  uncountedProposerPower : ℕ
  perIDVotes : H → Option (BallotSet A)
  nilVotes : BallotSet A
  allVotes : BallotSet A

def newRoundData : RoundData V H A := ⟨none, 0, fun _ => none, newBallotSet, newBallotSet⟩

variable (r : RoundData V H A)

/-- `roundData.setProposal`: false if there is a proposal. -/
def RoundData.setProposal (proposal : Proposal V A) (votingPower : ℕ) : Bool × RoundData V H A :=
  match r.proposal with
  | some _ => (false, r)
  | none =>
    let proposerNotVoted :=
      !r.allVotes.voted .prevote proposal.sender && !r.allVotes.voted .precommit proposal.sender
    (true, { r with
      proposal := some proposal
      uncountedProposerPower := if proposerNotVoted then votingPower else r.uncountedProposerPower })

/-- The votes for an identifier, or for nil; none if nobody voted for it. -/
def RoundData.votesFor [DecidableEq H] (id : Option H) : Option (BallotSet A) :=
  match id with
  | some id => r.perIDVotes id
  | none => some r.nilVotes

/-- Put back the votes for an identifier, or for nil. -/
def RoundData.setVotesFor [DecidableEq H] (id : Option H) (votes : BallotSet A) : RoundData V H A :=
  match id with
  | some id => { r with perIDVotes := update r.perIDVotes id (some votes) }
  | none => { r with nilVotes := votes }

/-- `roundData.addVote`: false if the same vote was counted before. -/
def RoundData.addVote [DecidableEq H] (vote : Vote H A) (votingPower : ℕ) (voteType : VoteType) :
    Bool × RoundData V H A :=
  let perVote := (r.votesFor vote.id).getD newBallotSet
  let proposerVotes := r.uncountedProposerPower > 0 ∧ r.proposal.any (fun p => p.sender = vote.sender) = true
  let r := { r with
    uncountedProposerPower := if proposerVotes then 0 else r.uncountedProposerPower
    allVotes := (r.allVotes.add vote.sender votingPower voteType).2 }
  ((perVote.add vote.sender votingPower voteType).1,
    r.setVotesFor vote.id (perVote.add vote.sender votingPower voteType).2)

def RoundData.countVote [DecidableEq H] (voteType : VoteType) (id : Option H) : ℕ :=
  match r.votesFor id with
  | none => 0
  | some perVote => perVote.perVoteType voteType

def RoundData.countAny (voteType : VoteType) : ℕ := r.allVotes.perVoteType voteType

def RoundData.countFutureMessageSenders : ℕ := r.allVotes.total + r.uncountedProposerPower

/-! ### The counter -/

abbrev RoundMap (V H A : Type) := ℤ → Option (RoundData V H A)

/-- `f`: the power of faulty validators that is tolerated. -/
def f (totalVotingPower : ℕ) : ℕ := (totalVotingPower + 2 ^ 64 - 1) % 2 ^ 64 / 3

/-- `q`: the power of a quorum. -/
def q (totalVotingPower : ℕ) : ℕ :=
  let d := totalVotingPower * 2 % 2 ^ 64
  if d % 3 > 0 then d / 3 + 1 else d / 3

structure VoteCounter (V H A : Type) where
  validators : Validators A
  currentHeight : ℕ
  totalVotingPower : ℕ
  faultyVotingPower : ℕ
  quorumVotingPower : ℕ
  /-- `roundData`: the rounds of the current height. -/
  roundData : RoundMap V H A
  /-- `futureMessages`: the rounds of later heights. -/
  futureMessages : ℕ → Option (RoundMap V H A)

namespace VoteCounter

def new (validators : Validators A) (height : ℕ) : VoteCounter V H A :=
  ⟨validators, height, validators.totalVotingPower height, f (validators.totalVotingPower height),
    q (validators.totalVotingPower height), fun _ => none, fun _ => none⟩

variable (v : VoteCounter V H A)

def startNewHeight : VoteCounter V H A :=
  let currentHeight := v.currentHeight + 1
  let totalVotingPower := v.validators.totalVotingPower currentHeight
  { v with
    currentHeight := currentHeight
    totalVotingPower := totalVotingPower
    faultyVotingPower := f totalVotingPower
    quorumVotingPower := q totalVotingPower
    roundData := (v.futureMessages currentHeight).getD fun _ => none
    futureMessages := update v.futureMessages currentHeight none }

variable (height : ℕ)

def rounds : RoundMap V H A :=
  if height = v.currentHeight then v.roundData else (v.futureMessages height).getD fun _ => none

def setRounds (rounds : RoundMap V H A) : VoteCounter V H A :=
  if height = v.currentHeight then { v with roundData := rounds }
  else { v with futureMessages := update v.futureMessages height (some rounds) }

/-- `getRoundData`, and what is done with it: the data of a round is made if there is none, and changed in
place. None if the height has passed. -/
def withRound {β : Type} (round : ℤ) (change : RoundData V H A → β × RoundData V H A) :
    Option (β × VoteCounter V H A) :=
  if height < v.currentHeight then none
  else
    let (b, data) := change ((v.rounds height round).getD newRoundData)
    some (b, v.setRounds height (update (v.rounds height) round (some data)))

/-- The result of a change to a round: false if the height has passed. -/
def added (r : Option (Bool × VoteCounter V H A)) : Bool × VoteCounter V H A := r.getD (false, v)

/-- `AddProposal`: only the proposal of the round's proposer counts. -/
def addProposal (proposal : Proposal V A) : Bool × VoteCounter V H A :=
  v.added <| v.withRound proposal.height proposal.round fun data =>
    if proposal.sender ≠ v.validators.proposer proposal.height proposal.round then (false, data)
    else data.setProposal proposal (v.validators.validatorVotingPower proposal.height proposal.sender)

variable [DecidableEq H] (v : VoteCounter V H A)

/-- `AddPrevote` and `AddPrecommit`. -/
def addVote (vote : Vote H A) (voteType : VoteType) : Bool × VoteCounter V H A :=
  v.added <| v.withRound vote.height vote.round fun data =>
    data.addVote vote (v.validators.validatorVotingPower vote.height vote.sender) voteType

def addPrevote (prevote : Vote H A) : Bool × VoteCounter V H A := v.addVote prevote .prevote

def addPrecommit (precommit : Vote H A) : Bool × VoteCounter V H A := v.addVote precommit .precommit

variable (round : ℤ)

def getProposal : Option (Proposal V A) := (v.roundData round).bind (·.proposal)

def hasQuorumForVote (voteType : VoteType) (id : Option H) : Bool :=
  match v.roundData round with
  | none => false
  | some data => data.countVote voteType id ≥ v.quorumVotingPower

def hasQuorumForAny (voteType : VoteType) : Bool :=
  match v.roundData round with
  | none => false
  | some data => data.countAny voteType ≥ v.quorumVotingPower

/-- `HasFuturePrecommitQuorum`: the votes of another height, against the quorum of the current one. -/
def hasFuturePrecommitQuorum (height : ℕ) (round : ℤ) (id : Option H) : Bool × VoteCounter V H A :=
  v.added <| v.withRound height round fun data => (data.countVote .precommit id ≥ v.quorumVotingPower, data)

def hasNonFaultyFutureMessage : Bool :=
  match v.roundData round with
  | none => false
  | some data => data.countFutureMessageSenders > v.faultyVotingPower

def proposer (round : ℤ) : A := v.validators.proposer v.currentHeight round

end VoteCounter

end

end Juno.Tendermint
