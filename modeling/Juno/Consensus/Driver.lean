import Juno.Tendermint.Recovery
import Juno.Walstore.Run

/-!
# The driver of the consensus

`consensus/driver`: the loop around one validator. It replays the log of the inputs, starts the
height, and then takes one input after the other; what the state machine answers is executed:
entries go to the log, the log is flushed before a message is sent, and a committed block is
handed on before the log of its height is pruned.

## The model

The process may crash between any two effects. So `execute` gives a list of steps (`Micro`), of
which one is carried out at a time, and `Driver` holds those that are left. `phase` is the place
in `Run`. What comes from outside is an `Event`: inputs in any order, the faults of the file system,
what becomes of a committed block, crashes and new starts. A flush that fails and leaves its batch
in the log ends `Run`, and to the next start it is one that succeeded before a crash: the faults
here are those without it. Timers and block fetches are not modelled: any timeout and any synced block
may come at any time.

Three fields are history: the messages sent in all the life of the validator, and the machines as
they were after the last input that was logged, and after the last one that was flushed.
-/

namespace Juno.Consensus

open Juno.Tendermint StateMachine Walstore WALEntry

variable {σ V H A : Type}

/-! ### The steps of `execute` -/

inductive Micro (σ V H A : Type) where
  /-- `db.SetWALEntry`, with the machine after the input of the entry. -/
  | setWALEntry (entry : WALEntry V H A) (after : StateMachine σ V H A)
  | flush
  | broadcast (action : Action V H A)
  | onCommit (p : Proposal V A)
  | deleteWALEntries (height : ℕ)
  /-- `execute` returns true. -/
  | committed

def requiresWALFlush : Action V H A → Bool
  | .broadcastProposal _ => true
  | .broadcastPrevote _ => true
  | .broadcastPrecommit _ => true
  | .commit _ => true
  | _ => false

def commit (p : Proposal V A) : List (Micro σ V H A) :=
  [.onCommit p, .deleteWALEntries p.height, .flush, .committed]

/-- `execute`. A commit is the last action that is executed. -/
def execute (isReplaying : Bool) : List (Action V H A × StateMachine σ V H A) → List (Micro σ V H A)
  | [] => []
  | (action, after) :: rest =>
    (if !isReplaying && requiresWALFlush action then [.flush] else []) ++
      match action with
      | .writeWAL entry =>
        (if isReplaying then [] else [.setWALEntry entry after]) ++ execute isReplaying rest
      | .broadcastProposal _ => .broadcast action :: execute isReplaying rest
      | .broadcastPrevote _ => .broadcast action :: execute isReplaying rest
      | .broadcastPrecommit _ => .broadcast action :: execute isReplaying rest
      | .scheduleTimeout _ => execute isReplaying rest
      | .commit p => commit p
      | .triggerSync _ _ => execute isReplaying rest

/-! ### Inputs -/

section

variable [Hashed V H]

/-- `Extract`: the messages that stand for a synced block. The round is one in which its sequencer
proposes. -/
def extract (height : ℕ) (round : ℤ) (sequencer syncProtocolPrecommitSender : A) (value : V) :
    Proposal V A × List (Vote H A) :=
  (⟨⟨height, round, sequencer⟩, -1, value⟩,
    [⟨⟨height, round, syncProtocolPrecommitSender⟩, some (Hashed.hash value)⟩])

/-- What the inner loop of `listen` takes. -/
inductive Input (V H A : Type) where
  | timeout (tm : Timeout)
  | proposal (p : Proposal V A)
  | prevote (p : Vote H A)
  | precommit (p : Vote H A)
  | sync (height : ℕ) (round : ℤ) (sequencer syncProtocolPrecommitSender : A) (value : V)

def Input.call : Input V H A → Call V H A
  | .timeout tm => .timeout tm
  | .proposal p => .proposal p
  | .prevote p => .prevote p
  | .precommit p => .precommit p
  | .sync height round sequencer sender value =>
    .sync (extract height round sequencer sender value).1 (extract height round sequencer sender value).2

/-- The messages of an input, as entries of the log. -/
def Input.entries : Input V H A → List (WALEntry V H A)
  | .timeout tm => [.timeout tm]
  | .proposal p => [.proposal p]
  | .prevote p => [.prevote p]
  | .precommit p => [.precommit p]
  | .sync height round sequencer sender value =>
    .proposal (extract height round sequencer sender value).1 ::
      (extract height round sequencer sender value).2.map .precommit

variable [DecidableEq H] [DecidableEq A] (app : Application σ V)

/-- Messages one after the other: the actions, each with the machine after its message, and the machine after
all. -/
def feed (s : StateMachine σ V H A) :
    List (WALEntry V H A) → List (Action V H A × StateMachine σ V H A) × StateMachine σ V H A
  | [] => ([], s)
  | e :: es =>
    (((s.processWAL app e).1.map fun a => (a, (s.processWAL app e).2)) ++ (feed (s.processWAL app e).2 es).1,
      (feed (s.processWAL app e).2 es).2)

theorem feed_call (s : StateMachine σ V H A) (i : Input V H A) :
    ((feed app s i.entries).1.map Prod.fst, (feed app s i.entries).2) = s.call app i.call := by
  cases i <;> simp [feed, Input.entries, Input.call, extract, call, processSync,
    processPrecommits, processWAL, Function.comp_def]

end

/-! ### The driver -/

/-- The place in `Run`. -/
inductive Phase (V H A : Type) where
  /-- In the loop of `replay`, with the entries that are left. -/
  | replaying (rest : List (WALEntry V H A))
  /-- At the top of the outer loop of `listen`. -/
  | starting
  /-- In the inner loop of `listen`. -/
  | listening
  | stopped
  deriving DecidableEq

structure Driver (σ V H A : Type) where
  stateMachine : StateMachine σ V H A
  db : System (WALEntry V H A)
  /-- The place in `Run`. -/
  phase : Phase V H A
  actions : List (Action V H A)
  /-- What is left of `execute`. -/
  todo : List (Micro σ V H A)
  /-- The height of the last block that was committed to the chain. -/
  head : ℕ
  /-- The messages that were ever sent. -/
  sent : List (Action V H A)
  /-- The machine after the last input that was logged. -/
  logged : StateMachine σ V H A
  /-- The machine after the last input that was logged and flushed. -/
  settled : StateMachine σ V H A

inductive CommitResult where
  /-- `OnCommit` returns true: the block is on the chain. -/
  | done
  /-- `OnCommit` returns false. The block may be on the chain. -/
  | failed (persisted : Bool)
  deriving DecidableEq, Repr

inductive Event (σ V H A : Type) where
  /-- The process starts, with an application in some state. -/
  | start (application : σ)
  /-- The next turn of `replay`, or of the outer loop of `listen`. -/
  | next
  | input (i : Input V H A)
  | syncFailed
  /-- The next step of `execute`. If it fails, `Run` returns, and `Close` has its own faults. -/
  | exec (faults closing : CleanFaults) (result : CommitResult)
  | stop (closing : CleanFaults)
  | crash (torn : Bool)

namespace Driver

/-- Nothing ran yet. The chain has the blocks up to `head`. -/
def init (nodeAddr : A) (a : σ) (vals : Validators A) (head : ℕ) : Driver σ V H A where
  stateMachine := new nodeAddr a vals (head + 1)
  db := .init
  phase := .stopped
  actions := []
  todo := []
  head := head
  sent := []
  logged := new nodeAddr a vals (head + 1)
  settled := new nodeAddr a vals (head + 1)

variable (d : Driver σ V H A)

/-- The store after a call that may have flushed. -/
def written (db : System (WALEntry V H A)) : Driver σ V H A :=
  { d with db := db, settled := if db.pending.isEmpty then d.logged else d.settled }

/-- `Run` returns: the store is closed. -/
def stop (closing : CleanFaults) : Driver σ V H A :=
  { d.written (d.db.step height (.close closing.1)) with phase := .stopped, todo := [] }

/-- Whether a call on the store returns no error. -/
def isOpen : Bool := d.db.store.any fun store => !store.closed

/-- Whether `Flush` returns no error. -/
def flushes (faults : CleanFaults) : Bool :=
  d.db.store.any fun store => (store.flushLocked height d.db.disk faults.1).1.ok

def exec (faults closing : CleanFaults) (result : CommitResult) : Driver σ V H A :=
  match d.todo with
  | [] => d
  | .setWALEntry entry after :: rest =>
    if d.isOpen then { d with db := d.db.step height (.setWALEntry entry), logged := after, todo := rest }
    else d.stop closing
  | .flush :: rest =>
    let flushed := d.written (d.db.step height (.flush faults.1))
    if d.flushes faults then { flushed with todo := rest } else flushed.stop closing
  | .broadcast action :: rest => { d with sent := d.sent ++ [action], todo := rest }
  | .onCommit p :: rest =>
    match result with
    | .done => { d with head := p.height, todo := rest }
    | .failed persisted => { d with head := if persisted then p.height else d.head }.stop closing
  | .deleteWALEntries height :: rest =>
    if d.isOpen then { d with db := d.db.step height (.deleteWALEntries height), todo := rest }
    else d.stop closing
  | .committed :: rest =>
    { d with
      phase := match d.phase with
        | .listening => .starting
        | phase => phase
      todo := rest }

variable [Hashed V H] [DecidableEq H] [DecidableEq A] (app : Application σ V)

/-- An input in `listen`: its actions are to be executed. -/
def receive (d : Driver σ V H A) (es : List (WALEntry V H A)) : Driver σ V H A :=
  { d with
    stateMachine := (feed app d.stateMachine es).2
    phase := .listening
    actions := (feed app d.stateMachine es).1.map Prod.fst
    todo := execute false (feed app d.stateMachine es).1 }

/-- A turn of `replay`, or of the outer loop of `listen`. -/
def next (d : Driver σ V H A) : Driver σ V H A :=
  match d.phase with
  | .replaying [] => { d with phase := .starting }
  | .replaying (walEntry :: rest) =>
    if walEntry.height < d.stateMachine.state.height then { d with phase := .replaying rest }
    else
      { d with
        stateMachine := (feed app d.stateMachine [walEntry]).2
        phase := .replaying rest
        todo := execute true (feed app d.stateMachine [walEntry]).1 }
  | .starting => d.receive app [.start d.stateMachine.state.height]
  | _ => d

/-- The process starts: a new machine at the height after the chain, and the entries of the log. -/
def start (vals : Validators A) (d : Driver σ V H A) (a : σ) : Driver σ V H A :=
  let db := d.db.step height .reopen
  match db.store with
  | none => { d with db := db }
  | some store =>
    { d with
      stateMachine := new d.stateMachine.nodeAddr a vals (d.head + 1)
      db := db
      phase := .replaying store.index.loadAllEntries
      actions := []
      todo := []
      logged := d.settled }

def step (vals : Validators A) (d : Driver σ V H A) : Event σ V H A → Driver σ V H A
  | .start a => match d.phase with
    | .stopped => d.start vals a
    | _ => d
  | .next => if d.todo.isEmpty then d.next app else d
  | .input i => match d.phase with
    | .listening => if d.todo.isEmpty then d.receive app i.entries else d
    | _ => d
  | .syncFailed => match d.phase with
    | .listening =>
      -- the last actions are still in the variable, and are executed again
      if d.todo.isEmpty then { d with todo := execute false (d.actions.map fun a => (a, d.stateMachine)) }
        else d
    | _ => d
  | .exec faults closing result => match d.phase with
    | .stopped => d
    | _ => d.exec faults closing result
  | .stop closing => match d.phase with
    | .listening => if d.todo.isEmpty then d.stop closing else d
    | .starting => if d.todo.isEmpty then d.stop closing else d
    | _ => d
  | .crash torn => { d with db := d.db.step height (.crash torn), phase := .stopped, todo := [] }

def run (vals : Validators A) (d : Driver σ V H A) (events : List (Event σ V H A)) : Driver σ V H A :=
  events.foldl (step app vals) d

end Driver

end Juno.Consensus
