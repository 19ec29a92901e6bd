import Juno.Consensus.Driver

/-!
# What the driver carries out

`Driver.listen` and `Driver.execute`, seen from outside: for each event the calls that the driver makes on the
store, the network, the timers and the listener of commits.

## The model

`calls` are the calls that `execute` makes for a list of actions, one after the other (`perform`); one that
returns an error ends `listen`. A `Listener` takes one delivery at a time: the turn of the outer loop that
starts a height, an input, or a block fetch that failed. The variable `actions` is in the state, since the
branch of a failed fetch does not assign it.

The main results are `executes_once` and `execute_eq_calls`.
-/

namespace Juno.Consensus

open Juno.Tendermint List

variable {σ V H A : Type} {fails : ℕ → Bool}

/-! ### Effects -/

/-- A call that `execute` makes. -/
inductive Effect (V H A : Type) where
  | flush
  | setWALEntry (entry : WALEntry V H A)
  | broadcast (action : Action V H A)
  | scheduleTimeout (tm : Timeout)
  | onCommit (p : Proposal V A)
  | deleteWALEntries (height : ℕ)
  | triggerSync (first last : ℕ)
  deriving DecidableEq

/-- The calls that may return an error. -/
def Effect.fallible : Effect V H A → Bool
  | .broadcast _ => false
  | .scheduleTimeout _ => false
  | .triggerSync _ _ => false
  | _ => true

/-- The calls of `execute`. A commit is the last action that is executed. -/
def calls : List (Action V H A) → List (Effect V H A)
  | [] => []
  | action :: rest =>
    (if requiresWALFlush action then [.flush] else []) ++
      match action with
      | .writeWAL entry => .setWALEntry entry :: calls rest
      | .broadcastProposal _ => .broadcast action :: calls rest
      | .broadcastPrevote _ => .broadcast action :: calls rest
      | .broadcastPrecommit _ => .broadcast action :: calls rest
      | .scheduleTimeout tm => .scheduleTimeout tm :: calls rest
      | .commit p => [.onCommit p, .deleteWALEntries p.height, .flush]
      | .triggerSync first last => .triggerSync first last :: calls rest

/-- The call of a step of `execute` in `Driver`. -/
def Micro.effect : Micro σ V H A → Option (Effect V H A)
  | .setWALEntry entry _ => some (.setWALEntry entry)
  | .flush => some .flush
  | .broadcast action => some (.broadcast action)
  | .onCommit p => some (.onCommit p)
  | .deleteWALEntries height => some (.deleteWALEntries height)
  | .committed => none

/-- The call sets no timer and asks for no block. -/
def Effect.lasting : Effect V H A → Bool
  | .scheduleTimeout _ => false
  | .triggerSync _ _ => false
  | _ => true

/-- **The two models of `execute` make the same calls.** -/
theorem execute_eq_calls (as : List (Action V H A × StateMachine σ V H A)) :
    (execute false as).filterMap Micro.effect = (calls (as.map Prod.fst)).filter Effect.lasting := by
  induction as with
  | nil => rfl
  | cons a as ih =>
    obtain ⟨action, after⟩ := a
    cases action
      <;> simp [execute, commit, calls, requiresWALFlush, Micro.effect, Effect.lasting, filter_cons, ih]

/-- Calls one after the other, up to one that returns an error: those that were made, and whether all were. -/
def perform (fails : ℕ → Bool) : List (Effect V H A) → List (Effect V H A) × Bool
  | [] => ([], true)
  | e :: es =>
    if e.fallible && fails 0 then ([], false)
    else (e :: (perform (fun n => fails (n + 1)) es).1, (perform (fun n => fails (n + 1)) es).2)

theorem perform_of_ok (h : ∀ n, fails n = false) (es : List (Effect V H A)) :
    perform fails es = (es, true) := by
  induction es generalizing fails with
  | nil => rfl
  | cons e es ih => rw [perform, h 0, Bool.and_false, if_neg Bool.false_ne_true, ih fun n => h (n + 1)]

/-! ### The loop -/

inductive Place where
  | starting
  | listening
  /-- `listen` returned. -/
  | returned
  deriving DecidableEq

structure Listener (σ V H A : Type) where
  stateMachine : StateMachine σ V H A
  actions : List (Action V H A)
  place : Place

/-- What is delivered to `listen`. -/
inductive Delivery (V H A : Type) where
  /-- The next turn of the outer loop. -/
  | start
  | input (i : Input V H A)
  | syncFailed
  /-- The context is done, or a channel is closed. -/
  | done

variable {l : Listener σ V H A}

namespace Listener

variable (l)

def execute (fails : ℕ → Bool) : Listener σ V H A × List (Effect V H A) :=
  let r := perform fails (calls l.actions)
  ({ l with place := if !r.2 then .returned else if l.actions.any Action.isCommit then .starting else
    .listening }, r.1)

theorem execute_effects (h : ∀ n, fails n = false) : (l.execute fails).2 = calls l.actions := by
  rw [Listener.execute, perform_of_ok h]

/-- A delivery that makes no call on the state machine. After a failed fetch the variable still has the
actions of the event before. -/
def unasked (fails : ℕ → Bool) : Delivery V H A → Listener σ V H A × List (Effect V H A)
  | .syncFailed => if l.place = .listening then l.execute fails else (l, [])
  | .done => ({ l with place := .returned }, [])
  | _ => (l, [])

variable {l} [Hashed V H] [DecidableEq H] [DecidableEq A] (app : Application σ V)

def ask (l : Listener σ V H A) : Delivery V H A → Option (List (Action V H A) × StateMachine σ V H A)
  | .start => if l.place = .starting then some (l.stateMachine.processStart app 0) else none
  | .input i => if l.place = .listening then some (l.stateMachine.call app i.call) else none
  | _ => none

/-- The actions that the state machine returns for a delivery. -/
def answer (l : Listener σ V H A) (e : Delivery V H A) : List (Action V H A) :=
  ((l.ask app e).map Prod.fst).getD []

def step (l : Listener σ V H A) (e : Delivery V H A) (fails : ℕ → Bool) :
    Listener σ V H A × List (Effect V H A) :=
  match l.ask app e with
  | some (actions, stateMachine) => execute ⟨stateMachine, actions, l.place⟩ fails
  | none => l.unasked fails e

def trace (l : Listener σ V H A) : List (Delivery V H A × (ℕ → Bool)) → List (List (Effect V H A))
  | [] => []
  | e :: es => (l.step app e.1 e.2).2 :: trace (l.step app e.1 e.2).1 es

/-- The actions that the state machine returned in a run. -/
def answers (l : Listener σ V H A) : List (Delivery V H A × (ℕ → Bool)) → List (List (Action V H A))
  | [] => []
  | e :: es => l.answer app e.1 :: answers (l.step app e.1 e.2).1 es

/-- No call fails, and a fetch fails only after an event without actions. -/
def Orderly (l : Listener σ V H A) (e : Delivery V H A) (fails : ℕ → Bool) : Prop :=
  (∀ n, fails n = false) ∧ (e = .syncFailed → l.place = .listening → l.actions = [])

def OrderlyRun (l : Listener σ V H A) : List (Delivery V H A × (ℕ → Bool)) → Prop
  | [] => True
  | e :: es => l.Orderly e.1 e.2 ∧ OrderlyRun (l.step app e.1 e.2).1 es

theorem step_effects {e : Delivery V H A} (h : l.Orderly e fails) :
    (l.step app e fails).2 = calls (l.answer app e) := by
  rw [step, answer]
  cases hask : l.ask app e with
  | some r => exact execute_effects _ h.1
  | none =>
    cases e with
    | syncFailed =>
      simp only [unasked]
      split_ifs with hplace
      · refine (execute_effects l h.1).trans ?_
        rw [h.2 rfl hplace]
        rfl
      · rfl
    | _ => rfl

theorem trace_eq {es : List (Delivery V H A × (ℕ → Bool))} (h : l.OrderlyRun app es) :
    l.trace app es = (l.answers app es).map calls := by
  induction es generalizing l with
  | nil => rfl
  | cons e es ih => rw [trace, answers, map_cons, step_effects app h.1, ih h.2]

theorem step_perform (l : Listener σ V H A) (e : Delivery V H A) (fails : ℕ → Bool) :
    ∃ actions, (l.step app e fails).2 = (perform fails (calls actions)).1 := by
  rw [step]
  cases l.ask app e with
  | some r => exact ⟨r.1, rfl⟩
  | none =>
    cases e with
    | syncFailed =>
      simp only [unasked]
      split_ifs
      · exact ⟨l.actions, rfl⟩
      · exact ⟨[], rfl⟩
    | _ => exact ⟨[], rfl⟩

end Listener

/-! ### The actions that are carried out -/

def Effect.action : Effect V H A → Option (Action V H A)
  | .flush => none
  | .setWALEntry entry => some (.writeWAL entry)
  | .broadcast action => some action
  | .scheduleTimeout tm => some (.scheduleTimeout tm)
  | .onCommit p => some (.commit p)
  | .deleteWALEntries _ => none
  | .triggerSync first last => some (.triggerSync first last)

variable (actions : List (Action V H A))

def upToCommit : List (Action V H A) :=
  actions.takeWhile (!·.isCommit) ++ (actions.find? Action.isCommit).toList

theorem upToCommit_cons (action : Action V H A) (rest : List (Action V H A)) :
    upToCommit (action :: rest) = action :: if action.isCommit then [] else upToCommit rest := by
  rw [upToCommit, takeWhile_cons, find?_cons]
  cases action.isCommit <;> rfl

theorem filterMap_calls : (calls actions).filterMap Effect.action = upToCommit actions := by
  induction actions with
  | nil => rfl
  | cons action rest ih =>
    rw [upToCommit_cons, ← ih]
    cases action <;> simp [calls, requiresWALFlush, Effect.action, Action.isCommit, filterMap_cons]

/-! ### The log and the messages -/

/-- Before every message the log is flushed; the flag says whether an entry was logged since the last
flush. -/
def FlushedFirst : Bool → List (Effect V H A) → Prop
  | _, [] => True
  | _, .setWALEntry _ :: es => FlushedFirst true es
  | _, .flush :: es => FlushedFirst false es
  | logged, .broadcast _ :: es => logged = false ∧ FlushedFirst logged es
  | logged, _ :: es => FlushedFirst logged es

theorem flushedFirst_calls (logged : Bool) : FlushedFirst logged (calls actions) := by
  induction actions generalizing logged with
  | nil => trivial
  | cons action rest ih => cases action <;> simp [calls, requiresWALFlush, FlushedFirst, ih]

/-- Calls that stop at an error, and then calls that flush by themselves. -/
theorem FlushedFirst.perform {logged : Bool} {es rest : List (Effect V H A)} (h : FlushedFirst logged es)
    (hrest : ∀ logged, FlushedFirst logged rest) (fails : ℕ → Bool) :
    FlushedFirst logged ((perform fails es).1 ++ rest) := by
  induction es generalizing logged fails with
  | nil => exact hrest logged
  | cons e es ih =>
    rw [Consensus.perform]
    split_ifs
    · exact hrest logged
    cases e with
    | broadcast action => exact ⟨h.1, ih h.2 _⟩
    | _ => exact ih h _

theorem flushedFirst_trace (app : Application σ V) [Hashed V H] [DecidableEq H] [DecidableEq A]
    (l : Listener σ V H A) (es : List (Delivery V H A × (ℕ → Bool))) (logged : Bool) :
    FlushedFirst logged (l.trace app es).flatten := by
  induction es generalizing l logged with
  | nil => trivial
  | cons e es ih =>
    obtain ⟨actions, hcalls⟩ := l.step_perform app e.1 e.2
    rw [Listener.trace, flatten_cons, hcalls]
    exact (flushedFirst_calls actions logged).perform (ih _) e.2

/-- **What is carried out.** In every run the log is flushed before every message. If no call fails, and a
fetch fails only after an event without actions, then the calls of each delivery carry out the actions that
the state machine returned for it, once and in order, up to the first commit. -/
theorem executes_once (app : Application σ V) [Hashed V H] [DecidableEq H] [DecidableEq A]
    (s : StateMachine σ V H A) (es : List (Delivery V H A × (ℕ → Bool))) :
    FlushedFirst false (Listener.trace app ⟨s, [], .starting⟩ es).flatten ∧
      (Listener.OrderlyRun app ⟨s, [], .starting⟩ es →
        (Listener.trace app ⟨s, [], .starting⟩ es).map (filterMap Effect.action) =
          (Listener.answers app ⟨s, [], .starting⟩ es).map upToCommit) := by
  refine ⟨flushedFirst_trace app _ es false, fun h => ?_⟩
  rw [Listener.trace_eq app h, map_map]
  exact map_congr_left fun actions _ => filterMap_calls actions

def votesOnce : List (Delivery Block ℕ Member × (ℕ → Bool)) :=
  [(.start, fun _ => false), (.input (.proposal firstProposal), fun _ => false)]

/-- Nothing fails: the vote is logged, flushed and sent once. -/
theorem executes_once_vote :
    Listener.trace anyBlock ⟨validator .v0, [], .starting⟩ votesOnce =
        [[.setWALEntry (.start 1), .scheduleTimeout ⟨.propose, 1, 0⟩],
          [.setWALEntry (.proposal firstProposal), .flush,
            .broadcast (.broadcastPrevote ⟨⟨1, 0, .v0⟩, some 7⟩)]] ∧
      FlushedFirst false (Listener.trace anyBlock ⟨validator .v0, [], .starting⟩ votesOnce).flatten ∧
      (Listener.trace anyBlock ⟨validator .v0, [], .starting⟩ votesOnce).map (filterMap Effect.action) =
        (Listener.answers anyBlock ⟨validator .v0, [], .starting⟩ votesOnce).map upToCommit := by
  have h := executes_once anyBlock (validator .v0) votesOnce
  exact ⟨by decide +kernel, h.1,
    h.2 ⟨⟨fun _ => rfl, fun h => by cases h⟩, ⟨fun _ => rfl, fun h => by cases h⟩, trivial⟩⟩

/-- **A fetch that fails sends the vote again**: the state machine returns it once, and it is sent twice. -/
theorem failed_fetch_sends_again :
    ((Listener.answers anyBlock ⟨validator .v0, [], .starting⟩
      (votesOnce ++ [(.syncFailed, fun _ => false)])).flatten.count
        (.broadcastPrevote ⟨⟨1, 0, .v0⟩, some 7⟩) = 1) ∧
      (Listener.trace anyBlock ⟨validator .v0, [], .starting⟩
        (votesOnce ++ [(.syncFailed, fun _ => false)])).flatten.count
        (.broadcast (.broadcastPrevote ⟨⟨1, 0, .v0⟩, some 7⟩)) = 2 := by
  decide +kernel

end Juno.Consensus
