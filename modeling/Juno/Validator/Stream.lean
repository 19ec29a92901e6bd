import Juno.Lib.GoMap
import Mathlib

/-!
# One stream of a proposal

Package `consensus/p2p/validator`: a proposal comes from a peer as a stream of numbered
messages, each with a part of the proposal. `proposalStream` puts them in order and feeds
the parts to `ProposalStateMachine`; the closing message delivers the proposal.

## The model

* `Part`, `State`, `onEvent` — the parts and the states of the state machine. What the
  adapters and the transition make of a part (`Transition`) is a parameter: they may accept
  it, refuse it or panic, as `tx.ResourceBounds.L1Gas` does on a transaction without bounds.
* `Stream` — a `proposalStream`: the machine, which is `nil` after a refused part, the
  messages that came too early and the next number expected. `processed` and `delivered`
  record what it has done.

The main result is `consume_perm`.
-/

namespace Juno.Validator

open Juno.Lib List

inductive Outcome (α : Type) where
  | ok (a : α)
  | error
  | panic
  deriving DecidableEq

/-- Apply a function to the value returned. -/
def Outcome.map {α β : Type} (f : α → β) : Outcome α → Outcome β
  | .ok a => .ok (f a)
  | .error => .error
  | .panic => .panic

/-! ### The state machine -/

/-- `consensus.ProposalPart`, with payloads `X`. -/
inductive Part (X : Type) where
  /-- `ProposalPart_Init`. -/
  | init (x : X)
  /-- `ProposalPart_BlockInfo`. -/
  | blockInfo (x : X)
  /-- `ProposalPart_Transactions`. -/
  | transactions (x : X)
  /-- `ProposalPart_Commitment`. -/
  | commitment (x : X)
  /-- `ProposalPart_Fin`. -/
  | fin (x : X)
  | unset
  deriving DecidableEq

/-- `MessageHeader`: the height and the rest. -/
structure Header (D : Type) where
  height : ℕ
  /-- The round, the sender and the valid round. -/
  data : D
  deriving DecidableEq

/-- A proposal: its header, and its value with the build result. -/
abbrev Proposal (D R : Type) := Header D × R

/-- The states of `ProposalStateMachine`. -/
inductive State (D B R : Type) where
  /-- `InitialState`. -/
  | initial
  /-- `AwaitingBlockInfoOrCommitmentState`. -/
  | awaitingBlockInfoOrCommitment (header : Header D)
  | receivingTransactions (header : Header D) (buildState : B)
  /-- `AwaitingProposalFinState`. -/
  | awaitingProposalFin (proposal : Proposal D R)
  /-- `FinState`. -/
  | fin (proposal : Proposal D R)
  deriving DecidableEq

/-- What the adapters and the transition do with the payload of a part. -/
structure Transition (X D B R : Type) where
  /-- `AdaptProposalInit` and `OnProposalInit`. -/
  onProposalInit : X → Outcome (Header D)
  /-- `AdaptProposalCommitment` and `OnEmptyBlockCommitment`. -/
  onEmptyBlockCommitment : Header D → X → Outcome R
  /-- `AdaptBlockInfo` and `OnBlockInfo`. -/
  onBlockInfo : Header D → X → Outcome B
  /-- `AdaptProposalTransaction` and `OnTransactions`. -/
  onTransactions : B → X → Outcome B
  /-- `AdaptProposalCommitment` and `OnProposalCommitment`. -/
  onProposalCommitment : B → X → Outcome R
  /-- `AdaptProposalFin` and `OnProposalFin`. -/
  onProposalFin : R → X → Outcome Unit

variable {X D B R : Type} (T : Transition X D B R)

/-- `OnEvent` of each state: a part that does not belong there is `errInvalidMessage`. -/
def onEvent : State D B R → Part X → Outcome (State D B R)
  | .initial, .init x => (T.onProposalInit x).map .awaitingBlockInfoOrCommitment
  | .awaitingBlockInfoOrCommitment header, .blockInfo x =>
    (T.onBlockInfo header x).map (.receivingTransactions header)
  | .awaitingBlockInfoOrCommitment header, .commitment x =>
    (T.onEmptyBlockCommitment header x).map fun r => .awaitingProposalFin (header, r)
  | .receivingTransactions header b, .transactions x =>
    (T.onTransactions b x).map (.receivingTransactions header)
  | .receivingTransactions header b, .commitment x =>
    (T.onProposalCommitment b x).map fun r => .awaitingProposalFin (header, r)
  | .awaitingProposalFin proposal, .fin x => (T.onProposalFin proposal.2 x).map fun _ => .fin proposal
  | _, _ => .error

def feedFrom : State D B R → List (Part X) → Outcome (State D B R)
  | st, [] => .ok st
  | st, p :: ps =>
    match onEvent T st p with
    | .ok st' => feedFrom st' ps
    | .error => .error
    | .panic => .panic

/-- The parts of a proposal, fed to a new state machine. -/
def feed (parts : List (Part X)) : Outcome (State D B R) := feedFrom T .initial parts

/-! ### The stream -/

/-- The message of a `consensus.StreamMessage`. -/
inductive Body (X : Type) where
  | content (part : Option (Part X))
  | fin
  | unset
  deriving DecidableEq

/-- The stream ends with the message. -/
def Body.isFin : Body X → Bool
  | .fin => true
  | _ => false

/-- `consensus.StreamMessage`, without the stream it belongs to. -/
structure Message (X : Type) where
  sequenceNumber : ℕ
  body : Body X
  deriving DecidableEq

/-- `proposalStream`, without its channels. -/
structure Stream (X D B R : Type) where
  /-- `stateMachine`; `none` is `nil`. -/
  stateMachine : Option (State D B R)
  /-- `messages`: what came too early, by its number. -/
  messages : GoMap ℕ (Message X)
  nextSequenceNumber : ℕ
  started : Bool
  /-- The messages taken up so far, in order. -/
  processed : List (Message X)
  delivered : List (Proposal D R)

/-- `newSingleProposalStream`. -/
def Stream.new : Stream X D B R := ⟨some .initial, ∅, 0, false, [], []⟩

/-- Whether a call succeeded, gave an error or panicked. -/
abbrev Verdict := Outcome Unit

/-- `processProposalPart`: the machine is replaced even when the part is refused, and a machine that
is `nil` panics. -/
def processProposalPart (stateMachine : Option (State D B R)) (content : Option (Part X)) :
    Option (State D B R) × Verdict :=
  match content with
  | none => (stateMachine, .error)
  | some part =>
    match stateMachine with
    | none => (none, .panic)
    | some st =>
      match onEvent T st part with
      | .ok st' => (some st', .ok ())
      | .error => (none, .error)
      | .panic => (some st, .panic)

/-- `start`: the height of the stream, if its first message begins a proposal. -/
def Stream.start (s : Stream X D B R) (firstMessage : Message X) : Stream X D B R × Outcome ℕ :=
  match firstMessage.body with
  | .content content =>
    match processProposalPart T s.stateMachine content with
    | (sm, .ok ()) =>
      match sm with
      | some (.awaitingBlockInfoOrCommitment header) =>
        ({ s with stateMachine := sm, nextSequenceNumber := 1, started := true, processed := [firstMessage] },
          .ok header.height)
      | sm => ({ s with stateMachine := sm }, .error)
    | (sm, .error) => ({ s with stateMachine := sm }, .error)
    | (sm, .panic) => ({ s with stateMachine := sm }, .panic)
  | _ => (s, .error)

/-- The loop of `processMessages`: the message at hand and then the ones that came too early, as long as
they follow on. -/
def Stream.processLoop : ℕ → Stream X D B R → Message X → Stream X D B R × Verdict
  | 0, s, _ => (s, .ok ())
  | fuel + 1, s, message =>
    match message.body with
    | .content content =>
      match processProposalPart T s.stateMachine content with
      | (sm, .ok ()) =>
        let s := { s with stateMachine := sm, processed := s.processed ++ [message] }
        match s.messages.lookup s.nextSequenceNumber with
        | none => (s, .ok ())
        | some next =>
          Stream.processLoop fuel { s with
            messages := s.messages.erase s.nextSequenceNumber, nextSequenceNumber :=
              s.nextSequenceNumber + 1 } next
      | (sm, .error) => ({ s with stateMachine := sm }, .error)
      | (sm, .panic) => ({ s with stateMachine := sm }, .panic)
    | .fin =>
      match s.stateMachine with
      | some (.fin proposal) =>
        ({ s with processed := s.processed ++ [message], delivered := s.delivered ++ [proposal] }, .ok ())
      | _ => (s, .error)
    | .unset => (s, .error)

/-- `processMessages`. Every turn of the loop but the first takes a message out of the buffer, so the
size of the buffer bounds the turns. -/
def Stream.processMessages (s : Stream X D B R) (message : Message X) : Stream X D B R × Verdict :=
  if s.nextSequenceNumber ≠ message.sequenceNumber then
    ({ s with messages := s.messages.insert message.sequenceNumber message }, .ok ())
  else
    Stream.processLoop T (s.messages.entries.length + 1)
      { s with nextSequenceNumber := s.nextSequenceNumber + 1 } message

/-- `loop`, on a list of messages: it ends at the first error. -/
def Stream.consume (s : Stream X D B R) : List (Message X) → Stream X D B R × Verdict
  | [] => (s, .ok ())
  | m :: ms =>
    match s.processMessages T m with
    | (s', .ok ()) => s'.consume ms
    | (s', v) => (s', v)

/-! ### Accepted parts -/

variable {T}

theorem Outcome.map_eq_ok {α β : Type} {f : α → β} {o : Outcome α} {b : β} (h : o.map f = .ok b) :
    ∃ a, o = .ok a ∧ f a = b := by
  cases o with
  | ok a => exact ⟨a, rfl, Outcome.ok.inj h⟩
  | error => cases h
  | panic => cases h

variable {st st' : State D B R} {ps qs : List (Part X)} {p : Part X}

theorem feedFrom_cons_eq_ok :
    feedFrom T st (p :: ps) = .ok st' ↔ ∃ st₁, onEvent T st p = .ok st₁ ∧ feedFrom T st₁ ps = .ok st' := by
  rw [feedFrom]
  cases onEvent T st p <;> simp

theorem feedFrom_append :
    feedFrom T st (ps ++ qs) = .ok st' ↔ ∃ st₁, feedFrom T st ps = .ok st₁ ∧ feedFrom T st₁ qs = .ok st' := by
  induction ps generalizing st with
  | nil => simp [feedFrom]
  | cons p ps ih =>
    simp only [cons_append, feedFrom_cons_eq_ok, ih, ← exists_and_left, ← exists_and_right, and_assoc]
    exact exists_comm

theorem feed_concat (h : feed T ps = .ok st) (hp : onEvent T st p = .ok st') :
    feed T (ps ++ [p]) = .ok st' := by
  exact feedFrom_append.mpr ⟨st, h, feedFrom_cons_eq_ok.mpr ⟨st', hp, rfl⟩⟩

inductive Proposed : List (Part X) → Prop where
  /-- An empty block: a commitment follows the init. -/
  | empty (i c f : X) : Proposed [.init i, .commitment c, .fin f]
  /-- A block: block info, batches of transactions and a commitment. -/
  | full (i b : X) (ts : List X) (c f : X) :
      Proposed (.init i :: .blockInfo b :: (ts.map .transactions ++ [.commitment c, .fin f]))

def Stage : State D B R → List (Part X) → Prop
  | .initial, ps => ps = []
  | .awaitingBlockInfoOrCommitment _, ps => ∃ i, ps = [.init i]
  | .receivingTransactions _ _, ps =>
    ∃ i b, ∃ ts : List X, ps = .init i :: .blockInfo b :: ts.map .transactions
  | .awaitingProposalFin _, ps => (∃ i c, ps = [.init i, .commitment c]) ∨
      ∃ i b, ∃ ts : List X, ∃ c, ps = .init i :: .blockInfo b :: (ts.map .transactions ++ [.commitment c])
  | .fin _, ps => Proposed ps

/-- The header of the proposal, once it is known. -/
def State.header : State D B R → Option (Header D)
  | .initial => none
  | .awaitingBlockInfoOrCommitment header => some header
  | .receivingTransactions header _ => some header
  | .awaitingProposalFin proposal => some proposal.1
  | .fin proposal => some proposal.1

/-- What a state makes of an accepted part: the next stage, and the same header. -/
theorem onEvent_ok (hst : Stage st ps) (h : onEvent T st p = .ok st') :
    Stage st' (ps ++ [p]) ∧ ∀ header, st.header = some header → st'.header = some header := by
  revert h
  fun_cases onEvent T st p <;> intro h
  case case7 => cases h
  all_goals obtain ⟨_, -, rfl⟩ := Outcome.map_eq_ok h
  case case1 x _ =>
    cases hst
    exact ⟨⟨x, rfl⟩, fun _ hnone => by cases hnone⟩
  -- from here on the header is known, and kept
  all_goals refine ⟨?_, fun _ => id⟩
  case case2 x _ =>
    obtain ⟨i, rfl⟩ := hst
    exact ⟨i, x, [], rfl⟩
  case case3 c _ =>
    obtain ⟨i, rfl⟩ := hst
    exact .inl ⟨i, c, rfl⟩
  case case4 t _ =>
    obtain ⟨i, x, ts, rfl⟩ := hst
    refine ⟨i, x, ts ++ [t], ?_⟩
    rw [map_append]
    rfl
  case case5 c _ =>
    obtain ⟨i, x, ts, rfl⟩ := hst
    exact .inr ⟨i, x, ts, c, rfl⟩
  case case6 f _ =>
    rcases hst with ⟨i, c, rfl⟩ | ⟨i, x, ts, c, rfl⟩
    · exact .empty i c f
    · rw [cons_append, cons_append, append_assoc]
      exact .full i x ts c f

theorem feedFrom_stage {before : List (Part X)} (hst : Stage st before) (h : feedFrom T st ps = .ok st') :
    Stage st' (before ++ ps) ∧ ∀ header, st.header = some header → st'.header = some header := by
  induction ps generalizing st before with
  | nil =>
    cases h
    rw [append_nil]
    exact ⟨hst, fun _ hheader => hheader⟩
  | cons p ps ih =>
    obtain ⟨st₁, hp, h⟩ := feedFrom_cons_eq_ok.mp h
    obtain ⟨hst₁, hheader₁⟩ := onEvent_ok hst hp
    obtain ⟨hst', hheader'⟩ := ih hst₁ h
    rw [append_cons]
    exact ⟨hst', fun header hheader => hheader' header (hheader₁ header hheader)⟩

theorem feed_shape (h : feed T ps = .ok st) : Stage st ps := by
  have hinitial : Stage (State.initial : State D B R) ([] : List (Part X)) := rfl
  exact (feedFrom_stage hinitial h).1

/-! ### What a stream has done -/

/-- **A proposal that may be delivered**: the messages `0, 1, 2, …` received carry its parts, which the
state machine accepts, and are closed by a stream fin. -/
structure Delivered (T : Transition X D B R) (received : List (Message X)) (proposal : Proposal D R)
    (messages : List (Message X)) (parts : List (Part X)) : Prop where
  received : ∀ m ∈ messages, m ∈ received
  /-- They are taken in the order of their numbers, without a gap. -/
  numbers : messages.map Message.sequenceNumber = List.range messages.length
  /-- They carry the parts and the stream fin. -/
  bodies : messages.map Message.body = parts.map (fun p => .content (some p)) ++ [.fin]
  accepted : feed T parts = .ok (.fin proposal)
  proposed : Proposed parts

/-- What a stream has delivered is right and at most one proposal, of the stream's height. -/
structure Kept (T : Transition X D B R) (received : List (Message X)) (height : ℕ)
    (s : Stream X D B R) : Prop where
  sound : ∀ p ∈ s.delivered, p.1.height = height ∧ ∃ messages parts, Delivered T received p messages parts
  once : s.delivered.length ≤ 1

/-- The messages taken up so far are the first ones, in order, and the machine is where they lead. -/
structure Fed (T : Transition X D B R) (received : List (Message X)) (height : ℕ) (s : Stream X D B R)
    (parts : List (Part X)) (st : State D B R) : Prop where
  /-- What came too early is kept under its number. -/
  buffered : ∀ n m, s.messages.lookup n = some m → m.sequenceNumber = n ∧ m ∈ received
  received : ∀ m ∈ s.processed, m ∈ received
  /-- It was taken up in the order of the numbers. -/
  numbers : s.processed.map Message.sequenceNumber = List.range s.processed.length
  machine : s.stateMachine = some st
  accepted : feed T parts = .ok st
  height : ∃ header, st.header = some header ∧ header.height = height

inductive Progress (T : Transition X D B R) (received : List (Message X)) (height : ℕ)
    (s : Stream X D B R) : Prop where
  | opened (parts : List (Part X)) (st : State D B R) (fed : Fed T received height s parts st)
      (next : s.nextSequenceNumber = s.processed.length)
      (bodies : s.processed.map Message.body = parts.map fun p => .content (some p))
      (delivered : s.delivered = [])
  | closed (parts : List (Part X)) (proposal : Proposal D R)
    (fed : Fed T received height s parts (.fin proposal))
      (bodies : s.processed.map Message.body = parts.map (fun p => .content (some p)) ++ [.fin])
      (delivered : s.delivered = [proposal])

/-- No part received makes the adapters or the transition panic. -/
def NoPanic (T : Transition X D B R) (received : List (Message X)) : Prop :=
  ∀ m ∈ received, ∀ p, m.body = .content (some p) → ∀ st, onEvent T st p ≠ .panic

variable {received : List (Message X)} {height : ℕ} {s : Stream X D B R} {m : Message X}

/-- A stream that has not delivered keeps what it has: nothing. -/
theorem kept_of_nil (h : s.delivered = []) : Kept T received height s :=
  ⟨by simp [h], by simp [h]⟩

theorem Progress.kept (h : Progress T received height s) : Kept T received height s := by
  cases h with
  | opened parts st fed next bodies delivered => exact kept_of_nil delivered
  | closed parts proposal fed bodies delivered =>
    refine ⟨fun p hp => ?_, ?_⟩
    · rw [delivered, mem_singleton] at hp
      subst hp
      obtain ⟨header, hheader, hheight⟩ := fed.height
      cases hheader
      exact ⟨hheight, s.processed, parts, fed.received, fed.numbers, bodies, fed.accepted,
        feed_shape fed.accepted⟩
    · rw [delivered]
      exact le_rfl

/-- What processing a message comes to: no panic, at most one proposal, and the loop goes on if there was
no error. -/
structure Handled (T : Transition X D B R) (received : List (Message X)) (height : ℕ)
    (r : Stream X D B R × Verdict) : Prop where
  calm : r.2 ≠ .panic
  kept : Kept T received height r.1
  progress : r.2 = .ok () → Progress T received height r.1

variable {l : List (Message X)}

theorem numbers_concat (h : l.map Message.sequenceNumber = range l.length)
    (hm : m.sequenceNumber = l.length) :
    (l ++ [m]).map Message.sequenceNumber = range (l ++ [m]).length := by
  rw [map_append, h, length_append, length_singleton, range_succ, map_singleton, hm]

theorem Kept.handled (h : Kept T received height s) : Handled T received height (s, .error) :=
  ⟨by simp, h, by simp⟩

theorem handled_error (h : s.delivered = []) : Handled T received height (s, .error) :=
  (kept_of_nil h).handled

theorem Progress.handled (h : Progress T received height s) : Handled T received height (s, .ok ()) :=
  ⟨by simp, h.kept, fun _ => h⟩

variable {parts : List (Part X)}

theorem Fed.received_concat (h : Fed T received height s parts st) (hm : m ∈ received) :
    ∀ m' ∈ s.processed ++ [m], m' ∈ received :=
  forall_mem_append.mpr ⟨h.received, forall_mem_singleton.mpr hm⟩

theorem Fed.take (h : Fed T received height s parts st) (hm : m ∈ received)
    (hnumber : m.sequenceNumber = s.processed.length) (hp : onEvent T st p = .ok st') :
    Fed T received height { s with stateMachine := some st', processed := s.processed ++ [m] }
      (parts ++ [p]) st' := by
  obtain ⟨header, hheader, hheight⟩ := h.height
  exact ⟨h.buffered, h.received_concat hm, numbers_concat h.numbers hnumber, rfl,
    feed_concat h.accepted hp, header,
    (onEvent_ok (feed_shape h.accepted) hp).2 header hheader, hheight⟩

/-- The loop takes up the message at hand and those that follow on. -/
theorem processLoop_handled (hT : NoPanic T received) (fuel : ℕ) (hfed : Fed T received height s parts st)
    (hnext : s.nextSequenceNumber = s.processed.length + 1)
    (hbodies : s.processed.map Message.body = parts.map fun p => .content (some p)) (hdel : s.delivered = [])
    (hm : m ∈ received) (hnumber : m.sequenceNumber = s.processed.length)
    (hfuel : s.messages.entries.length < fuel) :
    Handled T received height (Stream.processLoop T fuel s m) := by
  induction fuel generalizing s m parts st with
  | zero => exact absurd hfuel (Nat.not_lt_zero _)
  | succ fuel ih =>
    rw [Stream.processLoop, hfed.machine]
    cases hbody : m.body with
    | unset => exact handled_error hdel
    | fin =>
      cases st with
      | fin proposal =>
        refine Progress.handled (.closed parts proposal ?_ ?_ ?_)
        · exact ⟨hfed.buffered, hfed.received_concat hm, numbers_concat hfed.numbers hnumber, rfl,
            hfed.accepted, hfed.height⟩
        · rw [map_append, hbodies, map_singleton, hbody]
        · rw [hdel]
          rfl
      | _ => exact handled_error hdel
    | content content =>
      cases content with
      | none => exact handled_error hdel
      | some p =>
        cases hp : onEvent T st p with
        | panic => exact absurd hp (hT m hm p hbody st)
        | error =>
          simp only [processProposalPart, hp]
          exact handled_error hdel
        | ok st' =>
          simp only [processProposalPart, hp]
          have htake := hfed.take hm hnumber hp
          have hmap : (s.processed ++ [m]).map Message.body = (parts ++ [p]).map
              fun p => .content (some p) := by
            rw [map_append, map_append, hbodies, map_singleton, hbody, map_singleton]
          have hlen : (s.processed ++ [m]).length = s.processed.length + 1 := length_append
          cases hlookup : s.messages.lookup s.nextSequenceNumber with
          | none =>
            exact Progress.handled (.opened (parts ++ [p]) st' htake (by rw [hlen]; exact hnext) hmap hdel)
          | some next =>
            obtain ⟨hnumber', hnext'⟩ := hfed.buffered _ _ hlookup
            have herase := GoMap.length_erase hlookup
            have hless : (s.messages.erase s.nextSequenceNumber).entries.length < fuel := by omega
            refine ih { htake with buffered := ?_ } ?_ hmap hdel hnext' (by rw [hnumber', hlen, hnext]) hless
            · exact fun n m' hm' => hfed.buffered n m' (GoMap.lookup_erase_eq_some.mp hm').2
            · rw [hlen, hnext]

/-- **What a stream does with a message**, unless the message is a second stream fin: it does not panic, has
delivered at most one proposal, which is made of the messages received in the order of their numbers, and
goes on if there was no error. -/
theorem Progress.processMessages (h : Progress T received height s) (hT : NoPanic T received)
    (hm : m ∈ received) (hfin : s.nextSequenceNumber = m.sequenceNumber → m.body = .fin → s.delivered = []) :
    Handled T received height (s.processMessages T m) := by
  rw [Stream.processMessages]
  split_ifs with hnumber
  · -- too early or too late: the message is put aside
    have hbuffered : ∀ {parts : List (Part X)} {st : State D B R}, Fed T received height s parts st →
        Fed T received height { s with messages := s.messages.insert m.sequenceNumber m } parts st := by
      intro parts st hfed
      refine { hfed with buffered := fun n m' hm' => ?_ }
      rcases GoMap.lookup_insert_eq_some.mp hm' with ⟨rfl, rfl⟩ | ⟨-, hm'⟩
      · exact ⟨rfl, hm⟩
      · exact hfed.buffered n m' hm'
    cases h with
    | opened parts st fed next bodies delivered =>
      exact Progress.handled (.opened parts st (hbuffered fed) next bodies delivered)
    | closed parts proposal fed bodies delivered =>
      exact Progress.handled (.closed parts proposal (hbuffered fed) bodies delivered)
  · have hnumber' := not_ne_iff.mp hnumber
    cases h with
    | opened parts st fed next bodies delivered =>
      refine processLoop_handled hT _ { fed with } ?_ bodies delivered hm ?_ (Nat.lt_succ_self _)
      · rw [next]
      · rw [← hnumber', next]
    | closed parts proposal fed bodies delivered =>
      have hkept : Kept T received height s := (Progress.closed parts proposal fed bodies delivered).kept
      rw [Stream.processLoop, fed.machine]
      cases hbody : m.body with
      | unset => exact Kept.handled { hkept with }
      | fin =>
        rw [hfin hnumber' hbody] at delivered
        exact absurd delivered.symm (cons_ne_nil _ _)
      | content content =>
        cases content with
        | none => exact Kept.handled { hkept with }
        | some p =>
          have hp : onEvent T (.fin proposal) p = .error := by cases p <;> rfl
          simp only [processProposalPart, hp]
          exact Kept.handled { hkept with }

/-! ### More messages -/

section

variable {received' : List (Message X)}

theorem Delivered.mono {proposal : Proposal D R} {ms : List (Message X)}
    (h : Delivered T received proposal ms parts) (hsub : received ⊆ received') :
    Delivered T received' proposal ms parts :=
  { h with received := fun m hm => hsub (h.received m hm) }

theorem Kept.mono (h : Kept T received height s) (hsub : received ⊆ received') :
    Kept T received' height s := by
  refine ⟨fun p hp => ?_, h.once⟩
  obtain ⟨hheight, ms, parts, hd⟩ := h.sound p hp
  exact ⟨hheight, ms, parts, hd.mono hsub⟩

theorem Fed.mono (h : Fed T received height s parts st) (hsub : received ⊆ received') :
    Fed T received' height s parts st :=
  ⟨fun n m hm => ⟨(h.buffered n m hm).1, hsub (h.buffered n m hm).2⟩, fun m hm => hsub (h.received m hm),
    h.numbers, h.machine, h.accepted, h.height⟩

theorem Progress.mono (h : Progress T received height s) (hsub : received ⊆ received') :
    Progress T received' height s := by
  cases h with
  | opened parts st fed next bodies delivered => exact .opened parts st (fed.mono hsub) next bodies delivered
  | closed parts proposal fed bodies delivered =>
    exact .closed parts proposal (fed.mono hsub) bodies delivered

end

/-- What was delivered stays delivered, and a stream stays started. -/
theorem processLoop_keeps (fuel : ℕ) (s : Stream X D B R) (m : Message X) :
    s.delivered <+: (Stream.processLoop T fuel s m).1.delivered ∧
      (Stream.processLoop T fuel s m).1.started = s.started := by
  fun_induction Stream.processLoop T fuel s m
  -- the next message is taken up
  case case3 ih => exact ih
  -- the proposal is delivered
  case case6 => exact ⟨prefix_append _ _, rfl⟩
  all_goals exact ⟨prefix_rfl, rfl⟩

theorem processMessages_keeps (s : Stream X D B R) (m : Message X) :
    s.delivered <+: (s.processMessages T m).1.delivered ∧ (s.processMessages T m).1.started = s.started := by
  rw [Stream.processMessages]
  split_ifs
  · exact ⟨prefix_rfl, rfl⟩
  · exact processLoop_keeps _ { s with nextSequenceNumber := s.nextSequenceNumber + 1 } m

/-- What a first message does to a new stream: it begins a proposal, or it is refused, or it panics. -/
theorem start_cases (T : Transition X D B R) (m : Message X) :
    (∃ p header, m.body = .content (some p) ∧
      onEvent T .initial p = .ok (.awaitingBlockInfoOrCommitment header) ∧
        Stream.new.start T m =
          (⟨some (.awaitingBlockInfoOrCommitment header), ∅, 1, true, [m], []⟩, .ok header.height)) ∨
      (∃ sm, Stream.new.start T m = (⟨sm, ∅, 0, false, [], []⟩, .error) ∧ (sm = none ∨ sm = some .initial)) ∨
      ∃ p, m.body = .content (some p) ∧ onEvent T .initial p = .panic ∧
        (Stream.new.start T m).2 = .panic := by
  rw [Stream.start]
  cases hbody : m.body with
  | unset | fin => exact .inr (.inl ⟨_, rfl, .inr rfl⟩)
  | content content =>
    cases content with
    | none => exact .inr (.inl ⟨_, rfl, .inr rfl⟩)
    | some p =>
      cases hp : onEvent T .initial p with
      | panic => exact .inr (.inr ⟨p, rfl, hp, by simp only [processProposalPart, Stream.new, hp]⟩)
      | error =>
        simp only [processProposalPart, Stream.new, hp]
        exact .inr (.inl ⟨_, rfl, .inl rfl⟩)
      | ok st =>
        simp only [processProposalPart, Stream.new, hp]
        cases p with
        | init x =>
          obtain ⟨header, -, rfl⟩ := Outcome.map_eq_ok hp
          exact .inl ⟨_, header, rfl, hp, rfl⟩
        | _ => cases hp

theorem start_new (hm : m ∈ received) {h : ℕ} (hstart : (Stream.new.start T m).2 = .ok h)
    (hnumber : m.sequenceNumber = 0) :
    (Stream.new.start T m).1.started = true ∧ (Stream.new.start T m).1.delivered = [] ∧
      Progress T received h (Stream.new.start T m).1 := by
  rcases start_cases T m with ⟨p, header, hbody, hp, heq⟩ | ⟨sm, heq, -⟩ | ⟨p, -, -, heq⟩
  · rw [heq] at hstart ⊢
    have hnil : feed T ([] : List (Part X)) = .ok .initial := rfl
    refine ⟨rfl, rfl, .opened [p] _ ⟨fun n m' hm' => (by cases hm'), forall_mem_singleton.mpr hm, ?_, rfl,
      feed_concat hnil hp, header, rfl, Outcome.ok.inj hstart⟩ rfl ?_ rfl⟩
    · rw [map_singleton, hnumber]
      rfl
    · rw [map_singleton, hbody, map_singleton]
  · rw [heq] at hstart
    cases hstart
  · rw [heq] at hstart
    cases hstart

variable {s' : Stream X D B R}

/-- A first message that is refused leaves the stream new, or without a machine. -/
theorem start_refused (hT : NoPanic T received) (hm : m ∈ received) {v : Outcome ℕ}
    (hstart : Stream.new.start T m = (s', v)) :
    v ≠ .panic ∧
      (v = .error → s'.started = false ∧ s'.delivered = [] ∧ (s'.stateMachine = none ∨ s' = Stream.new)) := by
  rcases start_cases T m with ⟨p, header, -, -, heq⟩ | ⟨sm, heq, hsm⟩ | ⟨p, hbody, hp, -⟩
  · cases heq.symm.trans hstart
    exact ⟨by simp, by simp⟩
  · cases heq.symm.trans hstart
    exact ⟨by simp, fun _ => ⟨rfl, rfl, hsm.imp_right fun hsm => by rw [hsm]; rfl⟩⟩
  · exact absurd hp (hT m hm p hbody .initial)

theorem consume_concat (h : s.consume T l = (s', .ok ())) (m : Message X) :
    s.consume T (l ++ [m]) = s'.processMessages T m := by
  induction l generalizing s with
  | nil =>
    cases h
    rw [nil_append, Stream.consume]
    rcases s'.processMessages T m with ⟨s₁, v⟩
    cases v <;> rfl
  | cons m' l ih =>
    rw [Stream.consume] at h
    rw [cons_append, Stream.consume]
    rcases hr : s.processMessages T m' with ⟨s₁, v⟩
    rw [hr] at h
    cases v with
    | ok u => exact ih h
    | error => cases h
    | panic => cases h

/-! ### The order of arrival -/

/-- Each part of an accepted list is accepted where it stands. -/
theorem feed_take {final : State D B R} (h : feed T ps = .ok final) {n : ℕ} (hp : ps[n]? = some p)
    (hst : feed T (ps.take n) = .ok st) :
    ∃ st', onEvent T st p = .ok st' ∧ feed T (ps.take (n + 1)) = .ok st' := by
  have hn := (List.getElem?_eq_some_iff.mp hp).1
  have hsucc : ps.take (n + 1) = ps.take n ++ [p] := by
    rw [List.take_add_one, hp]
    rfl
  rw [← take_append_drop (n + 1) ps] at h
  obtain ⟨st', hst', -⟩ := feedFrom_append.mp h
  obtain ⟨st₁, hst₁, hone⟩ := feedFrom_append.mp (hsucc ▸ hst')
  obtain rfl := Outcome.ok.inj (hst.symm.trans hst₁)
  obtain ⟨st₂, hevent, hnil⟩ := feedFrom_cons_eq_ok.mp hone
  exact ⟨st', hevent.trans hnil, hst'⟩

variable {A : Message X → Prop} {first : Message X} {rest : List (Message X)}

section

variable {ms : List (Message X)} {parts : List (Part X)} {proposal : Proposal D R}

section

variable (h : Delivered T received proposal ms parts)
include h

theorem Delivered.length_eq : ms.length = parts.length + 1 := by
  have := congrArg length h.bodies
  rwa [length_map, length_append, length_map, length_singleton] at this

theorem Delivered.getElem? (hm : m ∈ ms) : ms[m.sequenceNumber]? = some m := by
  obtain ⟨i, hi⟩ := List.mem_iff_getElem?.mp hm
  have hnumber : (ms.map Message.sequenceNumber)[i]? = some m.sequenceNumber := by
    rw [List.getElem?_map, hi]; rfl
  rw [h.numbers] at hnumber
  have hlt := (List.getElem?_eq_some_iff.mp hi).1
  rw [getElem?_range hlt, Option.some.injEq] at hnumber
  rwa [← hnumber]

theorem Delivered.lt (hm : m ∈ ms) : m.sequenceNumber < ms.length :=
  (List.getElem?_eq_some_iff.mp (h.getElem? hm)).1

theorem Delivered.eq_of_number {m' : Message X} (hm : m ∈ ms)
    (hm' : m' ∈ ms) (hn : m.sequenceNumber = m'.sequenceNumber) : m = m' := by
  have h1 := h.getElem? hm
  rw [hn, h.getElem? hm', Option.some.injEq] at h1
  exact h1.symm

end

theorem Delivered.number_ne_zero (h : Delivered T received proposal (first :: rest) parts)
    (hm : m ∈ rest) : m.sequenceNumber ≠ 0 := by
  have hnumbers := h.numbers
  rw [map_cons, length_cons, range_succ_eq_map, cons.injEq] at hnumbers
  have hmem : m.sequenceNumber ∈ rest.map Message.sequenceNumber := mem_map_of_mem hm
  rw [hnumbers.2] at hmem
  obtain ⟨n, -, hn⟩ := mem_map.mp hmem
  rw [← hn]
  exact Nat.succ_ne_zero n

theorem Delivered.body_eq (h : Delivered T received proposal ms parts) (hm : m ∈ ms) :
    (m.sequenceNumber = parts.length ∧ m.body = .fin) ∨
      ∃ p, parts[m.sequenceNumber]? = some p ∧ m.body = .content (some p) := by
  have hbody : (ms.map Message.body)[m.sequenceNumber]? = some m.body := by
    rw [getElem?_map, h.getElem? hm]
    rfl
  rw [h.bodies] at hbody
  have hlt := h.lt hm
  rw [h.length_eq] at hlt
  rcases Nat.lt_or_ge m.sequenceNumber parts.length with hless | hge
  · rw [getElem?_append_left (by rw [length_map]; exact hless), getElem?_map] at hbody
    obtain ⟨p, hp, hpb⟩ := Option.map_eq_some_iff.mp hbody
    exact .inr ⟨p, hp, hpb.symm⟩
  · have heq : m.sequenceNumber = parts.length := by omega
    rw [heq, getElem?_append_right (by rw [length_map]), length_map, Nat.sub_self] at hbody
    exact .inl ⟨heq, (Option.some.inj hbody).symm⟩

/-- A stream some of whose messages have arrived: it has taken up as many as it can. -/
structure Arrived (T : Transition X D B R) (ms : List (Message X)) (parts : List (Part X))
    (proposal : Proposal D R)
    (A : Message X → Prop) (s : Stream X D B R) : Prop where
  mem : ∀ m, A m → m ∈ ms
  before : ∀ m ∈ ms, m.sequenceNumber < s.nextSequenceNumber → A m
  next : ∀ m, A m → m.sequenceNumber ≠ s.nextSequenceNumber
  /-- Those after it are kept under their numbers. -/
  buffered : ∀ n m, s.messages.lookup n = some m ↔ A m ∧ m.sequenceNumber = n ∧ s.nextSequenceNumber ≤ n
  /-- The machine has been fed the parts before. -/
  machine : ∃ st, s.stateMachine = some st ∧ feed T (parts.take s.nextSequenceNumber) = .ok st
  /-- The stream has delivered if it is at its end. -/
  delivered : (s.nextSequenceNumber < ms.length ∧ s.delivered = []) ∨
    (s.nextSequenceNumber = ms.length ∧ s.delivered = [proposal])

section

variable (hd : Delivered T ms proposal ms parts)
include hd

/-- The loop goes as far as the arrived messages reach. -/
theorem processLoop_arrived (fuel : ℕ) (hmem : ∀ m, A m → m ∈ ms) (hA : A m)
    (hnext : s.nextSequenceNumber = m.sequenceNumber + 1)
    (hbefore : ∀ m' ∈ ms, m'.sequenceNumber < m.sequenceNumber → A m')
    (hbuffered : ∀ n m', s.messages.lookup n = some m' ↔ A m' ∧ m'.sequenceNumber = n ∧
      s.nextSequenceNumber ≤ n)
    (hmachine : s.stateMachine = some st) (hfeed : feed T (parts.take m.sequenceNumber) = .ok st)
    (hdel : s.delivered = []) (hfuel : s.messages.entries.length < fuel) :
    (Stream.processLoop T fuel s m).2 = .ok () ∧
      Arrived T ms parts proposal A (Stream.processLoop T fuel s m).1 := by
  induction fuel generalizing s m st with
  | zero => exact absurd hfuel (Nat.not_lt_zero _)
  | succ fuel ih =>
    have hlt := hd.lt (hmem m hA)
    have hbelow : ∀ m' ∈ ms, m'.sequenceNumber < s.nextSequenceNumber → A m' := by
      intro m' hm' hless
      rcases Nat.lt_or_ge m'.sequenceNumber m.sequenceNumber with h | h
      · exact hbefore m' hm' h
      · rwa [hd.eq_of_number hm' (hmem m hA) (by omega)]
    rw [Stream.processLoop, hmachine]
    rcases hd.body_eq (hmem m hA) with ⟨hlast, hbody⟩ | ⟨p, hp, hbody⟩
    · rw [hlast, take_length, hd.accepted, Outcome.ok.injEq] at hfeed
      subst hfeed
      rw [hbody]
      have hlen := hd.length_eq
      refine ⟨rfl, hmem, hbelow, ?_, hbuffered, ⟨_, rfl, ?_⟩, .inr ⟨by rw [hlen, ← hlast]; exact hnext, ?_⟩⟩
      · intro m' hm'
        have := hd.lt (hmem m' hm')
        simp only
        omega
      · rw [take_of_length_le (by simp only; omega)]
        exact hd.accepted
      · rw [hdel]
        rfl
    · obtain ⟨st', hevent, hfeed'⟩ := feed_take hd.accepted hp hfeed
      rw [hbody]
      simp only [processProposalPart, hevent]
      cases hlookup : s.messages.lookup s.nextSequenceNumber with
      | none =>
        have hlen := hd.length_eq
        have hpart := (List.getElem?_eq_some_iff.mp hp).1
        refine ⟨rfl, hmem, hbelow, ?_, hbuffered, ⟨st', rfl, ?_⟩, .inl ⟨?_, hdel⟩⟩
        · intro m' hm' heq
          have hsome := (hbuffered s.nextSequenceNumber m').mpr ⟨hm', heq, le_rfl⟩
          rw [hlookup] at hsome
          cases hsome
        · simp only [hnext]
          exact hfeed'
        · simp only [hnext]
          omega
      | some next =>
        obtain ⟨hnextA, hnumber, -⟩ := (hbuffered _ _).mp hlookup
        have herase := GoMap.length_erase hlookup
        have hless : (s.messages.erase s.nextSequenceNumber).entries.length < fuel := by omega
        refine ih hnextA (by rw [hnumber]) (by rw [hnumber]; exact hbelow) ?_ rfl ?_ hdel hless
        · intro n m'
          rw [GoMap.lookup_erase_eq_some, hbuffered]
          constructor
          · rintro ⟨hne, h1, h2, h3⟩
            exact ⟨h1, h2, Nat.lt_of_le_of_ne h3 hne.symm⟩
          · rintro ⟨h1, h2, h3⟩
            exact ⟨Nat.ne_of_gt h3, h1, h2, Nat.le_of_succ_le h3⟩
        · rw [hnumber, hnext]
          exact hfeed'

theorem Arrived.processMessages (h : Arrived T ms parts proposal A s) (hm : m ∈ ms) (hnew : ¬ A m) :
    (s.processMessages T m).2 = .ok () ∧
      Arrived T ms parts proposal (fun m' => A m' ∨ m' = m) (s.processMessages T m).1 := by
  have hmem : ∀ m', A m' ∨ m' = m → m' ∈ ms := by
    rintro m' (hm' | rfl)
    · exact h.mem m' hm'
    · exact hm
  have hge : s.nextSequenceNumber ≤ m.sequenceNumber := by
    by_contra hlt
    exact hnew (h.before m hm (by omega))
  rw [Stream.processMessages]
  split_ifs with hnumber
  · refine ⟨rfl, hmem, fun m' hm' hlt => .inl (h.before m' hm' hlt), ?_, ?_, h.machine, h.delivered⟩
    · rintro m' (hm' | rfl)
      · exact h.next m' hm'
      · exact hnumber.symm
    · intro n m'
      rw [GoMap.lookup_insert_eq_some, h.buffered]
      constructor
      · rintro (⟨rfl, rfl⟩ | ⟨-, hm', heq, hle⟩)
        · exact ⟨.inr rfl, rfl, hge⟩
        · exact ⟨.inl hm', heq, hle⟩
      · rintro ⟨hm', rfl, hle⟩
        rcases eq_or_ne m'.sequenceNumber m.sequenceNumber with heq | hne
        · exact .inl ⟨heq, hd.eq_of_number hm (hmem m' hm') heq.symm⟩
        · exact .inr ⟨hne, hm'.resolve_right fun heq => hne (by rw [heq]), rfl, hle⟩
  · have hnumber' := not_ne_iff.mp hnumber
    obtain ⟨st, hmachine, hfeed⟩ := h.machine
    have hopen : s.delivered = [] := by
      rcases h.delivered with ⟨-, hdel⟩ | ⟨hend, -⟩
      · exact hdel
      · have := hd.lt hm
        omega
    refine processLoop_arrived hd _ hmem (.inr rfl) (by rw [hnumber']) ?_ ?_ hmachine
      (by rw [← hnumber']; exact hfeed)
      hopen (Nat.lt_succ_self _)
    · intro m' hm' hlt
      exact .inl (h.before m' hm' (by omega))
    · intro n m'
      simp only
      rw [h.buffered]
      constructor
      · rintro ⟨hm', heq, hle⟩
        have := h.next m' hm'
        exact ⟨.inl hm', heq, by omega⟩
      · rintro ⟨hm' | rfl, heq, hle⟩
        · exact ⟨hm', heq, by omega⟩
        · omega

theorem Arrived.consume (h : Arrived T ms parts proposal A s) (hmem : ∀ m ∈ l, m ∈ ms)
    (hnew : ∀ m ∈ l, ¬ A m) (hnodup : l.Nodup) :
    (s.consume T l).2 = .ok () ∧ Arrived T ms parts proposal (fun m => A m ∨ m ∈ l) (s.consume T l).1 := by
  induction l generalizing s A with
  | nil =>
    refine ⟨rfl, ?_⟩
    simpa only [not_mem_nil, or_false, Stream.consume] using h
  | cons m l ih =>
    rw [forall_mem_cons] at hmem hnew
    rw [nodup_cons] at hnodup
    obtain ⟨hok, harrived⟩ := h.processMessages hd hmem.1 hnew.1
    rw [Stream.consume]
    cases hres : s.processMessages T m with
    | mk s' v =>
      rw [hres] at hok harrived
      cases hok
      have hrest := ih harrived hmem.2 (fun m' hm' => ?_) hnodup.2
      · simpa only [mem_cons, or_assoc] using hrest
      · rintro (hA | rfl)
        · exact hnew.2 m' hm' hA
        · exact hnodup.1 hm'

end

theorem start_arrived (hd : Delivered T (first :: rest) proposal (first :: rest) parts) :
    (Stream.new.start T first).2 = .ok proposal.1.height ∧
      Arrived T (first :: rest) parts proposal (fun m => m = first) (Stream.new.start T first).1 := by
  have hfirst : first.sequenceNumber = 0 := by
    have hget := hd.numbers
    rw [map_cons, length_cons, range_succ_eq_map] at hget
    exact (cons.inj hget).1
  obtain ⟨x, ps, rfl⟩ : ∃ x ps, parts = .init x :: ps := by
    cases hd.proposed with
    | empty i | full i => exact ⟨i, _, rfl⟩
  have hbody : first.body = .content (some (.init x)) := by
    rcases hd.body_eq mem_cons_self with ⟨hlast, -⟩ | ⟨p, hp, hbody⟩
    · rw [hfirst, length_cons] at hlast
      omega
    · rw [hfirst, getElem?_cons_zero, Option.some.injEq] at hp
      rw [hbody, ← hp]
  obtain ⟨st, hevent, hfeed⟩ : ∃ st, onEvent T .initial (.init x) = .ok st ∧ feed T [.init x] = .ok st :=
    feed_take (n := 0) hd.accepted rfl rfl
  obtain ⟨header, -, rfl⟩ := Outcome.map_eq_ok hevent
  have hheader : proposal.1 = header := by
    have hrest := hd.accepted
    rw [feed, ← singleton_append] at hrest
    obtain ⟨st₁, hst₁, hrest⟩ := feedFrom_append.mp hrest
    obtain rfl := Outcome.ok.inj (hfeed.symm.trans hst₁)
    exact Option.some.inj ((feedFrom_stage (feed_shape hfeed) hrest).2 header rfl)
  have hlen := hd.length_eq
  rw [length_cons, length_cons] at hlen
  rw [Stream.start, hbody]
  simp only [processProposalPart, Stream.new, hevent]
  refine ⟨by rw [hheader], ?_, ?_, ?_, ?_, ⟨_, rfl, hfeed⟩, .inl ⟨?_, rfl⟩⟩
  · rintro m rfl
    exact mem_cons_self
  · intro m hm hlt
    exact hd.eq_of_number hm mem_cons_self (by rw [hfirst]; simp only at hlt; omega)
  · rintro m rfl
    rw [hfirst]
    exact Nat.zero_ne_one
  · intro n m
    rw [AList.lookup_empty]
    simp only [reduceCtorEq, false_iff, not_and]
    rintro rfl heq
    omega
  · simp only [length_cons]
    omega

/-- **The order of arrival does not matter**: the messages of a well-formed stream, in any order after the
first, deliver its proposal and nothing else. -/
theorem consume_perm (hd : Delivered T (first :: rest) proposal (first :: rest) parts)
    (hl : l.Perm rest) : ((Stream.new.start T first).1.consume T l).2 = .ok () ∧
      ((Stream.new.start T first).1.consume T l).1.delivered = [proposal] := by
  have hnodup : (first :: rest).Nodup := by
    have hrange : ((first :: rest).map Message.sequenceNumber).Nodup := by
      rw [hd.numbers]
      exact nodup_range
    exact Nodup.of_map _ hrange
  rw [nodup_cons] at hnodup
  have hmem : ∀ m, m ∈ l ↔ m ∈ rest := fun m => hl.mem_iff
  obtain ⟨hok, harrived⟩ := (start_arrived hd).2.consume hd (fun m hm => mem_cons_of_mem _ ((hmem m).mp hm))
    (fun m hm heq => hnodup.1 (by rw [← heq]; exact (hmem m).mp hm)) (hl.nodup_iff.mpr hnodup.2)
  refine ⟨hok, ?_⟩
  rcases harrived.delivered with ⟨hlt, -⟩ | ⟨-, hdel⟩
  · -- every message has arrived, so none is still awaited
    obtain ⟨m, hm⟩ : ∃ m, (first :: rest)[((Stream.new.start T first).1.consume T l).1.nextSequenceNumber]? =
        some m :=
      ⟨_, getElem?_eq_getElem hlt⟩
    have hmem' := mem_of_getElem? hm
    have hnumber : m.sequenceNumber = ((Stream.new.start T first).1.consume T l).1.nextSequenceNumber := by
      have hmap :=
        congrArg (fun k => k[((Stream.new.start T first).1.consume T l).1.nextSequenceNumber]?) hd.numbers
      simp only [getElem?_map, hm, Option.map_some, getElem?_range hlt, Option.some.injEq] at hmap
      exact hmap
    refine absurd hnumber (harrived.next m ?_)
    rcases mem_cons.mp hmem' with h | h
    · exact .inl h
    · exact .inr ((hmem m).mpr h)
  · exact hdel

end

end Juno.Validator
