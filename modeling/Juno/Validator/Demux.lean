import Juno.Validator.Stream

/-!
# The demultiplexer of proposal streams

`proposalStreamDemux`: the messages of all streams come in one after the other and are handed
to the stream they belong to. The first message of a stream tells its height; the streams of
the current height run, those of later heights wait, and when a height is committed its
streams are stopped and thrown away.

## The model

* `Demux` — the streams by their ids, the ids by their heights, the current height and what has
  been delivered. A stream's input channel is a list without a bound: a run in which the
  demultiplexer waits for room is one in which the message comes later.
* `Event` — a message is received, a height is committed, or the goroutine of a stream takes a
  message from its channel. The goroutines run concurrently with each other and with the
  demultiplexer; they share nothing but the output channel.
* `received` records the messages received for each id, and `log` those that a stream was given
  (`step_record`).

The main result is `runs_deliver_once`.
-/

namespace Juno.Validator

open Juno.Lib List Function Option

variable {I X D B R : Type} {currentHeight height : ℕ}

structure Entry (X D B R : Type) where
  /-- The `proposalStream`. -/
  stream : Stream X D B R
  input : List (Message X)
  running : Bool
  /-- Its height, once it has started. -/
  height : ℕ
  /-- The messages it was given since it was made. -/
  log : List (Message X)

structure Demux (I X D B R : Type) where
  streams : I → Option (Entry X D B R)
  /-- `streamHeights`; a height without an entry has no ids. -/
  streamHeights : ℕ → List I
  currentHeight : ℕ
  /-- What has been sent to `outputs`, with the stream it comes from. -/
  outputs : List (I × Proposal D R)
  received : I → List (Message X)
  panicked : Bool

inductive Event (I X : Type) where
  /-- A message is received. Data that is not a stream message has no effect. -/
  | receive (id : I) (message : Message X)
  | commit (height : ℕ)
  /-- The goroutine of a stream takes a message from its channel. -/
  | loop (id : I)

/-- `NewProposalStreamDemux`. -/
def Demux.new (currentHeight : ℕ) : Demux I X D B R :=
  ⟨fun _ => none, fun _ => [], currentHeight, [], fun _ => [], false⟩

/-- A new stream, as `getStream` makes one. -/
def Entry.new : Entry X D B R := ⟨Stream.new, [], false, 0, []⟩

section

variable (T : Transition X D B R) [DecidableEq I] (d : Demux I X D B R) (id : I)

def Demux.getStream : Entry X D B R := (d.streams id).getD Entry.new

variable (e : Entry X D B R)

def Demux.setStream : Demux I X D B R :=
  { d with streams := Function.update d.streams id (some e) }

variable (message : Message X)

def Demux.onFirstMessage : Demux I X D B R :=
  if e.stream.started then d.setStream id e
  else
    match e.stream.start T message with
    | (s, .error) => d.setStream id { e with stream := s }
    | (s, .panic) => { d.setStream id { e with stream := s } with panicked := true }
    | (s, .ok height) =>
      if height < d.currentHeight then d.setStream id { e with stream := s, height := height }
      else
        { d.setStream id
            { e with stream := s, height := height, running := decide (height = d.currentHeight) } with
          streamHeights := Function.update d.streamHeights height (d.streamHeights height ++ [id]) }

def Demux.onSubsequentMessage : Demux I X D B R :=
  d.setStream id { e with input := e.input ++ [message] }

def Entry.given : Entry X D B R := { e with log := e.log ++ [message] }

def Demux.record : Demux I X D B R :=
  { d with received := Function.update d.received id (d.received id ++ [message]) }

def Demux.processStreamMessage : Demux I X D B R :=
  if message.sequenceNumber = 0 then
    (d.record id message).onFirstMessage T id ((d.getStream id).given message) message
  else (d.record id message).onSubsequentMessage id ((d.getStream id).given message) message

/-- The loop of `stop`: the input of a stream that is not there cannot be closed. -/
def Demux.closeStreams (d : Demux I X D B R) : List I → Demux I X D B R
  | [] => d
  | id :: ids =>
    match d.streams id with
    | none => { d with panicked := true }
    | some _ => Demux.closeStreams { d with streams := Function.update d.streams id none } ids

/-- `stop`: the goroutines of the current height have ended; their streams are deleted. -/
def Demux.stop : Demux I X D B R :=
  let d' := d.closeStreams (d.streamHeights d.currentHeight)
  { d' with streamHeights := Function.update d'.streamHeights d'.currentHeight [] }

/-- The loop of `processCommit`: the goroutines of the streams of a height are started. -/
def Demux.startStreams (d : Demux I X D B R) : List I → Demux I X D B R
  | [] => d
  | id :: ids =>
    match d.streams id with
    | none => { d with panicked := true }
    | some e => Demux.startStreams (d.setStream id { e with running := true }) ids

def Demux.processCommit (height : ℕ) : Demux I X D B R :=
  if height ≠ d.currentHeight then d
  else Demux.startStreams { d with currentHeight := d.currentHeight + 1 }
    (d.streamHeights (d.currentHeight + 1))

/-- One turn of a stream's `loop`: an error ends the goroutine. -/
def Demux.loop : Demux I X D B R :=
  match d.streams id with
  | none => d
  | some e =>
    match e.running, e.input with
    | true, m :: ms =>
      let r := e.stream.processMessages T m
      let d := { d with
        outputs := d.outputs ++ (r.1.delivered.drop e.stream.delivered.length).map fun p => (id, p) }
      match r.2 with
      | .ok () => d.setStream id { e with stream := r.1, input := ms }
      | .error => d.setStream id { e with stream := r.1, input := ms, running := false }
      | .panic => { d with panicked := true }
    | _, _ => d

def Demux.step : Event I X → Demux I X D B R
  | .receive id message => d.processStreamMessage T id message
  | .commit height => d.stop.processCommit height
  | .loop id => d.loop T id

def Demux.run (events : List (Event I X)) : Demux I X D B R := events.foldl (Demux.step T) d

end

/-! ### What is recorded -/

/-- Streams are deleted or go on, and nothing is recorded. -/
structure Silent (d d' : Demux I X D B R) : Prop where
  log : ∀ id e', d'.streams id = some e' → ∃ e, d.streams id = some e ∧ e'.log = e.log
  received : d'.received = d.received

theorem Silent.of_eq {d d' : Demux I X D B R} (hs : d'.streams = d.streams) (hr : d'.received = d.received) :
    Silent d d' :=
  ⟨fun _ e he => ⟨e, hs ▸ he, rfl⟩, hr⟩

theorem Silent.trans {d d' d'' : Demux I X D B R} (h : Silent d d') (h' : Silent d' d'') : Silent d d'' := by
  refine ⟨fun id e'' he'' => ?_, h'.received.trans h.received⟩
  obtain ⟨e', he', hlog'⟩ := h'.log id e'' he''
  obtain ⟨e, he, hlog⟩ := h.log id e' he'
  exact ⟨e, he, hlog'.trans hlog⟩

section

variable [DecidableEq I]

def Event.messageFor (id : I) : Event I X → Option (Message X)
  | .receive id' message => if id' = id then some message else none
  | _ => none

/-- The stream of an id is replaced by one with the same log, or deleted. -/
theorem Silent.of_update {d d' : Demux I X D B R} {id : I} {o : Option (Entry X D B R)}
    (ho : ∀ e', o = some e' → ∃ e, d.streams id = some e ∧ e'.log = e.log)
    (hs : d'.streams = Function.update d.streams id o) (hr : d'.received = d.received) : Silent d d' := by
  refine ⟨fun id' e' he' => ?_, hr⟩
  rw [hs, Function.update_apply] at he'
  split_ifs at he' with hid
  · exact hid ▸ ho e' he'
  · exact ⟨e', he', rfl⟩

theorem silent_closeStreams (ids : List I) (d : Demux I X D B R) : Silent d (d.closeStreams ids) := by
  induction ids generalizing d with
  | nil => exact .of_eq rfl rfl
  | cons id ids ih =>
    rw [Demux.closeStreams]
    split
    · exact .of_eq rfl rfl
    · refine Silent.trans ?_ (ih _)
      exact .of_update (o := none) (fun _ h => (by cases h)) rfl rfl

theorem silent_startStreams (ids : List I) (d : Demux I X D B R) : Silent d (d.startStreams ids) := by
  induction ids generalizing d with
  | nil => exact .of_eq rfl rfl
  | cons id ids ih =>
    rw [Demux.startStreams]
    split
    · exact .of_eq rfl rfl
    · next e he =>
      refine Silent.trans ?_ (ih _)
      exact .of_update (fun _ h => ⟨e, he, by cases h; rfl⟩) rfl rfl

theorem silent_commit (d : Demux I X D B R) (height : ℕ) : Silent d (d.stop.processCommit height) := by
  have hclose := silent_closeStreams (d.streamHeights d.currentHeight) d
  have hstop : Silent d d.stop := ⟨hclose.log, hclose.received⟩
  rw [Demux.processCommit]
  split_ifs
  · exact hstop
  · have hstart := silent_startStreams (d.stop.streamHeights (d.stop.currentHeight + 1))
      { d.stop with currentHeight := d.stop.currentHeight + 1 }
    exact hstop.trans ⟨hstart.log, hstart.received⟩

variable (T : Transition X D B R) (d : Demux I X D B R)

theorem silent_loop (id : I) : Silent d (d.loop T id) := by
  rw [Demux.loop]
  split
  · exact .of_eq rfl rfl
  · next e he =>
    split
    · simp only
      split
      · exact .of_update (fun _ h => ⟨e, he, by cases h; rfl⟩) rfl rfl
      · exact .of_update (fun _ h => ⟨e, he, by cases h; rfl⟩) rfl rfl
      · exact .of_eq rfl rfl
    · exact .of_eq rfl rfl

theorem processStreamMessage_streams (id : I) (m : Message X) :
    (d.processStreamMessage T id m).received = (d.record id m).received ∧
      ∃ e, (d.processStreamMessage T id m).streams = Function.update d.streams id (some e) ∧
        e.log = (d.getStream id).log ++ [m] := by
  rw [Demux.processStreamMessage]
  split_ifs
  · rw [Demux.onFirstMessage]
    split_ifs
    · exact ⟨rfl, _, rfl, rfl⟩
    · split
      · exact ⟨rfl, _, rfl, rfl⟩
      · exact ⟨rfl, _, rfl, rfl⟩
      · split_ifs
        · exact ⟨rfl, _, rfl, rfl⟩
        · exact ⟨rfl, _, rfl, rfl⟩
  · exact ⟨rfl, _, rfl, rfl⟩

/-- **What is recorded are the messages that came**: `received` has all of them, and the log of a stream those
since it was made. -/
theorem step_record (event : Event I X) (id : I) :
    (d.step T event).received id = d.received id ++ (event.messageFor id).toList ∧
      ∀ e, (d.step T event).streams id = some e →
        e.log = (d.getStream id).log ++ (event.messageFor id).toList := by
  have hsilent : ∀ {d'}, Silent d d' → d'.received id = d.received id ++ [] ∧
      ∀ e, d'.streams id = some e → e.log = (d.getStream id).log ++ [] := by
    intro d' h
    refine ⟨by rw [h.received, append_nil], fun e he => ?_⟩
    obtain ⟨e₀, he₀, hlog⟩ := h.log id e he
    rw [Demux.getStream, he₀, append_nil, hlog, Option.getD_some]
  cases event with
  | receive id' m =>
    obtain ⟨hreceived, e', hstreams, hlog⟩ := processStreamMessage_streams T d id' m
    have hrecord : (d.record id' m).received = Function.update d.received id' (d.received id' ++ [m]) := rfl
    rw [Demux.step, hreceived, hstreams, Event.messageFor, hrecord]
    by_cases hid : id' = id
    · subst hid
      rw [if_pos rfl, Function.update_self, Function.update_self]
      exact ⟨rfl, fun e he => Option.some.inj he ▸ hlog⟩
    · rw [if_neg hid, Function.update_of_ne (Ne.symm hid), Function.update_of_ne (Ne.symm hid)]
      exact hsilent (.of_eq rfl rfl)
  | commit height => exact hsilent (silent_commit d height)
  | loop id' => exact hsilent (silent_loop T d id')

theorem run_received (events : List (Event I X)) (id : I) :
    (d.run T events).received id = d.received id ++ events.filterMap (Event.messageFor id) := by
  induction events generalizing d with
  | nil => exact (append_nil _).symm
  | cons event events ih =>
    have hstep := (step_record T d event id).1
    refine (ih _).trans ?_
    rw [hstep, append_assoc, filterMap_cons]
    cases event.messageFor id <;> rfl

end

/-! ### The condition -/

section

variable (T : Transition X D B R) [DecidableEq I]

/-- The part that comes with an event makes neither the adapters nor the transition panic. -/
def Event.Calm : Event I X → Prop
  | .receive _ m => ∀ p, m.body = .content (some p) → ∀ st, onEvent T st p ≠ .panic
  | _ => True

/-- A first message does not come to a stream whose first message was refused; commits come in order; and a
stream fin does not come in its turn to a stream that has delivered. -/
def Demux.orderly (d : Demux I X D B R) : Event I X → Bool
  | .receive id m =>
    m.sequenceNumber != 0 || (d.getStream id).stream.started || (d.getStream id).stream.stateMachine.isSome
  | .commit height => height == d.currentHeight
  | .loop id =>
    match d.streams id with
    | none => true
    | some e =>
      match e.running, e.input with
      | true, m :: _ =>
        e.stream.nextSequenceNumber != m.sequenceNumber || !m.body.isFin || e.stream.delivered.isEmpty
      | _, _ => true

/-- **The condition on an event.** -/
def Demux.Admits (d : Demux I X D B R) (event : Event I X) : Prop := event.Calm T ∧ d.orderly event = true

/-- Every event of a list meets the condition where it happens. -/
def Demux.AdmitsAll (d : Demux I X D B R) : List (Event I X) → Prop
  | [] => True
  | e :: es => d.Admits T e ∧ (d.step T e).AdmitsAll es

end

/-! ### The invariant -/

def Entry.sent (e : Entry X D B R) (height : ℕ) : List (Proposal D R) :=
  if e.stream.started = true ∧ e.height = height then e.stream.delivered else []

def Demux.sent (d : Demux I X D B R) (id : I) (height : ℕ) : List (Proposal D R) :=
  (d.streams id).elim [] (Entry.sent · height)

def Demux.outs [DecidableEq I] (d : Demux I X D B R) (id : I) (height : ℕ) : List (I × Proposal D R) :=
  d.outputs.filter fun o => decide (o.1 = id ∧ o.2.1.height = height)

def later (l : List (Message X)) : List (Message X) := l.filter fun m => decide (m.sequenceNumber ≠ 0)

/-- A stream that runs or is yet to run: it has taken up the messages it was given, those left in its channel
apart. -/
structure Alive (T : Transition X D B R) (received : List (Message X)) (e : Entry X D B R) : Prop where
  progress : Progress T received e.height e.stream
  /-- What it has done is what its loop does on what it was given. -/
  replay : ∃ first before after consumed, e.log = before ++ first :: after ∧ first.sequenceNumber = 0 ∧
    (Stream.new.start T first).1.consume T consumed = (e.stream, .ok ()) ∧
    consumed ++ e.input = later (before ++ after)

structure EntryOk (T : Transition X D B R) (received : List (Message X)) (currentHeight : ℕ)
    (e : Entry X D B R) :
    Prop where
  input : ∀ m ∈ e.input, m ∈ received
  /-- Before its first message it does nothing. -/
  idle : e.stream.started = false → e.running = false ∧ e.input = later e.log ∧
    (e.stream.stateMachine = none ∨ e.stream = Stream.new)
  kept : e.stream.started = true → Kept T received e.height e.stream
  running : e.running = true → e.height = currentHeight
  /-- While it runs, and while its height is to come, it has not failed. -/
  alive : e.stream.started = true → e.running = true ∨ currentHeight < e.height → Alive T received e

structure Inv [DecidableEq I] (T : Transition X D B R) (d : Demux I X D B R) : Prop where
  calm : d.panicked = false
  parts : ∀ id, NoPanic T (d.received id)
  entries : ∀ id e, d.streams id = some e → EntryOk T (d.received id) d.currentHeight e
  /-- The ids under a height are those of started streams of that height. -/
  listed : ∀ height, ∀ id ∈ d.streamHeights height, ∃ e, d.streams id = some e ∧ e.stream.started = true ∧
    e.height = height
  nodup : ∀ height, (d.streamHeights height).Nodup
  running : ∀ id e, d.streams id = some e → e.running = true → id ∈ d.streamHeights e.height
  /-- What has been delivered is right. -/
  sound : ∀ o ∈ d.outputs, ∃ messages parts, Delivered T (d.received o.1) o.2 messages parts
  once : ∀ id height, (d.outs id height).length ≤ 1
  /-- From the current height on, what was delivered is what the streams there are delivered. -/
  current : ∀ id height, d.currentHeight ≤ height → d.outs id height = (d.sent id height).map (Prod.mk id)

variable [DecidableEq I] {T : Transition X D B R} {d : Demux I X D B R} {id : I} {e : Entry X D B R}
  {m : Message X}

theorem later_append (l l' : List (Message X)) : later (l ++ l') = later l ++ later l' := filter_append _ _

theorem later_first (hm : m.sequenceNumber = 0) : later [m] = [] := by simp [later, hm]

theorem later_later (hm : m.sequenceNumber ≠ 0) : later [m] = [m] := by simp [later, hm]

variable {received received' : List (Message X)}

theorem Alive.mono (h : Alive T received e) (hsub : received ⊆ received') : Alive T received' e :=
  ⟨h.progress.mono hsub, h.replay⟩

theorem EntryOk.mono (h : EntryOk T received currentHeight e) (hsub : received ⊆ received') :
    EntryOk T received' currentHeight e :=
  { h with
    input := fun m hm => hsub (h.input m hm)
    kept := fun hs => (h.kept hs).mono hsub
    alive := fun hs hr => (h.alive hs hr).mono hsub }

theorem entryOk_new (received : List (Message X)) (currentHeight : ℕ) :
    EntryOk T received currentHeight (Entry.new : Entry X D B R) :=
  ⟨fun _ hm => (by cases hm), fun _ => ⟨rfl, rfl, .inr rfl⟩, fun h => absurd h Bool.false_ne_true,
    fun h => absurd h Bool.false_ne_true, fun h => absurd h Bool.false_ne_true⟩

open Demux

theorem Inv.getStream (h : Inv T d) (id : I) :
    EntryOk T (d.received id) d.currentHeight (d.getStream id) := by
  rw [Demux.getStream]
  cases he : d.streams id with
  | none => exact entryOk_new _ _
  | some e => exact h.entries id e he

omit [DecidableEq I] in
theorem sent_getStream (d : Demux I X D B R) (id : I) (height : ℕ) :
    d.sent id height = (d.getStream id).sent height := by
  rw [sent, getStream]
  cases d.streams id with
  | none => exact (if_neg fun h => Bool.false_ne_true h.1).symm
  | some e => rfl

theorem Inv.listed_getStream (h : Inv T d) (hid : id ∈ d.streamHeights height) :
    (d.getStream id).stream.started = true ∧ (d.getStream id).height = height := by
  obtain ⟨e, he, hs, hheight⟩ := h.listed height id hid
  rw [Demux.getStream, he]
  exact ⟨hs, hheight⟩

theorem Inv.listed_some (h : Inv T d) (hid : id ∈ d.streamHeights height)
    (he : d.streams id = some e) : e.stream.started = true ∧ e.height = height := by
  have hlisted := h.listed_getStream hid
  rwa [Demux.getStream, he] at hlisted

theorem EntryOk.started (h : EntryOk T received currentHeight e) (hr : e.running = true) :
    e.stream.started = true := by
  rw [← Bool.not_eq_false]
  intro hns
  exact absurd ((h.idle hns).1.symm.trans hr) Bool.false_ne_true

theorem Inv.running_getStream (h : Inv T d) (hr : (d.getStream id).running = true) :
    id ∈ d.streamHeights (d.getStream id).height := by
  rw [Demux.getStream] at hr ⊢
  cases he : d.streams id with
  | none =>
    rw [he] at hr
    exact absurd hr Bool.false_ne_true
  | some e =>
    rw [he] at hr
    exact h.running id e he hr

theorem setStream_self : (d.setStream id e).streams id = some e := by
  simp only [setStream, update_self]

theorem setStream_of_ne {id' : I} (h : id' ≠ id) : (d.setStream id e).streams id' = d.streams id' := by
  simp only [setStream, update_of_ne h]

theorem sent_setStream (id' : I) (height : ℕ) :
    (d.setStream id e).sent id' height = if id' = id then e.sent height else d.sent id' height := by
  rw [sent]
  split_ifs with h
  · subst h
    rw [setStream_self]
    rfl
  · rw [setStream_of_ne h]
    rfl

/-- The outputs with those of a turn of a stream's loop. -/
theorem outs_append (d : Demux I X D B R) (id id' : I) (height height' : ℕ) (ps : List (Proposal D R))
    (hps : ∀ p ∈ ps, p.1.height = height) :
    (d.outputs ++ ps.map fun p => (id, p)).filter (fun o => decide (o.1 = id' ∧ o.2.1.height = height')) =
      if id' = id ∧ height' = height then d.outs id' height' ++ ps.map (Prod.mk id)
        else d.outs id' height' := by
  rw [filter_append]
  split_ifs with hcase
  · obtain ⟨rfl, rfl⟩ := hcase
    congr 1
    rw [filter_eq_self]
    intro o ho
    obtain ⟨p, hp, rfl⟩ := mem_map.mp ho
    exact decide_eq_true ⟨rfl, hps p hp⟩
  · have hnil : (ps.map fun p => (id, p)).filter (fun o => decide (o.1 = id' ∧ o.2.1.height = height')) =
        [] := by
      rw [filter_eq_nil_iff]
      intro o ho hyes
      obtain ⟨p, hp, rfl⟩ := mem_map.mp ho
      obtain ⟨hid, hheight⟩ := of_decide_eq_true hyes
      exact hcase ⟨hid.symm, hheight.symm.trans (hps p hp)⟩
    rw [hnil, append_nil]
    rfl

/-- **A stream is replaced** by one in order, with the lists of ids and what it delivered. -/
theorem Inv.replace (h : Inv T d) (ps : List (Proposal D R)) {lists : ℕ → List I}
    (he : EntryOk T (d.received id) d.currentHeight e) (hnodup : ∀ height, (lists height).Nodup)
    (hlists : ∀ height id', id' ≠ id → (id' ∈ lists height ↔ id' ∈ d.streamHeights height))
    (hlisted : ∀ height, id ∈ lists height → e.stream.started = true ∧ e.height = height)
    (hrunning : e.running = true → id ∈ lists e.height)
    (hps : ∀ p ∈ ps, p.1.height = d.currentHeight ∧ ∃ messages parts,
      Delivered T (d.received id) p messages parts)
    (hsent : ∀ height, d.currentHeight ≤ height →
      e.sent height = d.sent id height ++ if height = d.currentHeight then ps else [])
    (honce : (e.sent d.currentHeight).length ≤ 1) :
    Inv T { d.setStream id e with
      streamHeights := lists
      outputs := d.outputs ++ ps.map fun p => (id, p) } := by
  have houts := fun id' height => outs_append d id id' d.currentHeight height ps fun p hp => (hps p hp).1
  have hother : ∀ {id' e'}, id' ≠ id → (d.setStream id e).streams id' = some e' → d.streams id' = some e' :=
    fun hne he' => (setStream_of_ne hne).symm.trans he'
  have hself : ∀ {e'}, (d.setStream id e).streams id = some e' → e' = e :=
    fun he' => (some.inj (setStream_self.symm.trans he')).symm
  refine ⟨h.calm, h.parts, ?_, ?_, hnodup, ?_, ?_, ?_, ?_⟩
  · intro id' e' he'
    rcases eq_or_ne id' id with rfl | hne
    · rw [hself he']
      exact he
    · exact h.entries id' e' (hother hne he')
  · intro height id' hid'
    rcases eq_or_ne id' id with rfl | hne
    · exact ⟨e, setStream_self, hlisted height hid'⟩
    · obtain ⟨e', he', hrest⟩ := h.listed height id' ((hlists height id' hne).mp hid')
      exact ⟨e', (setStream_of_ne hne).trans he', hrest⟩
  · intro id' e' he' hr
    rcases eq_or_ne id' id with rfl | hne
    · rw [hself he'] at hr ⊢
      exact hrunning hr
    · exact (hlists _ id' hne).mpr (h.running id' e' (hother hne he') hr)
  · intro o ho
    rcases mem_append.mp ho with ho | ho
    · exact h.sound o ho
    · obtain ⟨p, hp, rfl⟩ := mem_map.mp ho
      exact (hps p hp).2
  · intro id' height
    refine (congrArg length (houts id' height)).trans_le ?_
    split_ifs with hcase
    · obtain ⟨rfl, rfl⟩ := hcase
      rwa [h.current id' d.currentHeight le_rfl, ← map_append, length_map,
        show d.sent id' d.currentHeight ++ ps = e.sent d.currentHeight by rw [hsent _ le_rfl, if_pos rfl]]
    · exact h.once id' height
  · intro id' height hle
    refine (houts id' height).trans
      (Eq.trans ?_ (congrArg (map (Prod.mk id')) (sent_setStream id' height).symm))
    rw [h.current id' height hle]
    split_ifs with hcase hid hid
    · obtain ⟨rfl, rfl⟩ := hcase
      rw [hsent _ le_rfl, if_pos rfl, map_append]
    · exact absurd hcase.1 hid
    · subst hid
      rw [hsent height hle, if_neg fun heq => hcase ⟨rfl, heq⟩, append_nil]
    · rfl

/-- A stream is replaced by one that is listed, runs and has delivered as the old one. -/
theorem Inv.setStream (h : Inv T d) (he : EntryOk T (d.received id) d.currentHeight e)
    (hlisted : ∀ height, id ∈ d.streamHeights height → e.stream.started = true ∧ e.height = height)
    (hrunning : e.running = true → id ∈ d.streamHeights e.height)
    (hsent : ∀ height, d.currentHeight ≤ height → e.sent height = d.sent id height) :
    Inv T (d.setStream id e) := by
  have honce := h.once id d.currentHeight
  rw [h.current id _ le_rfl, length_map, ← hsent _ le_rfl] at honce
  have key := h.replace [] he h.nodup (fun _ _ _ => Iff.rfl) hlisted hrunning (fun _ hp => by cases hp)
    (fun height hle => by rw [ite_self, append_nil, hsent height hle]) honce
  rw [map_nil, append_nil] at key
  exact key

/-! ### Receiving -/

theorem subset_update (received : I → List (Message X)) (id id' : I) (m : Message X) :
    received id' ⊆ Function.update received id (received id ++ [m]) id' := by
  rcases eq_or_ne id' id with rfl | hne
  · rw [update_self]
    exact subset_append_left _ _
  · rw [update_of_ne hne]
    exact Subset.refl _

theorem mem_record (d : Demux I X D B R) (id : I) (m : Message X) : m ∈ (d.record id m).received id := by
  rw [record]
  simp only [update_self, mem_append, mem_singleton, or_true]

theorem Inv.record (h : Inv T d) (hm : ∀ p, m.body = .content (some p) → ∀ st, onEvent T st p ≠ .panic) :
    Inv T (d.record id m) := by
  refine { h with
    entries := fun id' e he => (h.entries id' e he).mono (subset_update d.received id id' m)
    parts := ?_
    sound := ?_ }
  · intro id' m' hm'
    rcases eq_or_ne id' id with rfl | hne
    · simp only [record, update_self, mem_append, mem_singleton] at hm'
      rcases hm' with hm' | rfl
      · exact h.parts id' m' hm'
      · exact hm
    · simp only [Demux.record, update_of_ne hne] at hm'
      exact h.parts id' m' hm'
  · intro o ho
    obtain ⟨ms, ps, hd⟩ := h.sound o ho
    exact ⟨ms, ps, hd.mono (subset_update d.received id o.1 m)⟩

/-- A stream is given a message, which goes into the channel unless it is a first one. -/
theorem EntryOk.given (h : EntryOk T received currentHeight e) (hmem : m ∈ received) :
    EntryOk T received currentHeight { e.given m with input := e.input ++ later [m] } := by
  refine ⟨?_, fun hs => ?_, h.kept, h.running, fun hs hr => ?_⟩
  · intro m' hm'
    rcases mem_append.mp hm' with hm' | hm'
    · exact h.input m' hm'
    · rwa [mem_singleton.mp (mem_of_mem_filter hm')]
  · obtain ⟨hr, hin, hsm⟩ := h.idle hs
    refine ⟨hr, ?_, hsm⟩
    rw [Entry.given, later_append, hin]
  · have hal := h.alive hs hr
    obtain ⟨first, before, after, consumed, hlog, hfirst, hrun, hin⟩ := hal.replay
    refine ⟨hal.progress, first, before, after ++ [m], consumed, ?_, hfirst, hrun, ?_⟩
    · rw [Entry.given, hlog, append_assoc, cons_append]
    · rw [← append_assoc before, later_append, ← hin, append_assoc]

theorem Inv.onSubsequentMessage (h : Inv T d) (hm : m.sequenceNumber ≠ 0) (hmem : m ∈ d.received id) :
    Inv T (d.onSubsequentMessage id ((d.getStream id).given m) m) := by
  have hgiven := (h.getStream id).given hmem
  rw [later_later hm] at hgiven
  exact h.setStream hgiven (fun _ hid => h.listed_getStream hid)
    (fun hr => h.running_getStream hr) fun height _ => (sent_getStream d id height).symm

theorem EntryOk.begin (h : EntryOk T received currentHeight e) (hm : m.sequenceNumber = 0)
    (hmem : m ∈ received) (hs : e.stream.started = false)
    (hstart : (Stream.new.start T m).2 = .ok height) (running : Bool)
    (hrunning : running = true → height = currentHeight) : EntryOk T received currentHeight
      { e.given m with stream := (Stream.new.start T m).1, height := height, running := running } := by
  obtain ⟨hstarted, hdel, hprog⟩ := start_new hmem hstart hm
  refine ⟨h.input, fun hns => absurd (hstarted.symm.trans hns) (by simp), fun _ => hprog.kept, hrunning,
    fun _ _ => ?_⟩
  refine ⟨hprog, m, e.log, [], [], ?_, hm, rfl, ?_⟩
  · rfl
  · rw [append_nil, nil_append]
    exact (h.idle hs).2.1

theorem sent_of_not_started (h : e.stream.started = false) (height : ℕ) : e.sent height = [] :=
  if_neg fun hs => Bool.false_ne_true (h.symm.trans hs.1)

theorem sent_of_delivered (h : e.stream.delivered = []) (height : ℕ) : e.sent height = [] := by
  rw [Entry.sent, h]
  exact ite_self _

theorem Inv.onFirstMessage (h : Inv T d) (hm : m.sequenceNumber = 0) (hmem : m ∈ d.received id)
    (hmachine : (d.getStream id).stream.started = false → (d.getStream id).stream.stateMachine ≠ none) :
    Inv T (d.onFirstMessage T id ((d.getStream id).given m) m) := by
  have hget := h.getStream id
  rw [Demux.onFirstMessage]
  split_ifs with hs
  · have hgiven := hget.given hmem
    rw [later_first hm, append_nil] at hgiven
    exact h.setStream hgiven (fun _ hid => h.listed_getStream hid)
      (fun hr => h.running_getStream hr) fun height _ => (sent_getStream d id height).symm
  · have hns : (d.getStream id).stream.started = false := Bool.eq_false_iff.mpr hs
    have hnew : (d.getStream id).stream = Stream.new := (hget.idle hns).2.2.resolve_left (hmachine hns)
    have hunlisted : ∀ height, id ∉ d.streamHeights height := fun height hid =>
      hs (h.listed_getStream hid).1
    have hsent : ∀ height, d.sent id height = [] := fun height =>
      (sent_getStream d id height).trans (sent_of_not_started hns height)
    have hgiven : ((d.getStream id).given m).stream = Stream.new := hnew
    rw [hgiven]
    rcases hr : (Stream.new.start T m : Stream X D B R × Outcome ℕ) with ⟨s, v⟩
    obtain ⟨hcalm, hrefused⟩ := start_refused (h.parts id) hmem hr
    cases v with
    | panic => exact absurd rfl hcalm
    | error =>
      obtain ⟨hs', hdel', hsm'⟩ := hrefused rfl
      refine h.setStream ?_ (fun height hid => absurd hid (hunlisted height)) (fun hrun => ?_)
        fun height _ => ?_
      · refine ⟨hget.input, fun _ => ⟨(hget.idle hns).1, ?_, hsm'⟩, fun hst => ?_, hget.running,
          fun hst => ?_⟩
        · rw [Entry.given, later_append, later_first hm, append_nil]
          exact (hget.idle hns).2.1
        · exact absurd (hs'.symm.trans hst) Bool.false_ne_true
        · exact absurd (hs'.symm.trans hst) Bool.false_ne_true
      · exact absurd ((hget.idle hns).1.symm.trans hrun) Bool.false_ne_true
      · rw [hsent height]
        exact sent_of_delivered hdel' height
    | ok height =>
      have hstart : (Stream.new.start T m : Stream X D B R × Outcome ℕ).2 = .ok height := by rw [hr]
      have hbegin := hget.begin hm hmem hns hstart
      obtain ⟨hstarted, hdel, -⟩ := start_new hmem hstart hm
      rw [hr] at hbegin hstarted hdel
      simp only
      split_ifs with hlt
      · refine h.setStream ?_ (fun height hid => absurd hid (hunlisted height)) (fun hrun => ?_)
          fun height _ => ?_
        · have hidle := (hget.idle hns).1
          have hnot := hbegin false (fun hf => absurd hf Bool.false_ne_true)
          rw [← hidle] at hnot
          exact hnot
        · exact absurd ((hget.idle hns).1.symm.trans hrun) Bool.false_ne_true
        · rw [hsent height]
          exact sent_of_delivered hdel height
      · -- the id is added to the list of its height
        have hentry := hbegin (decide (height = d.currentHeight)) (fun hd => of_decide_eq_true hd)
        have hmem : ∀ height' id',
          id' ∈ update d.streamHeights height (d.streamHeights height ++ [id]) height' ↔
            id' ∈ d.streamHeights height' ∨ (id' = id ∧ height' = height) := by
          intro height' id'
          rcases eq_or_ne height' height with rfl | hne
          · simp only [update_self, mem_append, mem_singleton, and_true]
          · simp only [update_of_ne hne, hne, and_false, or_false]
        have key := h.replace [] hentry (fun height' => ?_) (fun height' id' hne => ?_)
          (fun height' hid => ?_) (fun _ => (hmem _ _).mpr (.inr ⟨rfl, rfl⟩)) (fun _ hp => by cases hp) (fun height' _ => ?_) ?_
        · rw [map_nil, append_nil] at key
          exact key
        · rcases eq_or_ne height' height with rfl | hne
          · simp only [update_self]
            exact concat_eq_append ▸ (h.nodup height').concat (hunlisted height')
          · simp only [update_of_ne hne]
            exact h.nodup height'
        · rw [hmem, or_iff_left fun hid => hne hid.1]
        · exact ⟨hstarted, (((hmem height' id).mp hid).resolve_left (hunlisted height')).2.symm⟩
        · rw [hsent height', ite_self]
          exact sent_of_delivered hdel height'
        · exact (congrArg length (sent_of_delivered hdel _)).trans_le (Nat.zero_le 1)

theorem getStream_record (d : Demux I X D B R) (id : I) (m : Message X) :
    (d.record id m).getStream id = d.getStream id := rfl

theorem Inv.processStreamMessage (h : Inv T d) (hadm : d.Admits T (.receive id m)) :
    Inv T (d.processStreamMessage T id m) := by
  have hrec : Inv T (d.record id m) := h.record hadm.1
  rw [Demux.processStreamMessage, ← getStream_record d id m]
  split_ifs with hm
  · refine hrec.onFirstMessage hm (mem_record d id m) fun hns hnone => ?_
    have horderly := hadm.2
    rw [getStream_record] at hns hnone
    simp only [orderly, hm, hns, hnone, bne_self_eq_false, isSome_none, Bool.or_self] at horderly
    exact Bool.false_ne_true horderly
  · exact hrec.onSubsequentMessage hm (mem_record d id m)

/-! ### Committing -/

variable {ids : List I}

theorem closeStreams_eq (hnodup : ids.Nodup) (hthere : ∀ id ∈ ids, d.streams id ≠ none) :
    d.closeStreams ids = { d with streams := fun id => if id ∈ ids then none else d.streams id } := by
  induction ids generalizing d with
  | nil => rfl
  | cons id ids ih =>
    rw [closeStreams]
    obtain ⟨hid, hids⟩ := nodup_cons.mp hnodup
    cases he : d.streams id with
    | none => exact absurd he (hthere id mem_cons_self)
    | some e =>
      simp only
      rw [ih hids]
      · congr 1
        funext id'
        rcases eq_or_ne id' id with rfl | hne
        · simp only [update_self, ite_self, mem_cons_self, if_true]
        · simp only [update_of_ne hne, mem_cons, hne, false_or]
      · intro id' hid'
        have hne : id' ≠ id := fun heq => hid (heq ▸ hid')
        simp only [update_of_ne hne]
        exact hthere id' (mem_cons_of_mem _ hid')

theorem startStreams_eq (hthere : ∀ id ∈ ids, d.streams id ≠ none) :
    d.startStreams ids = { d with streams := fun id =>
      if id ∈ ids then (d.streams id).map fun e => { e with running := true } else d.streams id } := by
  induction ids generalizing d with
  | nil => rfl
  | cons id ids ih =>
    rw [startStreams]
    cases he : d.streams id with
    | none => exact absurd he (hthere id mem_cons_self)
    | some e =>
      simp only
      rw [ih]
      · rw [setStream]
        congr 1
        funext id'
        rcases eq_or_ne id' id with rfl | hne
        · simp only [update_self, map_some, ite_self, mem_cons_self, if_true, he]
        · simp only [update_of_ne hne, mem_cons, hne, false_or]
      · intro id' hid'
        rcases eq_or_ne id' id with rfl | hne
        · rw [setStream_self]
          exact some_ne_none _
        · rw [setStream_of_ne hne]
          exact hthere id' (mem_cons_of_mem _ hid')

/-- The streams after a commit: those of the height committed are gone, those of the next one run. -/
def Demux.turned (d : Demux I X D B R) (id : I) : Option (Entry X D B R) :=
  if id ∈ d.streamHeights d.currentHeight then none
  else if id ∈ d.streamHeights (d.currentHeight + 1) then (d.streams id).map
    fun e => { e with running := true }
  else d.streams id

theorem Inv.commit_eq (h : Inv T d) :
    d.stop.processCommit d.currentHeight =
      { d with
        streams := d.turned
        streamHeights := Function.update d.streamHeights d.currentHeight []
        currentHeight := d.currentHeight + 1 } := by
  have hthere : ∀ height, ∀ id ∈ d.streamHeights height, d.streams id ≠ none := by
    intro height id hid
    obtain ⟨e, he, -⟩ := h.listed height id hid
    rw [he]
    exact some_ne_none _
  have hdisjoint : ∀ id ∈ d.streamHeights (d.currentHeight + 1), id ∉ d.streamHeights d.currentHeight := by
    intro id hid hid'
    have hnext := (h.listed_getStream hid).2
    have hcur := (h.listed_getStream hid').2
    omega
  have hne : d.currentHeight + 1 ≠ d.currentHeight := Nat.succ_ne_self _
  rw [stop, closeStreams_eq (h.nodup _) (hthere _), processCommit]
  simp only [ne_eq, not_true_eq_false, if_false, update_of_ne hne]
  rw [startStreams_eq]
  · simp only
    congr 1
    funext id
    rw [turned]
    split_ifs <;> rfl
  · intro id hid
    simp only [if_neg (hdisjoint id hid)]
    exact hthere _ id hid

theorem turned_eq_some (h : d.turned id = some e) :
    ∃ e₀, d.streams id = some e₀ ∧ id ∉ d.streamHeights d.currentHeight ∧
      ((id ∈ d.streamHeights (d.currentHeight + 1) ∧ e = { e₀ with running := true }) ∨
        (id ∉ d.streamHeights (d.currentHeight + 1) ∧ e = e₀)) := by
  rw [turned] at h
  split_ifs at h with hcur hnext
  · obtain ⟨e₀, he₀, rfl⟩ := map_eq_some_iff.mp h
    exact ⟨e₀, he₀, hcur, .inl ⟨hnext, rfl⟩⟩
  · exact ⟨e, h, hcur, .inr ⟨hnext, rfl⟩⟩

theorem Inv.commit (h : Inv T d) : Inv T (d.stop.processCommit d.currentHeight) := by
  rw [h.commit_eq]
  refine ⟨h.calm, h.parts, ?_, ?_, ?_, ?_, h.sound, h.once, ?_⟩
  · intro id e he
    obtain ⟨e₀, he₀, hcur, hcase⟩ := turned_eq_some he
    have hok := h.entries id e₀ he₀
    rcases hcase with ⟨hnext, rfl⟩ | ⟨-, rfl⟩
    · obtain ⟨hs₀, hheight₀⟩ := h.listed_some hnext he₀
      refine ⟨hok.input, fun hns => absurd (hns.symm.trans hs₀) Bool.false_ne_true, hok.kept,
        fun _ => hheight₀,
        fun _ _ => ?_⟩
      have hal := hok.alive hs₀ (.inr (by omega))
      exact ⟨hal.progress, hal.replay⟩
    · have hstill : e.running = false := by
        rw [Bool.eq_false_iff]
        intro hr
        have hid := h.running id e he₀ hr
        rw [hok.running hr] at hid
        exact hcur hid
      refine ⟨hok.input, hok.idle, hok.kept, fun hr => absurd (hstill.symm.trans hr) Bool.false_ne_true,
        fun hs hr => ?_⟩
      rcases hr with hr | hr
      · exact absurd (hstill.symm.trans hr) Bool.false_ne_true
      · exact hok.alive hs (.inr (Nat.lt_of_succ_lt hr))
  · intro height id hid
    rcases eq_or_ne height d.currentHeight with rfl | hne
    · simp only [update_self] at hid
      cases hid
    · simp only [update_of_ne hne] at hid
      obtain ⟨e, he, hs, hheight⟩ := h.listed height id hid
      have hcur : id ∉ d.streamHeights d.currentHeight := fun hid' =>
        hne ((h.listed_getStream hid).2.symm.trans (h.listed_getStream hid').2)
      simp only [turned, if_neg hcur]
      split_ifs
      · exact ⟨_, map_eq_some_iff.mpr ⟨e, he, rfl⟩, hs, hheight⟩
      · exact ⟨e, he, hs, hheight⟩
  · intro height
    rcases eq_or_ne height d.currentHeight with rfl | hne
    · simp only [update_self]
      exact nodup_nil
    · simp only [update_of_ne hne]
      exact h.nodup height
  · intro id e he hr
    obtain ⟨e₀, he₀, hcur, hcase⟩ := turned_eq_some he
    rcases hcase with ⟨hnext, rfl⟩ | ⟨-, rfl⟩
    · simp only [(h.listed_some hnext he₀).2, update_of_ne (Nat.succ_ne_self d.currentHeight)]
      exact hnext
    · have hid := h.running id e he₀ hr
      rw [(h.entries id e he₀).running hr] at hid
      exact absurd hid hcur
  · intro id height hheight
    refine (h.current id height (Nat.le_of_succ_le hheight)).trans (congrArg (map (Prod.mk id)) ?_)
    simp only [sent, turned]
    split_ifs with hcur hnext
    · obtain ⟨e, he, hs, hheight'⟩ := h.listed _ id hcur
      have hne : ¬(e.stream.started = true ∧ e.height = height) := by
        rintro ⟨-, heq⟩
        simp only at hheight
        omega
      rw [he]
      exact if_neg hne
    · cases d.streams id with
      | none => rfl
      | some e => rfl
    · rfl

/-! ### The goroutines -/

theorem Inv.turn (h : Inv T d) {e' : Entry X D B R} {ps : List (Proposal D R)} (he : d.streams id = some e)
    (hr : e.running = true) (hs : e.stream.started = true)
    (hok : EntryOk T (d.received id) d.currentHeight e') (hs' : e'.stream.started = true)
    (hheight : e'.height = e.height) (hdel : e'.stream.delivered = e.stream.delivered ++ ps) :
    Inv T (Demux.setStream { d with outputs := d.outputs ++ ps.map fun p => (id, p) } id e') := by
  have hcur : e.height = d.currentHeight := (h.entries id e he).running hr
  have hkept : Kept T (d.received id) e'.height e'.stream := hok.kept hs'
  have hsent : ∀ height, d.sent id height = if height = d.currentHeight then e.stream.delivered else [] := by
    intro height
    rw [sent, he]
    simp only [elim_some, Entry.sent, hs, hcur, true_and, eq_comm]
  have hsent' : ∀ height, e'.sent height = if height = d.currentHeight then e'.stream.delivered else [] := by
    intro height
    simp only [Entry.sent, hs', hheight, hcur, true_and, eq_comm]
  refine h.replace ps hok h.nodup (fun _ _ _ => Iff.rfl)
    (fun height hid => ⟨hs', hheight.trans (h.listed_some hid he).2⟩)
    (fun _ => ?_) (fun p hp => ?_) (fun height _ => ?_) ?_
  · rw [hheight]
    exact h.running id e he hr
  · obtain ⟨hpheight, hpdel⟩ := hkept.sound p (hdel ▸ mem_append_right _ hp)
    exact ⟨hpheight.trans (hheight.trans hcur), hpdel⟩
  · rw [hsent, hsent', hdel]
    split_ifs <;> rfl
  · rw [hsent', if_pos rfl]
    exact hkept.once

/-- **A goroutine takes a message.** -/
theorem Inv.loop (h : Inv T d) (hadm : d.Admits T (.loop id)) : Inv T (d.loop T id) := by
  rw [Demux.loop]
  cases he : d.streams id with
  | none => exact h
  | some e =>
    simp only
    cases hr : e.running with
    | false => exact h
    | true =>
      cases hin : e.input with
      | nil => exact h
      | cons m ms =>
        simp only
        have hok := h.entries id e he
        have hs := hok.started hr
        have hal := hok.alive hs (.inl hr)
        have hmem : m ∈ d.received id := hok.input m (hin ▸ mem_cons_self)
        have hms : ∀ m' ∈ ms, m' ∈ d.received id := fun m' hm' => hok.input m' (hin ▸ mem_cons_of_mem _ hm')
        have hfin : e.stream.nextSequenceNumber = m.sequenceNumber → m.body = .fin →
            e.stream.delivered = [] := by
          intro hnext hbody
          have horderly := hadm.2
          simp only [orderly, he, hr, hin, hnext, hbody, bne_self_eq_false, Body.isFin, Bool.not_true,
            Bool.or_self, Bool.false_or] at horderly
          exact isEmpty_iff.mp horderly
        have hhandled := hal.progress.processMessages (h.parts id) hmem hfin
        obtain ⟨⟨ps, hps⟩, hkeeps⟩ := processMessages_keeps (T := T) e.stream m
        have hstarted : (e.stream.processMessages T m).1.started = true := hkeeps.trans hs
        have hdrop : (e.stream.processMessages T m).1.delivered.drop e.stream.delivered.length = ps := by
          rw [← hps, drop_left]
        obtain ⟨first, before, after, consumed, hlog, hfirst, hrun, hconsumed⟩ := hal.replay
        have hrun' := consume_concat hrun m
        rw [hdrop]
        rcases hv : e.stream.processMessages T m with ⟨s, v⟩
        rw [hv] at hhandled hstarted hps hrun'
        cases v with
        | panic => exact absurd rfl hhandled.calm
        | error =>
          refine h.turn he hr hs ⟨hms, fun hns => ?_, fun _ => hhandled.kept, fun hf => ?_, fun _ hcase => ?_⟩
            hstarted rfl hps.symm
          · exact absurd (hns.symm.trans hstarted) Bool.false_ne_true
          · exact absurd hf Bool.false_ne_true
          · rcases hcase with hf | hlt
            · exact absurd hf Bool.false_ne_true
            · exact absurd (hok.running hr) (Nat.ne_of_gt hlt)
        | ok u =>
          refine h.turn he hr hs ⟨hms, fun hns => ?_, fun _ => hhandled.kept, fun _ => hok.running hr,
            fun _ _ => ?_⟩
            hstarted rfl hps.symm
          · exact absurd (hns.symm.trans hstarted) Bool.false_ne_true
          · refine ⟨hhandled.progress rfl, first, before, after, consumed ++ [m], hlog, hfirst, hrun', ?_⟩
            rw [append_assoc, singleton_append, ← hin]
            exact hconsumed

/-! ### Whole runs -/

theorem inv_new (currentHeight : ℕ) : Inv T (Demux.new currentHeight : Demux I X D B R) :=
  ⟨rfl, fun _ _ hm => (by cases hm), fun _ _ he => (by cases he),
    fun _ _ hid => (by cases hid), fun _ => nodup_nil,
    fun _ _ he => (by cases he), fun _ ho => (by cases ho),
    fun _ _ => Nat.zero_le 1, fun _ _ _ => rfl⟩

theorem Inv.step (h : Inv T d) (event : Event I X) (hadm : d.Admits T event) : Inv T (d.step T event) := by
  cases event with
  | receive id m => exact h.processStreamMessage hadm
  | commit height =>
    have hheight : height = d.currentHeight := eq_of_beq hadm.2
    subst hheight
    exact h.commit
  | loop id => exact h.loop hadm

theorem Inv.run (h : Inv T d) (events : List (Event I X)) (hadm : d.AdmitsAll T events) :
    Inv T (d.run T events) := by
  induction events generalizing d with
  | nil => exact h
  | cons event events ih => exact ih (h.step event hadm.1) hadm.2

/-- **What the demultiplexer is for.** -/
structure DeliversOnce (T : Transition X D B R) (d : Demux I X D B R) : Prop where
  calm : d.panicked = false
  once : ∀ id height, (d.outs id height).length ≤ 1
  /-- A proposal delivered is what the state machine makes of the stream's parts in the order of their
  numbers. -/
  sound : ∀ o ∈ d.outputs, ∃ messages parts, Delivered T (d.received o.1) o.2 messages parts
  /-- A running stream that was given the messages of a well-formed proposal, the first one first and the
  others in any order, and has taken them from its channel, has delivered the proposal. -/
  unordered : ∀ id e first rest l proposal parts, d.streams id = some e → e.running = true → e.input = [] →
    e.log = first :: l → l.Perm rest → Delivered T (first :: rest) proposal (first :: rest) parts →
    d.outs id d.currentHeight = [(id, proposal)]

theorem later_eq_self {l : List (Message X)} (h : ∀ m ∈ l, m.sequenceNumber ≠ 0) : later l = l := by
  rw [later, filter_eq_self]
  exact fun m hm => decide_eq_true (h m hm)

theorem Inv.unordered (h : Inv T d) {first : Message X} {rest l : List (Message X)} {proposal : Proposal D R}
    {parts : List (Part X)} (he : d.streams id = some e) (hr : e.running = true) (hin : e.input = [])
    (hlog : e.log = first :: l) (hperm : l.Perm rest)
    (hd : Delivered T (first :: rest) proposal (first :: rest) parts) :
    d.outs id d.currentHeight = [(id, proposal)] := by
  have hok := h.entries id e he
  have hs := hok.started hr
  obtain ⟨first', before, after, consumed, hlog', hfirst', hrun, hconsumed⟩ := (hok.alive hs (.inl hr)).replay
  have hlater : ∀ m ∈ l, m.sequenceNumber ≠ 0 := fun m hm => hd.number_ne_zero (hperm.mem_iff.mp hm)
  -- the message the stream began with is the only one with number 0
  rw [hlog] at hlog'
  cases before with
  | cons m before =>
    rw [cons_append, cons.injEq] at hlog'
    have hmem : first' ∈ l := by
      rw [hlog'.2]
      exact mem_append_right _ mem_cons_self
    exact absurd hfirst' (hlater first' hmem)
  | nil =>
    rw [nil_append, cons.injEq] at hlog'
    obtain ⟨rfl, rfl⟩ := hlog'
    rw [hin, append_nil, nil_append, later_eq_self hlater] at hconsumed
    subst hconsumed
    have hdel := (consume_perm hd hperm).2
    rw [hrun] at hdel
    have hcur : e.height = d.currentHeight := hok.running hr
    have hsent : d.sent id d.currentHeight = e.stream.delivered := by
      rw [sent, he]
      exact if_pos ⟨hs, hcur⟩
    rw [h.current id d.currentHeight le_rfl, hsent, hdel]
    rfl

/-- **No panic, and one proposal per stream and height, made of the stream's parts in order.** In every run
that meets the condition. -/
theorem runs_deliver_once (T : Transition X D B R) (currentHeight : ℕ) (events : List (Event I X))
    (hadm : (Demux.new currentHeight).AdmitsAll T events) :
    DeliversOnce T ((Demux.new currentHeight).run T events) ∧
      ∀ id, ((Demux.new currentHeight).run T events).received id =
        events.filterMap (Event.messageFor id) := by
  have h := (inv_new currentHeight).run events hadm
  exact ⟨⟨h.calm, h.once, h.sound,
    fun _ _ _ _ _ _ _ he hr hin hlog hperm hd => h.unordered he hr hin hlog hperm hd⟩,
    run_received T _ events⟩

/-! ### Examples of runs -/

/-- Adapters and a transition that accept every payload. -/
def accepting : Transition ℕ Unit ℕ ℕ where
  onProposalInit x := .ok ⟨x, ()⟩
  onEmptyBlockCommitment _ x := .ok x
  onBlockInfo _ x := .ok x
  onTransactions b x := .ok (b + x)
  onProposalCommitment b _ := .ok b
  onProposalFin _ _ := .ok ()

theorem accepting_calm (st : State Unit ℕ ℕ) (p : Part ℕ) : onEvent accepting st p ≠ .panic := by
  cases st <;> cases p <;> simp [onEvent, accepting, Outcome.map]

theorem calm_accepting (event : Event ℕ ℕ) : event.Calm accepting := by
  cases event with
  | receive id m => exact fun p _ st => accepting_calm st p
  | commit height => exact trivial
  | loop id => exact trivial

/-- The messages of a block at height 5, the later ones in disorder, and the turns of the stream's loop. -/
def shuffled : List (Event ℕ ℕ) :=
  [.receive 7 ⟨3, .content (some (.commitment 0))⟩, .receive 7 ⟨0, .content (some (.init 5))⟩, .loop 7,
    .receive 7 ⟨5, .fin⟩, .receive 7 ⟨1, .content (some (.blockInfo 40))⟩, .loop 7, .loop 7,
    .receive 7 ⟨4, .content (some (.fin 0))⟩, .receive 7 ⟨0, .content (some (.init 5))⟩,
    .receive 7 ⟨2, .content (some (.transactions 2))⟩, .loop 7, .loop 7, .commit 5]

/-- The run of `shuffled` meets the condition and delivers the proposal. -/
theorem runs_deliver_once_shuffled :
    ((Demux.new 5).run accepting shuffled).outputs = [(7, ⟨5, ()⟩, 42)] ∧
      DeliversOnce accepting ((Demux.new 5).run accepting shuffled) := by
  refine ⟨by decide +kernel, (runs_deliver_once accepting 5 shuffled ?_).1⟩
  simp only [shuffled, AdmitsAll, Admits, calm_accepting, true_and, and_true]
  decide +kernel

/-- **A peer can stop the node and have a proposal delivered twice.** A first message that is not an init is
refused, and sending a first message again panics; and a second stream fin delivers the proposal again. -/
theorem resent_messages_misbehave : ∃ events events' : List (Event ℕ ℕ),
    (((Demux.new 5).run accepting events).panicked = true) ∧
      1 < (((Demux.new 5).run accepting events').outs 7 5).length := by
  refine ⟨[.receive 7 ⟨0, .content (some (.fin 0))⟩, .receive 7 ⟨0, .content (some (.init 5))⟩],
    [.receive 7 ⟨0, .content (some (.init 5))⟩, .receive 7 ⟨1, .content (some (.commitment 42))⟩,
      .receive 7 ⟨2, .content (some (.fin 0))⟩, .receive 7 ⟨3, .fin⟩, .receive 7 ⟨4, .fin⟩,
      .loop 7, .loop 7, .loop 7, .loop 7], ?_, ?_⟩
  · decide +kernel
  · decide +kernel

end Juno.Validator
