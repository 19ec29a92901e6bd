import Mathlib

/-!
# Requests to the poller

Any number of goroutines ask one worker to poll, through a `RequestSync`. A request is a channel that is
closed when the work is done: the first goroutine makes it and queues it, the others wait for the same one as
long as it is open.

## The model

* Channels are numbered in the order in which they are made. The close of a closed channel panics.
* `Requests.step` — the mutex sections of `Request`, `SelfRequest` and `Stop` and the operations outside of
  them are one step each, and so is the send in the section of `Request`, which is made with the mutex held
  and could block.
* The worker does what the documentation of `RequestSync` asks of it, and the requesters anything else at any
  time.

## What is proved

* `Inv` — **an open channel is the response channel, and is at exactly one place**: about to be sent, in the
  queue, or at the worker.
-/

namespace Juno.Preconfirmed

open Option List

/-- `RequestSync`, with the channels made so far and those that are closed. -/
structure RequestSync where
  available : Bool
  lastSuccessfulRequest : ℤ
  dataFreshnessTime : ℤ
  requestCh : Option ℕ
  responseCh : ℕ
  made : ℕ
  closed : List ℕ
  panicked : Bool

namespace RequestSync

variable (rs : RequestSync)

def close (ch : ℕ) : RequestSync :=
  { rs with closed := ch :: rs.closed, panicked := rs.panicked || rs.closed.contains ch }

def isChannelOpen (ch : ℕ) : Bool := !rs.closed.contains ch

def isDataFresh (now : ℤ) : Bool := now - rs.lastSuccessfulRequest ≤ rs.dataFreshnessTime

def start : RequestSync := { rs with available := true }

def stop : RequestSync :=
  let rs := { rs with available := false }
  match rs.requestCh with
  | some respCh => { rs with requestCh := none }.close respCh
  | none => if rs.isChannelOpen rs.responseCh then rs.close rs.responseCh else rs

theorem stop_made : rs.stop.made = rs.made := by
  unfold stop
  dsimp only
  split
  · rfl
  · split <;> rfl

def selfRequest : ℕ × RequestSync :=
  match rs.requestCh with
  | some respCh => (respCh, { rs with requestCh := none })
  | none => (rs.made, { rs with responseCh := rs.made, made := rs.made + 1 })

end RequestSync

/-- `NewRequestSync`. The response channel is made closed; times are counted from the zero time. -/
def newRequestSync (dataFreshnessTime : ℤ) : RequestSync :=
  ⟨false, 0, dataFreshnessTime, none, 0, 1, [0], false⟩

/-- The worker: before `Start` or after `Stop`, between two requests, or with one to signal. -/
inductive Worker where
  | stopped
  | idle
  | working (respCh : ℕ)
  deriving DecidableEq

@[simp] def Worker.request : Worker → Option ℕ
  | working respCh => some respCh
  | _ => none

/-- A requester: outside of `Request`, before its mutex section, or after it. -/
inductive Requester where
  | returned
  | entering
  | waiting (respCh : ℕ)

/-- Requesters and a worker. `mu` is the requester that holds the mutex between two steps, with the channel to
send. -/
structure Requests (G : Type*) extends RequestSync where
  mu : Option (G × ℕ)
  worker : Worker
  requesters : G → Requester

/-- A step of the worker or, with its name, of a requester. `succeed` is the store in `SignalSuccess`. -/
inductive Action (G : Type*) where
  | start
  | stop
  | selfRequest
  | receive
  | succeed (now : ℤ)
  | signal
  | check (g : G) (now : ℤ)
  | enter (g : G) (now : ℤ)
  | send
  | release (g : G)
  | timeout (g : G)

namespace Requests

variable {G : Type*} [DecidableEq G]

def new (dataFreshnessTime : ℤ) : Requests G :=
  ⟨newRequestSync dataFreshnessTime, none, .stopped, fun _ => .returned⟩

variable (s : Requests G)

def become (g : G) (r : Requester) : Requests G :=
  { s with requesters := Function.update s.requesters g r }

/-- The mutex section of `Request`, up to the send. -/
def requestSection (g : G) (now : ℤ) : Requests G :=
  if !s.available then s.become g .returned
  else if s.isChannelOpen s.responseCh then s.become g (.waiting s.responseCh)
  else if s.isDataFresh now then s.become g .returned
  else { s with responseCh := s.made, made := s.made + 1, mu := some (g, s.made) }

/-- A step, where the goroutine is there and is not blocked. -/
def step : Action G → Option (Requests G)
  | .start => if s.worker = .stopped then some { s with toRequestSync := s.start, worker := .idle } else none
  | .stop =>
    if s.worker ≠ .stopped ∧ s.mu = none then some { s with toRequestSync := s.stop, worker := .stopped }
      else none
  | .selfRequest =>
    if s.worker = .idle ∧ s.mu = none then
      some { s with toRequestSync := s.selfRequest.2, worker := .working s.selfRequest.1 }
    else none
  | .receive =>
    match s.worker, s.requestCh with
    | .idle, some respCh => some { s with requestCh := none, worker := .working respCh }
    | _, _ => none
  | .succeed now =>
    match s.worker with
    | .working _ => some { s with lastSuccessfulRequest := now }
    | _ => none
  | .signal =>
    match s.worker with
    | .working respCh => some { s with toRequestSync := s.close respCh, worker := .idle }
    | _ => none
  | .check g now =>
    match s.requesters g with
    | .returned => some (if !s.available || s.isDataFresh now then s else s.become g .entering)
    | _ => none
  | .enter g now =>
    match s.requesters g, s.mu with
    | .entering, none => some (s.requestSection g now)
    | _, _ => none
  | .send =>
    match s.mu, s.requestCh with
    | some (g, respCh), none =>
      some ({ s with requestCh := some respCh, mu := none }.become g (.waiting respCh))
    | _, _ => none
  | .release g =>
    match s.requesters g with
    | .waiting respCh => if respCh ∈ s.closed then some (s.become g .returned) else none
    | _ => none
  | .timeout g =>
    match s.requesters g with
    | .waiting _ => some (s.become g .returned)
    | _ => none

def run (s : Requests G) : List (Action G) → Option (Requests G)
  | [] => some s
  | a :: as => (s.step a).bind (·.run as)

/-- The requests that are not signalled: about to be sent, queued, or at the worker. -/
def outstanding : List ℕ :=
  (s.mu.map Prod.snd).toList ++ s.requestCh.toList ++ s.worker.request.toList

/-- The requester can stop waiting. -/
def Released (g : G) : Prop := (s.step (.release g)).isSome

/-! ### The invariant -/

/-- What holds at all times, where the response channel, if it is open, is not one of the first `n`. -/
structure Inv (n : ℕ) (s : Requests G) : Prop where
  outstanding : s.outstanding = if s.responseCh ∈ s.closed then [] else [s.responseCh]
  waiting : ∀ g c, s.requesters g = .waiting c → c ∈ s.closed ∨ c = s.responseCh ∧ s.mu = none
  closed : ∀ c ∈ s.closed, c < s.made
  lt_made : s.responseCh < s.made
  panicked : s.panicked = false
  recent : s.responseCh ∈ s.closed ∨ n ≤ s.responseCh
  made : n ≤ s.made

variable {n m c : ℕ} {s s' : Requests G} {worker : Worker}

omit [DecidableEq G] in
theorem Inv.of_mem (h : Inv n s) (hc : c ∈ s.outstanding) :
    c = s.responseCh ∧ c ∉ s.closed ∧ s.outstanding = [c] := by
  have hout := h.outstanding
  rw [hout] at hc
  split_ifs at hc hout with hclosed
  · cases hc
  · obtain rfl := mem_singleton.mp hc
    exact ⟨rfl, hclosed, hout⟩

theorem Inv.become (h : Inv n s) {g : G} {r : Requester}
    (hr : ∀ c, r = .waiting c → c ∈ s.closed ∨ c = s.responseCh ∧ s.mu = none) : Inv n (s.become g r) := by
  refine { h with waiting := fun g' c hg' => ?_ }
  rcases eq_or_ne g' g with rfl | hne
  · exact hr c (by simpa [Requests.become] using hg')
  · exact h.waiting g' c (by simpa [Requests.become, hne] using hg')

section

omit [DecidableEq G]

theorem Inv.close (h : Inv n s) (hm : m ≤ s.made) (hc : c ∈ s.outstanding) {available : Bool}
    {requestCh : Option ℕ} (hnone : Requests.outstanding { s with requestCh, worker } = []) :
    Inv m { s with toRequestSync := { s.toRequestSync with available, requestCh }.close c, worker } := by
  obtain ⟨rfl, hopen, -⟩ := h.of_mem hc
  refine ⟨?_, fun g c hg => ?_, forall_mem_cons.mpr ⟨h.lt_made, h.closed⟩, h.lt_made, ?_,
    .inl mem_cons_self, hm⟩
  · exact hnone.trans (if_pos mem_cons_self).symm
  · rcases h.waiting g c hg with hclosed | ⟨rfl, -⟩
    · exact .inl (mem_cons_of_mem _ hclosed)
    · exact .inl mem_cons_self
  · simp [RequestSync.close, h.panicked, hopen]

theorem Inv.make (h : Inv n s) (hnone : s.outstanding = []) {mu : Option (G × ℕ)}
    (hplace : Requests.outstanding { s with mu, worker } = [s.made]) :
    Inv n { s with responseCh := s.made, made := s.made + 1, mu, worker } := by
  have hfresh : s.made ∉ s.closed := fun hmem => (h.closed _ hmem).false
  have hclosed : s.responseCh ∈ s.closed := by
    by_contra hopen
    simpa [hnone, hopen] using h.outstanding
  refine ⟨hplace.trans (if_neg hfresh).symm, fun g c hg => .inl ?_,
    fun c hc => (h.closed c hc).trans s.made.lt_succ_self,
    s.made.lt_succ_self, h.panicked, .inr h.made, h.made.trans s.made.le_succ⟩
  rcases h.waiting g c hg with hc | ⟨rfl, -⟩
  · exact hc
  · exact hclosed

theorem Inv.stop (h : Inv n s) (hm : m ≤ s.made) (hmu : s.mu = none) :
    Inv m { s with toRequestSync := s.stop, worker := .stopped } := by
  unfold RequestSync.stop RequestSync.isChannelOpen
  cases hqueue : s.requestCh with
  | some c =>
    exact h.close hm (by simp [Requests.outstanding, hqueue]) (by simp [Requests.outstanding, hmu])
  | none =>
    have hnone : Requests.outstanding { s with requestCh := none, worker := .stopped } = [] := by
      simp [Requests.outstanding, hmu]
    by_cases hclosed : s.responseCh ∈ s.closed
    · simp only [contains_iff_mem.mpr hclosed]
      exact ⟨by simpa [hclosed, hqueue, Requests.outstanding] using hnone, h.waiting, h.closed, h.lt_made,
        h.panicked, .inl hclosed, hm⟩
    · have hc : s.responseCh ∈ s.outstanding := by simp [h.outstanding, hclosed]
      simpa [hclosed, hqueue] using h.close hm hc hnone

end

theorem Inv.step (h : Inv n s) {a : Action G} (hstep : s.step a = some s') : Inv n s' := by
  have hout := h.outstanding
  cases a <;> simp only [Requests.step] at hstep
  case start =>
    obtain ⟨hw, ⟨⟩⟩ := ite_none_right_eq_some.mp hstep
    rw [Requests.outstanding, hw] at hout
    exact { h with outstanding := hout }
  case stop =>
    obtain ⟨⟨-, hmu⟩, ⟨⟩⟩ := ite_none_right_eq_some.mp hstep
    exact h.stop h.made hmu
  case selfRequest =>
    obtain ⟨⟨hw, hmu⟩, ⟨⟩⟩ := ite_none_right_eq_some.mp hstep
    unfold RequestSync.selfRequest
    split
    next hqueue => exact { h with outstanding := by simpa [Requests.outstanding, hw, hqueue] using hout }
    next hqueue =>
      have hplace : ∀ w, Requests.outstanding { s with worker := w } = w.request.toList := by
        simp [Requests.outstanding, hmu, hqueue]
      exact h.make ((hplace s.worker).trans (by rw [hw]; rfl)) (hplace (.working s.made))
  case receive =>
    split at hstep <;> cases hstep
    next hw hqueue => exact { h with outstanding := by simpa [Requests.outstanding, hw, hqueue] using hout }
  case succeed =>
    split at hstep <;> cases hstep
    exact { h with }
  case signal =>
    split at hstep <;> cases hstep
    next c hw =>
    have hc : c ∈ s.outstanding := by simp [Requests.outstanding, hw]
    refine h.close h.made hc ?_
    have halone := (h.of_mem hc).2.2
    rw [Requests.outstanding, hw] at halone
    simpa [Requests.outstanding] using append_left_eq_self.mp halone
  case check =>
    split at hstep <;> cases hstep
    split_ifs
    · exact h
    · exact h.become nofun
  case enter =>
    split at hstep <;> cases hstep
    next hmu =>
    unfold requestSection
    split_ifs with havailable hopen hfresh
    · exact h.become nofun
    · exact h.become fun c hc => .inr ⟨(Requester.waiting.inj hc).symm, hmu⟩
    · exact h.become nofun
    · have hnone := hout.trans (if_pos (by simpa [RequestSync.isChannelOpen] using hopen))
      exact h.make hnone (by simpa [Requests.outstanding, hmu] using hnone)
  case send =>
    split at hstep <;> cases hstep
    next g c hmu hqueue =>
    have hc := (h.of_mem (show c ∈ s.outstanding by simp [Requests.outstanding, hmu])).1
    have hsent : Inv n { s with requestCh := some c, mu := none } :=
      { h with
        outstanding := by simpa [Requests.outstanding, hmu, hqueue] using hout
        waiting := fun g c hg => .inl ((h.waiting g c hg).resolve_right fun hopen => by simp [hmu] at hopen) }
    exact hsent.become fun c' hc' => .inr ⟨(Requester.waiting.inj hc').symm.trans hc, rfl⟩
  case release =>
    split at hstep
    · obtain ⟨-, ⟨⟩⟩ := ite_none_right_eq_some.mp hstep
      exact h.become nofun
    · cases hstep
  case timeout =>
    split at hstep <;> cases hstep
    exact h.become nofun

theorem Inv.run {as : List (Action G)} (h : Inv n s) (hrun : s.run as = some s') : Inv n s' := by
  induction as generalizing s with
  | nil =>
    cases hrun
    exact h
  | cons a as ih =>
    obtain ⟨s₁, hstep, hrun⟩ := bind_eq_some_iff.mp hrun
    exact ih (h.step hstep) hrun

omit [DecidableEq G] in
theorem inv_new (dataFreshnessTime : ℤ) : Inv 0 (new dataFreshnessTime : Requests G) :=
  ⟨by simp [Requests.outstanding, new, newRequestSync], nofun, by simp [new, newRequestSync],
    Nat.one_pos, rfl, .inr le_rfl, Nat.zero_le _⟩

/-- What a state of the protocol has to offer, now and after its next signal or stop. -/
structure Safe (s : Requests G) : Prop where
  /-- No channel was closed twice. -/
  panicked : s.panicked = false
  /-- The requester that holds the mutex is not blocked. -/
  send : s.mu.isSome → (s.step .send).isSome
  /-- One request is queued or in progress. -/
  single : (s.requestCh.toList ++ s.worker.request.toList).length ≤ 1
  /-- A requester can leave, or the signal of its request is still to come. -/
  waiting : ∀ g c, s.requesters g = .waiting c → s.Released g ∨ s.requestCh = some c ∨
    s.worker.request = some c
  /-- The signal of a request releases those that joined it. -/
  signal : ∀ s', s.step .signal = some s' → ∀ g c, s.requesters g = .waiting c →
    s.worker.request = some c → s'.Released g
  stop : ∀ s', s.step .stop = some s' → (∀ g c, s'.requesters g = .waiting c → s'.Released g) ∧
    ∀ as s'', s'.run as = some s'' → ∀ c ∈ s''.outstanding, s'.made ≤ c

theorem released {g : G} (hg : s.requesters g = .waiting c) (hc : c ∈ s.closed) : s.Released g := by
  simp [Released, Requests.step, hg, hc]

theorem Inv.safe (h : Inv n s) : s.Safe := by
  have hout := h.outstanding
  refine ⟨h.panicked, fun hmu => ?_, ?_, fun g c hg => ?_, fun s' hstep g c hg hw => ?_, fun s' hstep => ?_⟩
  · obtain ⟨⟨g, c⟩, hmu⟩ := isSome_iff_exists.mp hmu
    have halone := (h.of_mem (show c ∈ s.outstanding by simp [Requests.outstanding, hmu])).2.2
    simp only [Requests.outstanding, hmu, map_some, toList_some, append_assoc, append_right_eq_self,
      append_eq_nil_iff, toList_eq_nil_iff] at halone
    simp [Requests.step, hmu, halone.1]
  · have hle : s.outstanding.length ≤ 1 := by
      rw [hout]
      split_ifs <;> simp
    simp only [Requests.outstanding, length_append] at hle ⊢
    omega
  · rcases h.waiting g c hg with hc | ⟨rfl, hmu⟩
    · exact .inl (released hg hc)
    split_ifs at hout with hc
    · exact .inl (released hg hc)
    · have hmem : s.responseCh ∈ s.requestCh.toList ++ s.worker.request.toList := by
        rw [Requests.outstanding, hmu] at hout
        exact hout ▸ mem_singleton_self _
      exact .inr (by simpa using hmem)
  · simp only [Requests.step] at hstep
    split at hstep <;> cases hstep
    next c' hworking =>
    obtain rfl : c' = c := by simpa [hworking] using hw
    exact released hg mem_cons_self
  · simp only [Requests.step] at hstep
    obtain ⟨⟨-, hmu⟩, ⟨⟩⟩ := ite_none_right_eq_some.mp hstep
    have hstop := h.stop s.stop_made.le hmu
    have hclosed := hstop.recent.resolve_right hstop.lt_made.not_ge
    refine ⟨fun g c hg => released hg ?_, fun as s'' hrun c hc => ?_⟩
    · exact (hstop.waiting g c hg).elim id fun hc => hc.1 ▸ hclosed
    · have hlater := hstop.run hrun
      obtain ⟨rfl, hopen, -⟩ := hlater.of_mem hc
      exact hlater.recent.resolve_left hopen

/-- **Requests are safe in every interleaving.** -/
theorem requestSync_safe (dataFreshnessTime : ℤ) {as : List (Action G)}
    (hrun : (new dataFreshnessTime).run as = some s) : s.Safe :=
  ((inv_new dataFreshnessTime).run hrun).safe

theorem requestSync_safe_stopped : ∃ s : Requests ℕ,
    (new 0).run [.start, .check 0 1, .enter 0 1, .send, .receive, .stop, .start] = some s ∧ s.Safe :=
  (isSome_iff_exists.mp (by decide)).imp fun _ hrun => ⟨hrun, requestSync_safe 0 hrun⟩

end Requests

end Juno.Preconfirmed
