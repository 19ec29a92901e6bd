import Juno.Tendermint.Alike

/-!
# The rules come to an end

A rule that fires may send a proposal or a vote of the node, which is counted at once and may let the next
rule fire.

## The model

* `Stops` — the loop of the source, with the rules that fire before it stops. It is finite by its form.
* `roundsEntered` — the rounds that a call enters, read off its actions: `startRound` returns a proposal or
  the timeout for one, and a commit enters round 0 of the next height.
* `StateMachine.toEnter` — the rounds that messages of one height and round can still make the machine enter.

## What is proved

* `rules_terminate` — **the loops of every call stop, after a number of firings that the rounds entered in the
  call bound**, and these are at most two if the precommits of a sync are of one round. Nothing is assumed of
  the validators, of the application or of the machine.
-/

namespace Juno.Tendermint

open StateMachine List

variable {σ V H A : Type} [Hashed V H] [DecidableEq H] [DecidableEq A] (app : Application σ V)
  {s s' : StateMachine σ V H A} {recent : Option ℤ}

def Action.entersRound : Action V H A → Bool
  | .broadcastProposal _ => true
  | .scheduleTimeout tm => tm.step = .propose
  | .commit _ => true
  | _ => false

def roundsEntered (as : List (Action V H A)) : ℕ := as.countP Action.entersRound

section

omit [Hashed V H] [DecidableEq H] [DecidableEq A]

theorem roundsEntered_append (as bs : List (Action V H A)) :
    roundsEntered (as ++ bs) = roundsEntered as + roundsEntered bs := countP_append

theorem roundsEntered_writeWAL (e : WALEntry V H A) (as : List (Action V H A)) :
    roundsEntered (.writeWAL e :: as) = roundsEntered as := countP_cons_of_neg Bool.false_ne_true

end

/-- `processLoop` stops, after as many rules fired. -/
inductive Stops (recent : Option ℤ) : StateMachine σ V H A → ℕ → StateMachine σ V H A → Prop where
  | quiet {s : StateMachine σ V H A} (h : (s.process app recent).1 = (none, false)) :
    Stops recent s 0 (s.process app recent).2
  | last {s : StateMachine σ V H A} {a : Action V H A} (h : (s.process app recent).1 = (some a, false)) :
    Stops recent s 1 (s.process app recent).2
  /-- A rule fires, and the loop goes on. -/
  | next {s s' : StateMachine σ V H A} {n : ℕ} (h : (s.process app recent).1.2 = true)
    (hs : Stops recent (s.process app recent).2 n s') : Stops recent s (n + 1) s'

/-- The rounds that are left to enter with messages of the height, and of the round if there is one. -/
def StateMachine.toEnter (s : StateMachine σ V H A) (height : ℕ) (recent : Option ℤ) : ℕ :=
  if s.state.height = height then 1 + (recent.any (· > s.state.round)).toNat else 0

def StateMachine.fired (turn : StateMachine.Turn σ V H A) : ℕ := if turn.1.2 || turn.1.1.isSome then 1 else 0

/-- What a turn takes off the two bounds. -/
def Progress (recent : Option ℤ) (s : StateMachine σ V H A) (fired : ℕ) (as : List (Action V H A))
    (s' : StateMachine σ V H A) : Prop :=
  fired + s'.turns none ≤ s.turns none + 6 * roundsEntered as ∧
    roundsEntered as + s'.toEnter s.state.height recent ≤ s.toEnter s.state.height recent

section

omit [Hashed V H] [DecidableEq H] [DecidableEq A]

theorem turns_le (s : StateMachine σ V H A) : s.turns none ≤ 5 := by
  have hflag := fun b : Bool => Bool.toNat_le b
  have h₁ := hflag (!s.state.timeoutPrevoteScheduled)
  have h₂ := hflag (!s.state.timeoutPrecommitScheduled)
  have h₃ := hflag (!s.state.lockedValueAndOrValidValueSet)
  simp only [turns, Option.any_none, Bool.false_eq_true, if_false]
  omega

theorem Progress.of_turns (hround : s'.state.round = s.state.round)
    (hheight : s'.state.height = s.state.height) {a : Option (Action V H A)} (ha : roundsEntered a.toList = 0)
    (hlt : s'.turns recent < s.turns recent) : Progress recent s 1 a.toList s' := by
  refine ⟨?_, ?_⟩
  · simp only [turns, hround] at hlt
    simp only [turns, Option.any_none, Bool.false_eq_true, if_false, ha]
    omega
  · rw [ha, toEnter, toEnter, hround, hheight]
    omega

end

variable (s)

section

omit [Hashed V H] [DecidableEq H]

theorem startRound_entersRound (r : ℤ) : (s.startRound app r).1.entersRound = true := by
  unfold startRound
  simp only
  split
  · rfl
  · rfl

theorem roundsEntered_startRound (r : ℤ) : roundsEntered [(s.startRound app r).1] = 1 := by
  simp [roundsEntered, startRound_entersRound]

/-- The round that is entered pays for the rules that fire in it. -/
theorem startRound_turns (r : ℤ) :
    (s.startRound app r).2.turns none < 6 * roundsEntered [(s.startRound app r).1] := by
  rw [roundsEntered_startRound]
  exact Nat.lt_succ_of_le (turns_le _)

end

variable {s}

theorem fired_progress {c rc : Option (CachedProposal V H A)} {turn : StateMachine.Turn σ V H A}
    (h : Fired app s recent c rc turn) :
    Progress recent s (StateMachine.fired turn) turn.1.1.toList turn.2 := by
  have hturns := fired_turns app h
  cases h with
  | commitValue p hp h =>
    have hle := turns_le (s.doCommitValue p).2
    refine ⟨?_, ?_⟩
    · change 1 + (s.doCommitValue p).2.turns none ≤ s.turns none + 6 * 1
      omega
    · -- the machine is in the next height
      have hnext : (s.doCommitValue p).2.state.height ≠ s.state.height := Nat.succ_ne_self _
      change 1 + (s.doCommitValue p).2.toEnter s.state.height recent ≤ _
      rw [toEnter, if_neg hnext, toEnter, if_pos rfl]
      omega
  | skipRound r hr h =>
    have hlt := (of_decide_eq_true h).1
    have hpaid := startRound_turns app s r
    refine ⟨?_, ?_⟩
    · change 1 + (s.startRound app r).2.turns none ≤ s.turns none + 6 * roundsEntered [(s.startRound app r).1]
      omega
    · change roundsEntered [(s.startRound app r).1] + (s.startRound app r).2.toEnter s.state.height recent ≤ _
      rw [roundsEntered_startRound, hr]
      simp [toEnter, State.resetState, hlt]
  | quiet => exact ⟨by simp [fired, roundsEntered], by simp [roundsEntered]⟩
  | _ => refine .of_turns ?_ ?_ ?_ (hturns rfl) <;> rfl

/-- **A rule lowers the bound of its round, or it enters one of the rounds left.** -/
theorem process_progress (s : StateMachine σ V H A) (recent : Option ℤ) :
    Progress recent s (StateMachine.fired (s.process app recent)) (s.process app recent).1.1.toList
      (s.process app recent).2 := by
  obtain ⟨a, c, rc, -, -, h⟩ := process_fired app s recent
  exact fired_progress app (s := { s with application := a }) h

theorem processLoop_progress (s : StateMachine σ V H A) (recent : Option ℤ) :
    ∃ n, Stops app recent s n (s.processLoop app [] recent).2 ∧
      Progress recent s n (s.processLoop app [] recent).1 (s.processLoop app [] recent).2 := by
  refine loop_induction app recent (P := fun s as s' => ∃ n, Stops app recent s n s' ∧
    Progress recent s n as s')
    (fun s hstop => ?_) (fun s as s' hcont ih => ?_) _ s le_rfl
  · have key := process_progress app s recent
    cases ha : (s.process app recent).1.1 with
    | none =>
      refine ⟨0, .quiet (Prod.ext ha hstop), ?_⟩
      simpa [fired, hstop, ha] using key
    | some a =>
      refine ⟨1, .last (Prod.ext ha hstop), ?_⟩
      simpa [fired, hstop, ha] using key
  · obtain ⟨n, hn, hfirings, hrounds⟩ := ih
    obtain ⟨hfirings', hrounds'⟩ := process_progress app s recent
    rw [fired, if_pos (by rw [hcont]; rfl)] at hfirings'
    rw [process_height hcont] at hrounds
    refine ⟨n + 1, .next hcont hn, ?_, ?_⟩
    · rw [roundsEntered_append]
      omega
    · rw [roundsEntered_append]
      omega

/-! ### The calls -/

/-- What messages of a height and a round make the machine enter. -/
def Enters (height : ℕ) (recent : Option ℤ) (s : StateMachine σ V H A)
    (r : List (Action V H A) × StateMachine σ V H A) : Prop :=
  roundsEntered r.1 + r.2.toEnter height recent ≤ s.toEnter height recent

theorem processMessage_enters (s : StateMachine σ V H A) (msg : MessageHeader A) (e : WALEntry V H A) :
    Enters msg.height (some msg.round) s (s.processMessage app msg e) := by
  unfold processMessage
  split_ifs with hheight
  · simp [Enters, roundsEntered, Action.entersRound]
  · obtain ⟨n, -, -, hrounds⟩ := processLoop_progress app s (some msg.round)
    rw [← not_not.mp hheight] at hrounds
    simpa [Enters, processLoop, roundsEntered, Action.entersRound] using hrounds

theorem message_enters (s₁ : StateMachine σ V H A) (hstate : s₁.state = s.state) (isOld : Bool)
    (msg : MessageHeader A) (e : WALEntry V H A) :
    Enters msg.height (some msg.round) s (if isOld then ([], s₁) else s₁.processMessage app msg e) := by
  have key := processMessage_enters app s₁ msg e
  unfold Enters at key ⊢
  rw [toEnter.eq_def s₁, hstate] at key
  split
  · simp [roundsEntered, toEnter, hstate]
  · exact key

omit [Hashed V H] [DecidableEq A] in
theorem hasFuturePrecommitQuorum_state (s : StateMachine σ V H A) (p : Vote H A) :
    (s.hasFuturePrecommitQuorum p).2.state = s.state := by
  unfold hasFuturePrecommitQuorum
  split <;> rfl

theorem processPrecommit_enters (s : StateMachine σ V H A) (p : Vote H A) :
    Enters p.height (some p.round) s (s.processPrecommit app p) := by
  have hstate := hasFuturePrecommitQuorum_state { s with voteCounter := (s.voteCounter.addPrecommit p).2 } p
  unfold processPrecommit
  simp only
  split_ifs with h hfuture
  · simp [Enters, roundsEntered, toEnter]
  · simp [Enters, triggerSync, roundsEntered, Action.entersRound, toEnter, hstate]
  · exact message_enters app _ hstate false p.toMessageHeader (.precommit p)

variable {height : ℕ}

omit [Hashed V H] [DecidableEq H] [DecidableEq A] in
theorem Enters.append {r r' : List (Action V H A) × StateMachine σ V H A} (h : Enters height recent s r)
    (h' : Enters height recent r.2 r') : Enters height recent s (r.1 ++ r'.1, r'.2) := by
  unfold Enters at *
  simp only [roundsEntered_append] at *
  omega

theorem processPrecommits_enters {round : ℤ} {precommits : List (Vote H A)}
    (h : ∀ p ∈ precommits, p.height = height ∧ p.round = round) (s : StateMachine σ V H A) :
    Enters height (some round) s (s.processPrecommits app precommits) := by
  induction precommits generalizing s with
  | nil => simp [Enters, processPrecommits, roundsEntered]
  | cons p ps ih =>
    obtain ⟨rfl, rfl⟩ := h p mem_cons_self
    exact (processPrecommit_enters app s p).append (ih (fun q hq => h q (mem_cons_of_mem p hq)) _)

theorem roundsEntered_loop (s : StateMachine σ V H A) (as : List (Action V H A)) :
    roundsEntered (s.processLoop app as none).1 ≤ roundsEntered as + 1 := by
  obtain ⟨n, -, -, hrounds⟩ := processLoop_progress app s none
  have hone : s.toEnter s.state.height none = 1 := if_pos rfl
  change roundsEntered (as ++ (s.processLoop app [] none).1) ≤ _
  rw [roundsEntered_append]
  omega

theorem processStart_enters (s : StateMachine σ V H A) (round : ℤ) :
    roundsEntered (s.processStart app round).1 ≤ 2 := by
  unfold processStart
  split_ifs with h
  · simp [roundsEntered]
  · exact (roundsEntered_writeWAL _ _).trans_le
      ((roundsEntered_loop app _ _).trans (Nat.succ_le_succ countP_le_length))

theorem processTimeout_enters (s : StateMachine σ V H A) (tm : Timeout) :
    roundsEntered (s.processTimeout app tm).1 ≤ 2 := by
  obtain ⟨r, hr, heq⟩ := processTimeout_timedOut app s tm
  rw [heq]
  refine (roundsEntered_loop app _ _).trans (Nat.succ_le_succ ?_)
  cases hr with
  | ignored => exact Nat.zero_le 1
  | _ => exact (roundsEntered_writeWAL _ _).trans_le countP_le_length

/-! ### The loops of a call -/

/-- The calls that a call consists of, each with one loop at most. -/
def Call.parts : Call V H A → List (Call V H A)
  | .sync p precommits => .proposal p :: precommits.map .precommit
  | .wal (.start _) => [.start 0]
  | .wal (.proposal p) => [.proposal p]
  | .wal (.prevote p) => [.prevote p]
  | .wal (.precommit p) => [.precommit p]
  | .wal (.timeout tm) => [.timeout tm]
  | call => [call]

variable (s)

theorem calls_precommits (precommits : List (Vote H A)) :
    s.calls app (precommits.map .precommit) = s.processPrecommits app precommits := by
  induction precommits generalizing s with
  | nil => rfl
  | cons p ps ih => rw [map_cons, calls, ih, processPrecommits, call]

theorem call_eq_parts (call : Call V H A) : s.call app call = s.calls app call.parts := by
  cases call with
  | sync p precommits =>
    rw [Call.parts, calls, calls_precommits]
    rfl
  | wal e => cases e <;> simp [Call.parts, calls, StateMachine.call, processWAL]
  | _ => simp [Call.parts, calls]

def StateMachine.messageLoop (isOld : Bool) (msg : MessageHeader A) :
    Option (StateMachine σ V H A × Option ℤ) :=
  if isOld then none else if msg.height ≠ s.state.height then none else some (s, some msg.round)

def StateMachine.loopOf : Call V H A → Option (StateMachine σ V H A × Option ℤ)
  | .start round =>
    if s.isHeightStarted then none
      else some (({ s with isHeightStarted := true }.startRound app round).2, none)
  | .proposal p => messageLoop { s with voteCounter := (s.voteCounter.addProposal p).2 }
    (!(s.voteCounter.addProposal p).1 || !s.isHeightStarted) p.toMessageHeader
  | .prevote p => messageLoop { s with voteCounter := (s.voteCounter.addPrevote p).2 }
    (!(s.voteCounter.addPrevote p).1 || !s.isHeightStarted) p.toMessageHeader
  | .precommit p =>
    let future := hasFuturePrecommitQuorum { s with voteCounter := (s.voteCounter.addPrecommit p).2 } p
    future.2.messageLoop (!(s.voteCounter.addPrecommit p).1 || !s.isHeightStarted || future.1)
      p.toMessageHeader
  | .timeout tm => some ((s.onTimeout app tm).2, none)
  | _ => none

/-- So many rules fire in a loop, if there is one. Without a loop the state stays as it is. -/
def Fires (loop : Option (StateMachine σ V H A × Option ℤ)) (n : ℕ) (s' : StateMachine σ V H A) : Prop :=
  match loop with
  | none => n = 0 ∧ s'.state = s.state
  | some l => Stops app l.2 l.1 n s'

variable {s}

/-- So many rules fire in the loops of calls one after the other. -/
inductive FiresAll : StateMachine σ V H A → List (Call V H A) → ℕ → Prop where
  | nil {s : StateMachine σ V H A} : FiresAll s [] 0
  | cons {s : StateMachine σ V H A} {call : Call V H A} {calls : List (Call V H A)} {n m : ℕ}
    (h : Fires app s (s.loopOf app call) n (s.call app call).2) (hs : FiresAll (s.call app call).2 calls m) :
      FiresAll s (call :: calls) (n + m)

/-- The firings that are bounded by the rounds entered and the rest of the round. -/
def Paid (s : StateMachine σ V H A) (n : ℕ) (r : List (Action V H A) × StateMachine σ V H A) : Prop :=
  n + r.2.turns none ≤ s.turns none + 6 * roundsEntered r.1

omit [Hashed V H] [DecidableEq H] [DecidableEq A] in
theorem turns_congr (h : s'.state = s.state) : s'.turns recent = s.turns recent := by
  rw [turns, turns, h]

variable {s₁ : StateMachine σ V H A}

theorem loop_paid {as : List (Action V H A)}
    (h : s₁.turns none ≤ s.turns none + 6 * roundsEntered as) (recent : Option ℤ) :
    ∃ n, Stops app recent s₁ n (s₁.processLoop app as recent).2 ∧
      Paid s n (s₁.processLoop app as recent) := by
  obtain ⟨n, hn, hfirings, -⟩ := processLoop_progress app s₁ recent
  refine ⟨n, hn, ?_⟩
  change n + (s₁.processLoop app [] recent).2.turns none ≤
    s.turns none + 6 * roundsEntered (as ++ (s₁.processLoop app [] recent).1)
  rw [roundsEntered_append]
  omega

omit [Hashed V H] in
theorem timedOut_turns {tm : Timeout} {r : List (Action V H A) × StateMachine σ V H A}
    (h : TimedOut app s tm r) : r.2.turns none ≤ s.turns none + 6 * roundsEntered r.1 := by
  cases h with
  | ignored => exact Nat.le_add_right _ _
  | precommit =>
    rw [roundsEntered_writeWAL]
    exact (startRound_turns app s _).le.trans (Nat.le_add_left _ _)
  | propose hsame htm hstep =>
    simp [turns, setStepAndSendPrevote, hstep, Step.toNat]
    omega
  | prevote hsame htm hstep =>
    simp [turns, setStepAndSendPrecommit, hstep, Step.toNat]
    omega

theorem message_paid (hstate : s₁.state = s.state) (isOld : Bool) (msg : MessageHeader A)
    (e : WALEntry V H A) :
    ∃ n, Fires app s (s₁.messageLoop isOld msg) n
        (if isOld then ([], s₁) else s₁.processMessage app msg e).2 ∧
      Paid s n (if isOld then ([], s₁) else s₁.processMessage app msg e) := by
  have hturns : s₁.turns none = s.turns none := turns_congr hstate
  unfold messageLoop processMessage
  split_ifs with hold hheight
  · exact ⟨0, ⟨rfl, hstate⟩, by simp [Paid, hturns]⟩
  · exact ⟨0, ⟨rfl, hstate⟩, by simp [Paid, hturns]⟩
  · exact loop_paid app (hturns.trans_le (Nat.le_add_right _ _)) _

theorem precommit_paid (s : StateMachine σ V H A) (p : Vote H A) :
    ∃ n, Fires app s (s.loopOf app (.precommit p)) n (s.processPrecommit app p).2 ∧
      Paid s n (s.processPrecommit app p) := by
  have hstate := hasFuturePrecommitQuorum_state { s with voteCounter := (s.voteCounter.addPrecommit p).2 } p
  unfold loopOf processPrecommit
  simp only
  split_ifs with hold hfuture
  · refine ⟨0, ?_, ?_⟩
    · simp [hold, messageLoop, Fires]
    · simp [Paid, turns]
  · refine ⟨0, ?_, ?_⟩
    · simpa [hfuture, messageLoop, Fires, triggerSync] using hstate
    · simp [Paid, triggerSync, turns, hstate]
  · rw [eq_false_of_ne_true hold, eq_false_of_ne_true hfuture]
    exact message_paid app hstate false p.toMessageHeader (.precommit p)

theorem fires_paid (s : StateMachine σ V H A) {call : Call V H A} (hcall : call.parts = [call]) :
    ∃ n, Fires app s (s.loopOf app call) n (s.call app call).2 ∧ Paid s n (s.call app call) := by
  cases call with
  | start round =>
    unfold Fires StateMachine.call loopOf processStart
    split_ifs
    · exact ⟨0, ⟨rfl, rfl⟩, by simp [Paid]⟩
    · obtain ⟨n, hn, hpaid⟩ := loop_paid app (s := s)
        ((startRound_turns app { s with isHeightStarted := true } round).le.trans (Nat.le_add_left _ _)) none
      refine ⟨n, hn, ?_⟩
      rwa [Paid, roundsEntered_writeWAL]
  | proposal p => exact message_paid app rfl _ _ _
  | prevote p => exact message_paid app rfl _ _ _
  | precommit p => exact precommit_paid app s p
  | timeout tm => exact loop_paid app (timedOut_turns app (onTimeout_timedOut app s tm)) none
  | sync p precommits => simp [Call.parts] at hcall
  | wal e => cases e <;> simp [Call.parts] at hcall

theorem calls_paid (s : StateMachine σ V H A) {calls : List (Call V H A)}
    (hcalls : ∀ call ∈ calls, call.parts = [call]) :
    ∃ n, FiresAll app s calls n ∧ Paid s n (s.calls app calls) := by
  induction calls generalizing s with
  | nil => exact ⟨0, .nil, by simp [Paid, StateMachine.calls]⟩
  | cons call calls ih =>
    obtain ⟨n, hn, hpaid⟩ := fires_paid app s (hcalls call mem_cons_self)
    obtain ⟨m, hm, hpaid'⟩ := ih (s.call app call).2 fun c hc => hcalls c (mem_cons_of_mem _ hc)
    refine ⟨n + m, .cons hn hm, ?_⟩
    unfold Paid at *
    simp only [StateMachine.calls, roundsEntered_append] at *
    omega

omit [Hashed V H] [DecidableEq H] [DecidableEq A] in
theorem Call.parts_parts (call : Call V H A) : ∀ c ∈ call.parts, c.parts = [c] := by
  cases call with
  | sync p precommits => simp [Call.parts]
  | wal e => cases e <;> simp [Call.parts]
  | _ => simp [Call.parts]

/-- The precommits of a synced block are of the height and round of its proposal, as `Extract` makes them. -/
def Call.OneRound : Call V H A → Prop
  | .sync p precommits => ∀ v ∈ precommits, v.height = p.height ∧ v.round = p.round
  | _ => True

/-- **The rules come to an end.** -/
theorem rules_terminate (s : StateMachine σ V H A) :
    (∀ recent as, ∃ fired, Stops app recent s fired (s.processLoop app as recent).2 ∧
      fired ≤ 5 + 6 * roundsEntered (s.processLoop app [] recent).1) ∧
    ∀ call : Call V H A, s.call app call = s.calls app call.parts ∧
      (∃ fired, FiresAll app s call.parts fired ∧ fired ≤ 5 + 6 * roundsEntered (s.call app call).1) ∧
      (call.OneRound → roundsEntered (s.call app call).1 ≤ 2) := by
  have hle := turns_le s
  refine ⟨fun recent as => ?_, fun call => ⟨call_eq_parts app s call, ?_, fun hcall => ?_⟩⟩
  · obtain ⟨n, hn, hfirings, -⟩ := processLoop_progress app s recent
    exact ⟨n, hn, by omega⟩
  · obtain ⟨n, hn, hpaid⟩ := calls_paid app s call.parts_parts
    rw [← call_eq_parts, Paid] at hpaid
    exact ⟨n, hn, by omega⟩
  · have hmessage : ∀ {height round r}, Enters height (some round) s r → roundsEntered r.1 ≤ 2 := by
      intro height round r h
      have hle := Bool.toNat_le ((some round).any (· > s.state.round))
      unfold Enters toEnter at h
      split_ifs at h <;> omega
    have hproposal := fun p : Proposal V A => message_enters app (s := s)
      { s with voteCounter := (s.voteCounter.addProposal p).2 } rfl
      (!(s.voteCounter.addProposal p).1 || !s.isHeightStarted) p.toMessageHeader (.proposal p)
    have hprevote := fun p : Vote H A => message_enters app (s := s)
      { s with voteCounter := (s.voteCounter.addPrevote p).2 } rfl
      (!(s.voteCounter.addPrevote p).1 || !s.isHeightStarted) p.toMessageHeader (.prevote p)
    have hwal : ∀ e, roundsEntered (s.processWAL app e).1 ≤ 2 := by
      intro e
      cases e with
      | start height => exact processStart_enters app s 0
      | proposal p => exact hmessage (hproposal p)
      | prevote p => exact hmessage (hprevote p)
      | precommit p => exact hmessage (processPrecommit_enters app s p)
      | timeout tm => exact processTimeout_enters app s tm
    cases call with
    | start round => exact processStart_enters app s round
    | proposal p => exact hwal (.proposal p)
    | prevote p => exact hwal (.prevote p)
    | precommit p => exact hwal (.precommit p)
    | sync p precommits => exact hmessage ((hproposal p).append (processPrecommits_enters app hcall _))
    | timeout tm => exact hwal (.timeout tm)
    | wal e => exact hwal e

/-- The precommits of the other three for the block 7. -/
def otherPrecommits : List (Vote ℕ Member) :=
  [⟨⟨1, 0, .v1⟩, some 7⟩, ⟨⟨1, 0, .v2⟩, some 7⟩, ⟨⟨1, 0, .v3⟩, some 7⟩]

/-- A machine that is synced with the block of its height commits it. -/
theorem rules_terminate_sync :
    let s := ((validator .v0).call anyBlock (.start 0)).2
    .commit firstProposal ∈ (s.call anyBlock (.sync firstProposal otherPrecommits)).1 ∧
      ∃ fired, FiresAll anyBlock s (.proposal firstProposal :: otherPrecommits.map .precommit) fired ∧
        fired ≤ 17 :=
  have h :=
    (rules_terminate anyBlock ((validator .v0).call anyBlock (.start 0)).2).2
      (.sync firstProposal otherPrecommits)
  have hrounds := h.2.2 (by simp [Call.OneRound, firstProposal, otherPrecommits])
  let ⟨fired, hfired, hle⟩ := h.2.1
  ⟨by decide +kernel, fired, hfired, by omega⟩

/-- Validators of which the first has two of five votes, which no faulty ones have. -/
def heavyValidator : Validators Member :=
  { fourValidators with
    totalVotingPower := fun _ => 5
    validatorVotingPower := fun _ a => if a = .v1 then 2 else 1 }

/-- The precommits of a sync are counted one after the other, so that those of five rounds take the machine
through five. -/
theorem sync_enters_five_rounds :
    roundsEntered (((new Member.v0 () heavyValidator 1).call anyBlock (.start 0)).2.call anyBlock
      (.sync firstProposal [⟨⟨1, 1, .v1⟩, none⟩, ⟨⟨1, 2, .v1⟩, none⟩, ⟨⟨1, 3, .v1⟩, none⟩,
        ⟨⟨1, 4, .v1⟩, none⟩,
        ⟨⟨1, 5, .v1⟩, none⟩])).1 = 5 := by
  decide +kernel

end Juno.Tendermint
