import Juno.Tendermint.Alike
import Juno.Walstore.Index

/-!
# Replaying the log

The entries that a machine logs are processed again, on a new machine that starts at a later
height and gets them height by height. The messages of later heights then come after all that
happened at the current one.

## The model

`Follows` says what is known of an entry when it is logged: a message is not of an earlier
height, a timeout and a start are of the current one, and a start does not decide its height.
`replay` is the loop of the driver, which leaves out the entries of heights that are past.

The main result is `Tracks.append`.
-/

namespace Juno.Tendermint

open StateMachine VoteCounter List WALEntry

variable {σ V H A : Type} [Hashed V H] [DecidableEq H] [DecidableEq A]

/-! ### Later heights -/

namespace VoteCounter

omit [Hashed V H] in
theorem add_data_of_ne (v : VoteCounter V H A) (m : Message V H A) {k : ℕ}
    (hk : k ≠ m.header.height) (r : ℤ) :
    (v.add m).2.data k r = v.data k r := by
  rcases v.add_changes m with ⟨-, heq⟩ | ⟨-, -, hc⟩
  · rw [heq]
  · rw [hc.data, if_neg fun hkr => hk hkr.1]

omit [Hashed V H] [DecidableEq A] in
theorem Holds.data_of_lt {vals : Validators A} {v : VoteCounter V H A} (h : v.Holds (fun _ => True) vals)
    {k : ℕ} (hk : k < v.currentHeight) (r : ℤ) : v.data k r = newRoundData := by
  unfold data VoteCounter.rounds
  rw [if_neg hk.ne, h.future k hk.le]
  rfl

end VoteCounter

section

variable {vals : Validators A} {s s' : StateMachine σ V H A} {k : ℕ}

section

variable (app : Application σ V)

omit [Hashed V H] in
theorem startRound_later (hk : k ≠ s.state.height) (round r : ℤ) :
    (s.startRound app round).2.voteCounter.data k r = s.voteCounter.data k r := by
  unfold startRound
  simp only
  split
  · unfold proposalValue
    split
    · exact add_data_of_ne _ (.proposal _) hk r
    · exact add_data_of_ne _ (.proposal _) hk r
  · rfl

theorem fired_later (hinv : CounterInv vals s) (hk : s.state.height < k) {recent : Option ℤ}
    {c rc : Option (CachedProposal V H A)} {turn : Turn σ V H A} (h : Fired app s recent c rc turn) (r : ℤ) :
    turn.2.voteCounter.data k r = s.voteCounter.data k r := by
  cases h with
  | firstProposal | proposalAndPolkaPrevious | lock | polkaNil => exact add_data_of_ne _ (.vote _ _) hk.ne' r
  | polkaAny | setValid | precommitAny | quiet => rfl
  | commitValue => exact (startNewHeight_data hinv.holds k r).trans (if_pos (hinv.height ▸ hk))
  | skipRound round => exact startRound_later app hk.ne' round r

theorem process_later (hinv : CounterInv vals s) (hk : s.state.height < k) (recent : Option ℤ)
    (r : ℤ) : (s.process app recent).2.voteCounter.data k r = s.voteCounter.data k r := by
  obtain ⟨a, c, rc, -, -, h⟩ := process_fired app s recent
  exact fired_later app (s := { s with application := a }) ⟨hinv.height, hinv.holds⟩ hk h r

theorem processLoop_later (hinv : CounterInv vals s) (hk : s.state.height < k)
    (as : List (Action V H A)) (recent : Option ℤ) (r : ℤ) :
    (s.processLoop app as recent).2.voteCounter.data k r = s.voteCounter.data k r := by
  have key := loop_induction app recent
    (P := fun s _ s' => CounterInv vals s → s.state.height < k →
      s'.voteCounter.data k r = s.voteCounter.data k r)
    (fun s _ hinv hk => process_later app hinv hk recent r)
    (fun s _ s' hcont ih hinv hk =>
      (ih (hinv.process recent) (by rw [process_height hcont]; exact hk)).trans
        (process_later app hinv hk recent r))
    _ s le_rfl
  exact key hinv hk

end

end

/-! ### Entries -/

variable {e : WALEntry V H A}

namespace WALEntry

/-- `GetHeight`. -/
def height : WALEntry V H A → ℕ
  | .start height => height
  | .proposal p => p.height
  | .prevote p => p.height
  | .precommit p => p.height
  | .timeout tm => tm.height

def message : WALEntry V H A → Option (Message V H A)
  | .proposal p => some (.proposal p)
  | .prevote p => some (.vote .prevote p)
  | .precommit p => some (.vote .precommit p)
  | _ => none

def isMessage (e : WALEntry V H A) : Bool := e.message.isSome

omit [Hashed V H] [DecidableEq H] [DecidableEq A] in
theorem height_of_message {m : Message V H A} (h : e.message = some m) : e.height = m.header.height := by
  cases e <;> cases h <;> rfl

/-- What the entry does to the messages of a round: a message is stored or counted in its own. -/
def put (vals : Validators A) (height : ℕ) (round : ℤ) (data : RoundData V H A) (e : WALEntry V H A) :
    RoundData V H A :=
  match e.message with
  | some m =>
    if height = m.header.height ∧ round = m.header.round then (VoteCounter.put vals m data).2 else data
  | none => data

omit [Hashed V H] in
theorem put_of_ne (vals : Validators A) {height : ℕ} (hne : e.height ≠ height) (round : ℤ)
    (data : RoundData V H A) : e.put vals height round data = data := by
  rw [put]
  cases hm : e.message with
  | some m => exact if_neg fun hc => hne ((height_of_message hm).trans hc.1.symm)
  | none => rfl

end WALEntry

/-- The messages of a round, among those of a list of entries. -/
def tally (vals : Validators A) (es : List (WALEntry V H A)) (height : ℕ) (round : ℤ) : RoundData V H A :=
  es.foldl (fun data e => e.put vals height round data) newRoundData

section

omit [Hashed V H]

theorem tally_append (vals : Validators A) (es : List (WALEntry V H A)) (e : WALEntry V H A) (height : ℕ)
    (round : ℤ) :
    tally vals (es ++ [e]) height round = e.put vals height round (tally vals es height round) := by
  simp [tally]

open Walstore (atHeight) in
theorem foldl_put_atHeight (vals : Validators A) (es : List (WALEntry V H A)) (height : ℕ) (round : ℤ)
    (data : RoundData V H A) :
    (atHeight WALEntry.height es height).foldl (fun data e => e.put vals height round data) data =
      es.foldl (fun data e => e.put vals height round data) data := by
  induction es generalizing data with
  | nil => rfl
  | cons e es ih =>
    rw [foldl_cons, ← ih]
    by_cases he : e.height = height
    · rw [atHeight, filter_cons_of_pos (by simpa using he), foldl_cons]
      rfl
    · rw [atHeight, filter_cons_of_neg (by simpa using he), put_of_ne vals he]
      rfl

theorem foldl_put_of_ne (vals : Validators A) {height : ℕ} {es : List (WALEntry V H A)}
    (hne : ∀ e ∈ es, e.height ≠ height) (round : ℤ) (data : RoundData V H A) :
    es.foldl (fun data e => e.put vals height round data) data = data := by
  induction es with
  | nil => rfl
  | cons e es ih =>
    rw [foldl_cons, put_of_ne vals (hne e mem_cons_self)]
    exact ih fun e' he' => hne e' (mem_cons_of_mem _ he')

end

def Action.isCommit : Action V H A → Bool
  | .commit _ => true
  | _ => false

omit [Hashed V H] [DecidableEq H] [DecidableEq A] in
theorem Action.ne_commit {a : Action V H A} (h : a.isCommit = false) (p : Proposal V A) : .commit p ≠ a := by
  rintro rfl
  simp [Action.isCommit] at h

omit [Hashed V H] [DecidableEq H] in
theorem startRound_action (app : Application σ V) (s : StateMachine σ V H A) (r : ℤ) :
    (s.startRound app r).1.isVisible = true ∧ (s.startRound app r).1.isCommit = false := by
  unfold startRound
  simp only
  split
  · exact ⟨rfl, rfl⟩
  · exact ⟨rfl, rfl⟩

section

variable {vals : Validators A} {s s' : StateMachine σ V H A} {k : ℕ} (app : Application σ V)

/-- What an entry does to a counter, before anything else. -/
def WALEntry.added (v : VoteCounter V H A) (e : WALEntry V H A) : VoteCounter V H A :=
  match e.message with
  | some m => (v.add m).2
  | none => v

omit [Hashed V H] in
theorem CounterInv.added (hinv : CounterInv vals s) (e : WALEntry V H A) :
    CounterInv vals { s with voteCounter := e.added s.voteCounter } := by
  rw [WALEntry.added]
  cases e.message with
  | some m => exact hinv.add m rfl rfl
  | none => exact hinv

omit [Hashed V H] in
theorem added_data (hinv : CounterInv vals s) (hle : s.state.height ≤ e.height) (k : ℕ) (r : ℤ) :
    (e.added s.voteCounter).data k r = e.put vals k r (s.voteCounter.data k r) := by
  rw [WALEntry.added, WALEntry.put]
  cases hm : e.message with
  | some m =>
    rw [height_of_message hm] at hle
    rcases s.voteCounter.add_changes m with ⟨hlt, -⟩ | ⟨-, -, hc⟩
    · rw [hinv.height] at hlt
      omega
    · rw [hinv.holds.validators] at hc
      exact hc.data k r
  | none => rfl

/-- **A message of a later height, or one that comes before the start, is only counted.** -/
theorem processWAL_counts (hinv : CounterInv vals s) (hmessage : e.isMessage = true)
    (hle : s.state.height ≤ e.height) (hother : e.height ≠ s.state.height ∨ s.isHeightStarted = false) :
    visible (s.processWAL app e).1 = [] ∧
      Alike vals Set.univ { s with voteCounter := e.added s.voteCounter } (s.processWAL app e).2 := by
  have hadded := hinv.added e
  have hcounted : ∀ {s₁ : StateMachine σ V H A} {msg : MessageHeader A} {isNew : Bool} {e : WALEntry V H A},
      CounterInv vals s₁ → (msg.height ≠ s₁.state.height ∨ s₁.isHeightStarted = false) →
      visible (if !isNew || !s₁.isHeightStarted then ([], s₁) else s₁.processMessage app msg e).1 = [] ∧
        Alike vals Set.univ s₁
          (if !isNew || !s₁.isHeightStarted then ([], s₁) else s₁.processMessage app msg e).2 := by
    intro s₁ msg isNew e hinv₁ hother₁
    split
    · exact ⟨rfl, .refl hinv₁⟩
    next hstarted =>
      rcases hother₁ with hne | hnot
      · rw [processMessage_of_ne hne]
        exact ⟨rfl, .refl hinv₁⟩
      · simp [hnot] at hstarted
  cases e with
  | start height => cases hmessage
  | timeout tm => cases hmessage
  | proposal | prevote => exact hcounted hadded hother
  | precommit p =>
    change visible (s.processPrecommit app p).1 = [] ∧ Alike vals Set.univ _ (s.processPrecommit app p).2
    rcases Nat.lt_or_ge s.state.height p.height with hlt | hge
    · exact processPrecommit_of_lt app hinv hlt
    · rw [processPrecommit_of_le hge]
      exact hcounted hadded hother

omit [Hashed V H] [DecidableEq H] in
theorem startRound_nodeAddr (s : StateMachine σ V H A) (r : ℤ) :
    (s.startRound app r).2.nodeAddr = s.nodeAddr := by
  unfold startRound
  simp only
  split
  · unfold proposalValue
    split <;> rfl
  · rfl

omit [Hashed V H] in
theorem CounterInv.sendPrevote (hinv : CounterInv vals s) (id : Option H) :
    CounterInv vals (s.setStepAndSendPrevote id).2 :=
  hinv.add (.vote _ _) rfl rfl

omit [Hashed V H] in
theorem CounterInv.sendPrecommit (hinv : CounterInv vals s) (id : Option H) :
    CounterInv vals (s.setStepAndSendPrecommit id).2 :=
  hinv.add (.vote _ _) rfl rfl

/-- The machine before the loop of an entry: the entry was counted, a round was started or a vote was sent. -/
structure Prepared (vals : Validators A) (s : StateMachine σ V H A) (e : WALEntry V H A)
    (s₁ : StateMachine σ V H A) : Prop where
  inv : CounterInv vals s₁
  nodeAddr : s₁.nodeAddr = s.nodeAddr
  height : s₁.state.height = s.state.height
  /-- The messages of later heights stay, unless the entry is one of them. -/
  later : ∀ k r, s.state.height < k → e.height ≤ s.state.height →
    s₁.voteCounter.data k r = s.voteCounter.data k r

/-- What an entry comes to: some actions that are no commit, and perhaps the loop. -/
def Comes (app : Application σ V) (vals : Validators A) (s : StateMachine σ V H A) (e : WALEntry V H A)
    (result : List (Action V H A) × StateMachine σ V H A) : Prop :=
  ∃ s₁ as, Prepared vals s e s₁ ∧ (∀ a ∈ as, a.isCommit = false) ∧
    (result = (as, s₁) ∨ ∃ recent, result = s₁.processLoop app as recent)

section

variable (hinv : CounterInv vals s)
include hinv

omit [Hashed V H] [DecidableEq A] in
theorem Prepared.refl : Prepared vals s e s := ⟨hinv, rfl, rfl, fun _ _ _ _ => rfl⟩

section

omit [Hashed V H]

theorem Prepared.added (e : WALEntry V H A) :
    Prepared vals s e { s with voteCounter := e.added s.voteCounter } := by
  refine ⟨hinv.added e, rfl, rfl, fun k r hk hle => ?_⟩
  simp only [WALEntry.added]
  cases hm : e.message with
  | some m => exact add_data_of_ne _ m (height_of_message hm ▸ (hle.trans_lt hk).ne') r
  | none => rfl

theorem Prepared.vote {id : Option H} {t : VoteType} {s₁ : StateMachine σ V H A}
    (hcounter : s₁.voteCounter = (s.voteCounter.addVote ⟨s.header, id⟩ t).2)
    (hnode : s₁.nodeAddr = s.nodeAddr) (hheight : s₁.state.height = s.state.height) :
    Prepared vals s e s₁ := by
  refine ⟨hinv.add (.vote _ _) hcounter hheight, hnode, hheight, fun k r hk _ => ?_⟩
  rw [hcounter]
  exact add_data_of_ne _ (.vote _ _) hk.ne' r

theorem Prepared.startRound (r : ℤ) : Prepared vals s e (s.startRound app r).2 :=
  ⟨hinv.startRound app r, startRound_nodeAddr app s r, by rw [startRound_state]; rfl,
    fun _ r' hk _ => startRound_later app hk.ne' r r'⟩

end

end

theorem comes_message {s₁ : StateMachine σ V H A} (h : Prepared vals s e s₁) (msg : MessageHeader A)
    (isNew : Bool) :
    Comes app vals s e (if !isNew || !s₁.isHeightStarted then ([], s₁) else s₁.processMessage app msg e) := by
  have hlog : ∀ a ∈ [Action.writeWAL e], a.isCommit = false := fun a ha => by rw [mem_singleton.mp ha]; rfl
  split
  · exact ⟨s₁, [], h, fun a ha => (by cases ha), .inl rfl⟩
  · unfold processMessage
    split
    · exact ⟨s₁, _, h, hlog, .inl rfl⟩
    · exact ⟨s₁, _, h, hlog, .inr ⟨_, rfl⟩⟩

section

variable (hinv : CounterInv vals s)
include hinv

theorem comes_timeout (tm : Timeout) : Comes app vals s e (s.processTimeout app tm) := by
  have hloop : ∀ {s₁ : StateMachine σ V H A} {a : Action V H A}, Prepared vals s e s₁ → a.isCommit = false →
      Comes app vals s e (s₁.processLoop app [.writeWAL (.timeout tm), a] none) := by
    intro s₁ a h ha
    refine ⟨s₁, _, h, fun a' ha' => ?_, .inr ⟨none, rfl⟩⟩
    rcases mem_cons.mp ha' with rfl | ha'
    · rfl
    · rwa [mem_singleton.mp ha']
  obtain ⟨r, hr, heq⟩ := processTimeout_timedOut app s tm
  rw [heq]
  cases hr with
  | ignored => exact ⟨s, [], .refl hinv, fun a ha => (by cases ha), .inr ⟨none, rfl⟩⟩
  | propose => exact hloop (.vote hinv rfl rfl rfl) rfl
  | prevote => exact hloop (.vote hinv rfl rfl rfl) rfl
  | precommit => exact hloop (.startRound app hinv _) (startRound_action app s _).2

theorem processWAL_comes (e : WALEntry V H A) : Comes app vals s e (s.processWAL app e) := by
  cases e with
  | start height =>
    simp only [processWAL, processStart]
    split
    · exact ⟨s, [], .refl hinv, fun a ha => (by cases ha), .inl rfl⟩
    · have hround := Prepared.startRound app (s := { s with isHeightStarted := true }) (e := .start height)
        ⟨hinv.height, hinv.holds⟩ 0
      refine ⟨_, [.writeWAL (.start _), _], ⟨hround.inv, hround.nodeAddr, hround.height, hround.later⟩,
        fun a ha => ?_,
        .inr ⟨none, rfl⟩⟩
      rcases mem_cons.mp ha with rfl | ha
      · rfl
      · rw [mem_singleton.mp ha]
        exact (startRound_action app _ 0).2
  | proposal p => exact comes_message app (.added hinv (.proposal p)) _ _
  | prevote p => exact comes_message app (.added hinv (.prevote p)) _ _
  | precommit p =>
    change Comes app vals s _ (s.processPrecommit app p)
    rcases Nat.lt_or_ge s.state.height p.height with hlt | hge
    · obtain ⟨hnone, hsame⟩ := processPrecommit_of_lt (K := Set.univ) app hinv hlt
      refine ⟨(s.processPrecommit app p).2, (s.processPrecommit app p).1,
        ⟨hsame.symm.inv, hsame.nodeAddr, congrArg State.height hsame.state, fun _ _ _ hle => ?_⟩,
          fun a ha => ?_, .inl rfl⟩
      · exact absurd hlt (not_lt.mpr hle)
      · by_contra hcommit
        have hvisible : a.isVisible = true := by
          cases a with
          | commit p' => rfl
          | _ => exact absurd rfl hcommit
        have hmem : a ∈ visible (s.processPrecommit app p).1 := mem_filter.mpr ⟨ha, hvisible⟩
        rw [hnone] at hmem
        exact not_mem_nil hmem
    · rw [processPrecommit_of_le hge]
      exact comes_message app (.added hinv (.precommit p)) _ _
  | timeout tm => exact comes_timeout app hinv tm

theorem CounterInv.processWAL (e : WALEntry V H A) : CounterInv vals (s.processWAL app e).2 := by
  obtain ⟨s₁, as, h, -, heq | ⟨recent, heq⟩⟩ := processWAL_comes app hinv e
  · rw [heq]
    exact h.inv
  · rw [heq]
    exact h.inv.processLoop as recent

/-- **An entry leaves the messages of later heights**, unless it is one of them. -/
theorem processWAL_later (hk : s.state.height < k) (hne : e.height ≤ s.state.height) (r : ℤ) :
    (s.processWAL app e).2.voteCounter.data k r = s.voteCounter.data k r := by
  obtain ⟨s₁, as, h, -, heq | ⟨recent, heq⟩⟩ := processWAL_comes app hinv e
  · rw [heq]
    exact h.later k r hk hne
  · rw [heq]
    exact (processLoop_later app h.inv (h.height ▸ hk) as recent r).trans (h.later k r hk hne)

end

/-! ### The next height -/

/-- The state of a machine that was just made. -/
def State.initial (height : ℕ) : State V := ⟨height, 0, .propose, none, -1, none, -1, false, false, false⟩

/-- The machine stays at its height, or is new at the next one. -/
structure Advances (s s' : StateMachine σ V H A) : Prop where
  nodeAddr : s'.nodeAddr = s.nodeAddr
  state : s'.state.height = s.state.height ∨
    (s'.state = .initial (s.state.height + 1) ∧ s'.isHeightStarted = false)

omit [Hashed V H] [DecidableEq H] [DecidableEq A] in
theorem Advances.trans {s'' : StateMachine σ V H A} (h : Advances s s')
    (hheight : s'.state.height = s.state.height) (h' : Advances s' s'') : Advances s s'' :=
  ⟨h'.nodeAddr.trans h.nodeAddr, by rw [← hheight]; exact h'.state⟩

omit [Hashed V H] [DecidableEq H] in
theorem startRound_advances (r : ℤ) : Advances s (s.startRound app r).2 :=
  ⟨startRound_nodeAddr app s r, .inl (by rw [startRound_state]; rfl)⟩

theorem process_advances (recent : Option ℤ) : Advances s (s.process app recent).2 := by
  obtain ⟨a, c, rc, -, -, h⟩ := process_fired app s recent
  generalize s.process app recent = turn at h
  cases h with
  | commitValue => exact ⟨rfl, .inr ⟨rfl, rfl⟩⟩
  | skipRound r =>
    have hstep := startRound_advances app (s := { s with application := a }) r
    exact ⟨hstep.nodeAddr, hstep.state⟩
  | _ => exact ⟨rfl, .inl rfl⟩

theorem processLoop_advances (as : List (Action V H A)) (recent : Option ℤ) :
    Advances s (s.processLoop app as recent).2 :=
  loop_induction app recent (P := fun s _ s' => Advances s s') (fun _ _ => process_advances app recent)
    (fun _ _ _ hcont ih => (process_advances app recent).trans (process_height hcont) ih) _ s le_rfl

/-- An entry takes the machine at most to the next height. -/
theorem processWAL_advances (hinv : CounterInv vals s) (e : WALEntry V H A) :
    Advances s (s.processWAL app e).2 := by
  obtain ⟨s₁, as, h, -, heq | ⟨recent, heq⟩⟩ := processWAL_comes app hinv e
  · rw [heq]
    exact ⟨h.nodeAddr, .inl h.height⟩
  · rw [heq]
    exact Advances.trans ⟨h.nodeAddr, .inl h.height⟩ h.height (processLoop_advances app as recent)

end

/-! ### Replaying -/

open Walstore (atHeight group)

section

variable (app : Application σ V)

/-- The loop of the driver's `replay`: the entries of past heights are left out. -/
def StateMachine.replay (s : StateMachine σ V H A) :
    List (WALEntry V H A) → List (Action V H A) × StateMachine σ V H A
  | [] => ([], s)
  | e :: es =>
    if e.height < s.state.height then s.replay es
    else ((s.processWAL app e).1 ++ ((s.processWAL app e).2.replay es).1,
      ((s.processWAL app e).2.replay es).2)

variable {vals : Validators A} {s s' : StateMachine σ V H A}

theorem replay_append (s : StateMachine σ V H A) (es es' : List (WALEntry V H A)) :
    s.replay app (es ++ es') =
      ((s.replay app es).1 ++ ((s.replay app es).2.replay app es').1,
        ((s.replay app es).2.replay app es').2) := by
  induction es generalizing s with
  | nil => rfl
  | cons e es ih =>
    simp only [cons_append, replay]
    split
    · exact ih s
    · rw [ih, append_assoc]

theorem replay_singleton (hle : s.state.height ≤ e.height) : s.replay app [e] = s.processWAL app e := by
  simp [replay, not_lt.mpr hle]

theorem CounterInv.replay (hinv : CounterInv vals s) (es : List (WALEntry V H A)) :
    CounterInv vals (s.replay app es).2 := by
  induction es generalizing s with
  | nil => exact hinv
  | cons e es ih =>
    unfold replay
    split
    · exact ih hinv
    · exact ih (hinv.processWAL app e)

theorem replay_filter (hinv : CounterInv vals s) {c : ℕ} (hc : c ≤ s.state.height)
    (es : List (WALEntry V H A)) : s.replay app es = s.replay app (es.filter fun e => c ≤ e.height) := by
  induction es generalizing s with
  | nil => rfl
  | cons e es ih =>
    by_cases hce : c ≤ e.height
    · rw [filter_cons_of_pos (by simpa using hce), replay, replay]
      split
      · exact ih hinv hc
      · have hheight : s.state.height ≤ (s.processWAL app e).2.state.height := by
          rcases (processWAL_advances app hinv e).state with heq | ⟨heq, -⟩
          · exact heq.ge
          · rw [heq]
            exact Nat.le_succ _
        rw [ih (hinv.processWAL app e) (hc.trans hheight)]
    · rw [filter_cons_of_neg (by simpa using hce), replay, if_pos (by omega)]
      exact ih hinv hc

/-- What is known of a list of messages that were only counted. -/
structure Counted (vals : Validators A) (es : List (WALEntry V H A)) (s s' : StateMachine σ V H A) :
    Prop where
  inv : CounterInv vals s'
  nodeAddr : s'.nodeAddr = s.nodeAddr
  state : s'.state = s.state
  started : s'.isHeightStarted = s.isHeightStarted
  data : ∀ k r,
    s'.voteCounter.data k r = es.foldl (fun data e => e.put vals k r data) (s.voteCounter.data k r)

theorem counted_processWAL (hinv : CounterInv vals s) (hmessage : e.isMessage = true)
    (hle : s.state.height ≤ e.height) (hother : e.height ≠ s.state.height ∨ s.isHeightStarted = false) :
    visible (s.processWAL app e).1 = [] ∧ Counted vals [e] s (s.processWAL app e).2 := by
  obtain ⟨hacts, hsame⟩ := processWAL_counts app hinv hmessage hle hother
  refine ⟨hacts, hinv.processWAL app e, hsame.nodeAddr, hsame.state, hsame.started, fun k r => ?_⟩
  exact (hsame.counter.data k trivial r).trans (added_data hinv hle k r)

theorem counted_replay (hinv : CounterInv vals s) {es : List (WALEntry V H A)}
    (hmessage : ∀ e ∈ es, e.isMessage = true) (hle : ∀ e ∈ es, s.state.height ≤ e.height)
    (hother : ∀ e ∈ es, e.height ≠ s.state.height ∨ s.isHeightStarted = false) :
    visible (s.replay app es).1 = [] ∧ Counted vals es s (s.replay app es).2 := by
  induction es generalizing s with
  | nil => exact ⟨rfl, hinv, rfl, rfl, rfl, fun _ _ => rfl⟩
  | cons e es ih =>
    have hmem : ∀ e' ∈ es, e' ∈ e :: es := fun e' he' => mem_cons_of_mem _ he'
    obtain ⟨hacts, hone⟩ := counted_processWAL app hinv (hmessage e mem_cons_self) (hle e mem_cons_self)
      (hother e mem_cons_self)
    obtain ⟨hacts', hrest⟩ := ih hone.inv (fun e' he' => hmessage e' (hmem e' he'))
      (fun e' he' => by rw [hone.state]; exact hle e' (hmem e' he'))
      (fun e' he' => by rw [hone.state, hone.started]; exact hother e' (hmem e' he'))
    rw [replay, if_neg (not_lt.mpr (hle e mem_cons_self))]
    refine ⟨?_, hrest.inv, hrest.nodeAddr.trans hone.nodeAddr, hrest.state.trans hone.state,
      hrest.started.trans hone.started, fun k r => ?_⟩
    · unfold visible at hacts hacts' ⊢
      rw [filter_append, hacts, hacts']
      rfl
    · rw [hrest.data, hone.data]
      rfl

end

/-! ### The machine that logged the entries -/

section

variable (app : Application σ V)

/-- What is known of an entry that the machine logs: nothing is of a past height, starts and timeouts are of
the current one, and a start does not decide it. -/
def StateMachine.Follows (s : StateMachine σ V H A) : WALEntry V H A → Prop
  | .start height => height = s.state.height ∧ (s.processStart app 0).2.state.height = s.state.height
  | .timeout tm =>
    tm.height = s.state.height ∧ s.isHeightStarted = true ∧ (tm.step = .precommit → tm.round < 2 ^ 63 - 1)
  | .proposal p => s.state.height ≤ p.height
  | .prevote p => s.state.height ≤ p.height
  | .precommit p => s.state.height ≤ p.height

variable {app} {vals : Validators A} {node : A} {b : ℕ} {D : List (WALEntry V H A)} {as : List (Action V H A)}
  {s s' : StateMachine σ V H A}

theorem StateMachine.Follows.le (h : s.Follows app e) : s.state.height ≤ e.height := by
  cases e with
  | start height => exact h.1.ge
  | timeout tm => exact h.1.ge
  | _ => exact h

theorem StateMachine.Follows.isMessage (h : s.Follows app e) (hlt : s.state.height < e.height) :
    e.isMessage = true := by
  cases e with
  | start | timeout => exact absurd h.1 hlt.ne'
  | _ => rfl

/-- Entries were replayed up to a height: the machine is like `s`, has no messages of later heights, and did
nothing that is not in `as`. -/
structure Replays (vals : Validators A) (height : ℕ) (result : List (Action V H A) × StateMachine σ V H A)
    (as : List (Action V H A)) (s : StateMachine σ V H A) : Prop where
  alike : Alike vals {height} result.2 s
  later : ∀ k, height < k → ∀ r, result.2.voteCounter.data k r = newRoundData
  acts : ∀ act ∈ visible result.1, act ∈ as

variable (app vals node b) in
/-- The machine `s` logged the entries `D`, from height `b` on, with the actions `as`: the messages of later
heights are those of the entries, and replaying the entries of the current height and those before it gives a
machine like `s`. -/
structure Tracks (D : List (WALEntry V H A)) (as : List (Action V H A)) (s : StateMachine σ V H A) :
    Prop where
  inv : CounterInv vals s
  nodeAddr : s.nodeAddr = node
  messages : ∀ e ∈ D, s.state.height < e.height → e.isMessage = true
  future : ∀ k, s.state.height < k → ∀ r, s.voteCounter.data k r = tally vals D k r
  /-- A machine that is new at height `c` and gets the entries up to the current height. -/
  replayed : ∀ c, b ≤ c → c ≤ s.state.height → ∀ a : σ, Replays vals s.state.height
    ((new node a vals c).replay app (group WALEntry.height c (s.state.height + 1) D)) as s

omit [Hashed V H] [DecidableEq A] in
theorem counterInv_new (node : A) (a : σ) (vals : Validators A) (height : ℕ) :
    CounterInv vals (new node a vals height : StateMachine σ V H A) := ⟨rfl, holds_new _ vals height⟩

omit [Hashed V H] [DecidableEq H] [DecidableEq A] in
theorem new_data (node : A) (a : σ) (vals : Validators A) (height k : ℕ) (r : ℤ) :
    (new node a vals height : StateMachine σ V H A).voteCounter.data k r = newRoundData := by
  have hnone : (VoteCounter.new vals height : VoteCounter V H A).rounds k r = none := by
    unfold VoteCounter.rounds
    split <;> rfl
  change ((VoteCounter.new vals height : VoteCounter V H A).rounds k r).getD newRoundData = newRoundData
  rw [hnone]
  rfl

variable (app) in
theorem tracks_new (node : A) (a : σ) (vals : Validators A) (b : ℕ) :
    Tracks app vals node b [] [] (new node a vals b : StateMachine σ V H A) := by
  refine ⟨counterInv_new _ _ _ _, rfl, fun e he => (by cases he), fun k _ r => new_data _ _ _ _ _ _,
    fun c hbc hcb a' => ?_⟩
  obtain rfl : b = c := le_antisymm hbc hcb
  have hempty : group height b (b + 1) ([] : List (WALEntry V H A)) = [] := by simp [group, atHeight]
  change Replays vals b ((new node a' vals b).replay app (group height b (b + 1) [])) _ _
  rw [hempty]
  exact ⟨.of_memory (counterInv_new _ _ _ _) a 0 0, fun k _ r => new_data _ _ _ _ _ _,
    fun act hact => by cases hact⟩

section

omit [Hashed V H] [DecidableEq H] [DecidableEq A]

theorem atHeight_append_singleton (D : List (WALEntry V H A)) (e : WALEntry V H A) (k : ℕ) :
    atHeight WALEntry.height (D ++ [e]) k =
      if e.height = k then atHeight WALEntry.height D k ++ [e] else atHeight WALEntry.height D k := by
  unfold atHeight
  rw [filter_append, filter_singleton]
  by_cases hk : e.height = k
  · simp [hk]
  · simp [hk]

/-- The groups below the height of a new entry stay. -/
theorem group_append_of_le {n : ℕ} (h : n ≤ e.height) (c : ℕ) (D : List (WALEntry V H A)) :
    group WALEntry.height c n (D ++ [e]) = group WALEntry.height c n D := by
  refine Walstore.group_congr _ fun k _ hk => ?_
  rw [atHeight_append_singleton, if_neg (by omega)]

/-- A new entry of the last height is the last of the groups. -/
theorem group_append_self {c : ℕ} (h : c ≤ e.height) (D : List (WALEntry V H A)) :
    group WALEntry.height c (e.height + 1) (D ++ [e]) = group WALEntry.height c (e.height + 1) D ++ [e] := by
  rw [Walstore.group_succ _ h, Walstore.group_succ _ h, group_append_of_le le_rfl, atHeight_append_singleton,
    if_pos rfl, append_assoc]

theorem visible_append (as bs : List (Action V H A)) : visible (as ++ bs) = visible as ++ visible bs :=
  filter_append ..

end

omit [Hashed V H] [DecidableEq A] in
theorem Replays.append {height : ℕ} {result : List (Action V H A) × StateMachine σ V H A}
    {acts bs : List (Action V H A)} (h : Replays vals height result bs s)
    (hacts : ∀ act ∈ visible acts, act ∈ as) :
    Replays vals height (acts ++ result.1, result.2) (as ++ bs) s := by
  refine ⟨h.alike, h.later, fun act hact => ?_⟩
  rw [visible_append] at hact
  rcases mem_append.mp hact with hact | hact
  · exact mem_append_left _ (hacts act hact)
  · exact mem_append_right _ (h.acts act hact)

omit [Hashed V H] [DecidableEq H] [DecidableEq A] in
theorem mem_of_mem_visible {act : Action V H A} (h : act ∈ visible as) : act ∈ as := (List.mem_filter.mp h).1

theorem Tracks.append_later (h : Tracks app vals node b D as s) (hmessage : e.isMessage = true)
    (hlt : s.state.height < e.height) :
    Tracks app vals node b (D ++ [e]) (as ++ (s.processWAL app e).1) (s.processWAL app e).2 := by
  obtain ⟨-, hcounted⟩ := counted_processWAL app h.inv hmessage hlt.le (.inl hlt.ne')
  have hdata : ∀ r, (s.processWAL app e).2.voteCounter.data s.state.height r =
      s.voteCounter.data s.state.height r :=
    fun r => (hcounted.data _ r).trans (put_of_ne vals hlt.ne' r _)
  refine ⟨hcounted.inv, hcounted.nodeAddr.trans h.nodeAddr, ?_, ?_, ?_⟩
  · intro e' he' hlt'
    rcases mem_append.mp he' with he' | he'
    · exact h.messages e' he' (by rw [hcounted.state] at hlt'; exact hlt')
    · obtain rfl := mem_singleton.mp he'
      exact hmessage
  · intro k hk r
    rw [hcounted.state] at hk
    rw [hcounted.data, h.future k hk, tally_append]
    rfl
  · rw [hcounted.state]
    intro c hbc hc a
    rw [group_append_of_le hlt]
    obtain ⟨hlike, hlater, hacts⟩ := h.replayed c hbc hc a
    refine ⟨hlike.trans ⟨⟨h.inv.holds, hcounted.inv.holds, ?_, ?_⟩, h.inv.height, hcounted.nodeAddr,
      hcounted.state,
      hcounted.started⟩, hlater, fun act hact => mem_append_left _ (hacts act hact)⟩
    · rw [hcounted.inv.height, h.inv.height, hcounted.state]
    · rintro k rfl r
      exact hdata r

/-- An entry of the current height says nothing of the later ones. -/
theorem Tracks.future_append (h : Tracks app vals node b D as s) (heq : e.height = s.state.height) :
    (∀ e' ∈ D ++ [e], s.state.height < e'.height → e'.isMessage = true) ∧
      ∀ k, s.state.height < k → ∀ r, (s.processWAL app e).2.voteCounter.data k r =
        tally vals (D ++ [e]) k r := by
  refine ⟨fun e' he' hlt => ?_, fun k hk r => ?_⟩
  · rcases mem_append.mp he' with he' | he'
    · exact h.messages e' he' hlt
    · obtain rfl := mem_singleton.mp he'
      omega
  · rw [processWAL_later app h.inv hk heq.le, h.future k hk, tally_append, put_of_ne vals (by omega)]

section

variable (hfixed : app.Fixed) (hpos : ∀ height, 1 ≤ q (vals.totalVotingPower height))
include hfixed hpos

/-- What a machine that gets the entries up to the current height does with one more of the current height. -/
theorem Tracks.replayed_append (h : Tracks app vals node b D as s) (heq : e.height = s.state.height) {c : ℕ}
    (hbc : b ≤ c) (hc : c ≤ s.state.height) (a : σ) :
    Replays vals s.state.height
      ((new node a vals c).replay app (group WALEntry.height c (s.state.height + 1) (D ++ [e])))
      (as ++ (s.processWAL app e).1) (s.processWAL app e).2 := by
  obtain ⟨hlike, hlater, hacts⟩ := h.replayed c hbc hc a
  have hgroup := group_append_self (heq ▸ hc) D
  rw [heq] at hgroup
  rw [hgroup, replay_append]
  generalize (new node a vals c).replay app (group height c (s.state.height + 1) D) = R
    at hlike hlater hacts ⊢
  have hheight : R.2.state.height = s.state.height := congrArg State.height hlike.state.symm
  rw [replay_singleton app (by rw [hheight, heq])]
  obtain ⟨hvisible, hend⟩ := hlike.processWAL hfixed hpos (by rw [hheight]; rfl) e
  refine Replays.append ⟨hend, fun k hk r => ?_, fun act hact => ?_⟩ hacts
  · rw [processWAL_later app hlike.inv (by rw [hheight]; exact hk) (by rw [hheight, heq])]
    exact hlater k hk r
  · rw [← hvisible] at hact
    exact mem_of_mem_visible hact

/-- An entry of the current height that does not decide it. -/
theorem Tracks.append_same (h : Tracks app vals node b D as s) (heq : e.height = s.state.height)
    (hsame : (s.processWAL app e).2.state.height = s.state.height) :
    Tracks app vals node b (D ++ [e]) (as ++ (s.processWAL app e).1) (s.processWAL app e).2 := by
  obtain ⟨hmessages, hfuture⟩ := h.future_append heq
  refine ⟨h.inv.processWAL app e, (processWAL_advances app h.inv e).nodeAddr.trans h.nodeAddr, ?_, ?_, ?_⟩
  all_goals rw [hsame]
  · exact hmessages
  · exact hfuture
  · exact fun c hbc hc a => h.replayed_append hfixed hpos heq hbc hc a

variable (app) in
omit hfixed hpos in
/-- A machine that comes to a height without its messages counts them, and is then like one that had counted
them. -/
theorem counts_alike {h₀ : ℕ} (hmessages : ∀ e ∈ D, e.height = h₀ → e.isMessage = true)
    (hinv : CounterInv vals s) (hstate : s.state = .initial h₀) (hstarted : s.isHeightStarted = false)
    (hdata : ∀ r, s.voteCounter.data h₀ r = tally vals D h₀ r)
    (hinv' : CounterInv vals s') (hstate' : s'.state = .initial h₀) (hstarted' : s'.isHeightStarted = false)
    (hnode : s.nodeAddr = s'.nodeAddr) (hlater : ∀ k, h₀ ≤ k → ∀ r, s'.voteCounter.data k r = newRoundData) :
    Replays vals h₀ (s'.replay app (atHeight WALEntry.height D h₀)) [] s := by
  have hmem : ∀ e ∈ atHeight height D h₀, e ∈ D ∧ e.height = h₀ := fun e he =>
    ⟨(mem_filter.mp he).1, of_decide_eq_true (mem_filter.mp he).2⟩
  have hheight : s'.state.height = h₀ := congrArg State.height hstate'
  obtain ⟨hacts, hcounted⟩ := counted_replay app hinv' (fun e he => hmessages e (hmem e he).1 (hmem e he).2)
    (fun e he => by rw [hheight, (hmem e he).2]) (fun _ _ => .inr hstarted')
  refine ⟨⟨⟨hcounted.inv.holds, hinv.holds, ?_, ?_⟩, hcounted.inv.height, ?_, ?_, ?_⟩, fun k hk r => ?_,
    hacts ▸ fun _ => id⟩
  · rw [hinv.height, hcounted.inv.height, hcounted.state, hstate, hstate']
  · rintro k rfl r
    rw [hcounted.data, hlater _ le_rfl, foldl_put_atHeight, hdata]
    rfl
  · rw [hcounted.nodeAddr, hnode]
  · rw [hcounted.state, hstate, hstate']
  · rw [hcounted.started, hstarted, hstarted']
  · rw [hcounted.data, hlater k hk.le, foldl_put_of_ne vals fun e he => by rw [(hmem e he).2]; exact hk.ne]

theorem Tracks.append_decides (h : Tracks app vals node b D as s) (heq : e.height = s.state.height)
    (hstate : (s.processWAL app e).2.state = .initial (s.state.height + 1))
    (hstarted : (s.processWAL app e).2.isHeightStarted = false) :
    Tracks app vals node b (D ++ [e]) (as ++ (s.processWAL app e).1) (s.processWAL app e).2 := by
  have hinv' := h.inv.processWAL app e
  have hheight : (s.processWAL app e).2.state.height = s.state.height + 1 := congrArg State.height hstate
  have hnode := (processWAL_advances app h.inv e).nodeAddr.trans h.nodeAddr
  obtain ⟨hmessages, hfuture⟩ := h.future_append heq
  refine ⟨hinv', hnode, fun e' he' hlt => hmessages e' he' (by omega), fun k hk r => hfuture k (by omega) r,
    ?_⟩
  rw [hheight]
  intro c hbc hc a
  have hcounts :=
    fun {s'} (hs' : CounterInv vals s') => counts_alike app (fun e' he' hk => hmessages e' he' (by omega))
    hinv' hstate hstarted (hfuture _ (Nat.lt_succ_self _)) hs'
  rw [Walstore.group_succ _ hc, replay_append, ← append_nil (as ++ _)]
  rcases hc.lt_or_eq with hc | rfl
  · have hend := h.replayed_append hfixed hpos heq hbc (Nat.le_of_lt_succ hc) a
    exact (hcounts hend.alike.inv (hend.alike.state.symm.trans hstate)
      (hend.alike.started.symm.trans hstarted)
      hend.alike.nodeAddr hend.later).append hend.acts
  · rw [Walstore.group_self]
    exact (hcounts (counterInv_new node a vals (s.state.height + 1)) rfl rfl hnode
      fun _ _ _ => new_data _ _ _ _ _ _).append fun act hact => by cases hact

/-- **What a machine logs, a machine that replays it becomes.** -/
theorem Tracks.append (h : Tracks app vals node b D as s) (hf : s.Follows app e) :
    Tracks app vals node b (D ++ [e]) (as ++ (s.processWAL app e).1) (s.processWAL app e).2 := by
  rcases hf.le.lt_or_eq with hlt | heq
  · exact h.append_later (hf.isMessage hlt) hlt
  · rcases (processWAL_advances app h.inv e).state with hsame | ⟨hstate, hstarted⟩
    · exact h.append_same hfixed hpos heq.symm hsame
    · exact h.append_decides hfixed hpos heq.symm hstate hstarted

end

end

end Juno.Tendermint
