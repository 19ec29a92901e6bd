import Juno.Lib.LockedVoting
import Juno.Tendermint.Rounds

/-!
# Agreement

A network of validators of which some are faulty. The others run the state machine, on any
proper calls in any order: messages are lost, repeated, and delayed across rounds and heights.
A message in the name of a correct validator is one that this validator sent; anything can come
in the name of a faulty one.

## The model

A `Net` has a machine for every validator and all the actions it took. A schedule is a list of
calls on the machines of correct validators, with the messages each of them brings.

The main result is `commits_agree`.
-/

namespace Juno.Tendermint

open StateMachine Finset VoteCounter Function

variable {σ V H A : Type} [Hashed V H] [DecidableEq H] [DecidableEq A]
variable {received received' : Message V H A → Prop} {vals : Validators A} {s s' : StateMachine σ V H A}
variable {as hist : List (Action V H A)}

/-! ### The votes of one validator -/

variable {m : Mark}

omit [Hashed V H] [DecidableEq H] [DecidableEq A] in
theorem mem_marks {a : Action V H A} (ha : a ∈ hist) (hm : a.mark = some m) : m ∈ marks hist :=
  List.mem_filterMap.mpr ⟨a, ha, hm⟩

theorem Mark.Before.ne {m' : Mark} (h : m.Before m') : m ≠ m' := by
  rintro rfl
  unfold Mark.Before at h
  omega

omit [Hashed V H] [DecidableEq H] [DecidableEq A] in
theorem eq_of_mark_eq (hordered : (marks hist).Pairwise Mark.Before) {a b : Action V H A}
    (ha : a ∈ hist) (hb : b ∈ hist) (hma : a.mark = some m) (hmb : b.mark = some m) : a = b := by
  by_contra hne
  have hpair : hist.Pairwise fun a b => ∀ m m', a.mark = some m → b.mark = some m' → m ≠ m' :=
    (List.pairwise_filterMap.mp hordered).imp fun h m m' hm hm' => (h m hm m' hm').ne
  have hsymm : Std.Symm fun a b : Action V H A => ∀ m m', a.mark = some m → b.mark = some m' → m ≠ m' :=
    ⟨fun _ _ h m m' hm hm' => (h m' m hm' hm).symm⟩
  exact hpair.forall ha hb hne m m hma hmb rfl

/-- How the votes of a validator hang together. -/
structure VoteInv (received : Message V H A → Prop) (vals : Validators A) (hist : List (Action V H A))
    (s : StateMachine σ V H A) : Prop where
  own : ∀ t v, Sent hist (.vote t v) → v.sender = s.nodeAddr
  /-- It precommits what a quorum prevoted. -/
  polka : ∀ v i, .broadcastPrecommit v ∈ hist → v.id = some i →
    IsQuorum (Known received hist) vals v.height v.round .prevote (some i)
  /-- Having precommitted a value it is locked in the round, or in a later one. -/
  locked : ∀ v i, .broadcastPrecommit v ∈ hist → v.id = some i → v.height = s.state.height →
    s.state.lockedValue ≠ none ∧ v.round ≤ s.state.lockedRound
  /-- Having precommitted a value it prevotes one in a later round only after a quorum did. -/
  changed : ∀ v w i j, .broadcastPrecommit v ∈ hist → .broadcastPrevote w ∈ hist → v.height = w.height →
    v.id = some i → w.id = some j → v.round < w.round →
    ∃ r, v.round ≤ r ∧ r < w.round ∧ IsQuorum (Known received hist) vals w.height r .prevote (some j)

omit [Hashed V H] [DecidableEq H] [DecidableEq A] in
theorem voteInv_new (received : Message V H A → Prop) (nodeAddr : A) (app : σ) (vals : Validators A)
    (height : ℕ) :
    VoteInv received vals [] (new nodeAddr app vals height : StateMachine σ V H A) where
  own t v h := by cases t <;> simp [Sent] at h
  polka := by simp
  locked := by simp
  changed := by simp

variable {id : Option H} {height : ℕ} {t : VoteType}

omit [Hashed V H] [DecidableEq H] [DecidableEq A] in
theorem isQuorum_append {round : ℤ} (h : IsQuorum (Known received hist) vals height round t id)
    (as : List (Action V H A)) : IsQuorum (Known received (hist ++ as)) vals height round t id :=
  h.mono fun _ hm => hm.append as

def NoVotes (as : List (Action V H A)) : Prop := ∀ t v, ¬ Sent as (.vote t v)

section

omit [Hashed V H] [DecidableEq H] [DecidableEq A]

/-- More is done. The new votes are the validator's own, a new precommit is for what a quorum prevoted and no
prevote is of a later round, and a new prevote comes after a quorum if the validator had precommitted. -/
theorem VoteInv.extend (h : VoteInv received vals hist s) (hnode : s'.nodeAddr = s.nodeAddr)
    (hown : ∀ t v, Sent as (.vote t v) → v.sender = s.nodeAddr)
    (hpolka : ∀ v i, .broadcastPrecommit v ∈ as → v.id = some i →
      IsQuorum (Known received hist) vals v.height v.round .prevote (some i) ∧
        ∀ w, .broadcastPrevote w ∈ hist ++ as → v.height = w.height → w.round ≤ v.round)
    (hlocked : ∀ v i, .broadcastPrecommit v ∈ hist ++ as → v.id = some i → v.height = s'.state.height →
      s'.state.lockedValue ≠ none ∧ v.round ≤ s'.state.lockedRound)
    (hprevote : ∀ v w i j, .broadcastPrecommit v ∈ hist → .broadcastPrevote w ∈ as → v.height = w.height →
      v.id = some i → w.id = some j → v.round < w.round →
      ∃ r, v.round ≤ r ∧ r < w.round ∧ IsQuorum (Known received hist) vals w.height r .prevote (some j)) :
    VoteInv received vals (hist ++ as) s' := by
  constructor
  case own =>
    intro t v hv
    rw [hnode]
    cases t with
    | prevote => exact (List.mem_append.mp hv).elim (h.own .prevote v) (hown .prevote v)
    | precommit => exact (List.mem_append.mp hv).elim (h.own .precommit v) (hown .precommit v)
  case polka =>
    intro v i hv hi
    rcases List.mem_append.mp hv with hv | hv
    · exact isQuorum_append (h.polka v i hv hi) as
    · exact isQuorum_append (hpolka v i hv hi).1 as
  case locked => exact hlocked
  case changed =>
    intro v w i j hv hw hheight hi hj hlt
    rcases List.mem_append.mp hv with hv | hv
    · rcases List.mem_append.mp hw with hw | hw
      · obtain ⟨r, hle, hr, hq⟩ := h.changed v w i j hv hw hheight hi hj hlt
        exact ⟨r, hle, hr, isQuorum_append hq as⟩
      · obtain ⟨r, hle, hr, hq⟩ := hprevote v w i j hv hw hheight hi hj hlt
        exact ⟨r, hle, hr, isQuorum_append hq as⟩
    · exact absurd hlt ((hpolka v i hv hi).2 w hw hheight).not_gt

/-- A move that sends no vote, and leaves the height and the lock. -/
theorem VoteInv.of_noVotes (h : VoteInv received vals hist s) (hno : NoVotes as)
    (hnode : s'.nodeAddr = s.nodeAddr)
    (hlock : ∀ v : Vote H A, .broadcastPrecommit v ∈ hist → v.height = s'.state.height →
      v.height = s.state.height ∧ s'.state.lockedValue = s.state.lockedValue ∧
      s'.state.lockedRound = s.state.lockedRound) :
    VoteInv received vals (hist ++ as) s' := by
  refine h.extend hnode (fun t v hv => absurd hv (hno t v)) (fun v i hv => absurd hv (hno .precommit v))
    (fun v i hv hi hheight => ?_) fun v w i j _ hw => absurd hw (hno .prevote w)
  have hv := (List.mem_append.mp hv).resolve_right (hno .precommit v)
  obtain ⟨hheight', hvalue, hround⟩ := hlock v hv hheight
  rw [hvalue, hround]
  exact h.locked v i hv hi hheight'

end

variable {v : Vote H A}

section

variable (hinv : Inv received vals hist s)
include hinv

section

omit [DecidableEq A]

/-- A prevote for a value after a precommit in an earlier round: a quorum prevoted it in between. -/
theorem StateMachine.MayPrevote.changed (h : VoteInv received vals hist s) {j : H}
    (hj : s.MayPrevote j) (hstep : s.state.step = .propose) {i : H}
    (hv : .broadcastPrecommit v ∈ hist) (hi : v.id = some i) (hheight : v.height = s.state.height) :
    ∃ r, v.round ≤ r ∧ r < s.state.round ∧
      IsQuorum (Known received hist) vals s.state.height r .prevote (some j) := by
  obtain ⟨hsome, hle⟩ := h.locked v i hv hi hheight
  obtain ⟨w, hw⟩ := Option.ne_none_iff_exists'.mp hsome
  obtain ⟨h0, p, hp, hpw⟩ := hinv.lock.locked w hw
  obtain ⟨p', -, -, hmay⟩ := hj
  rcases hmay with hnone | hlocked | ⟨hvr, -, hlt, hq⟩
  · omega
  · have hhash : Hashed.hash w = j := by
      simpa [isLockedOn, hw] using hlocked
    have hq := hinv.holds.isQuorum hp.2
    rw [hpw, hhash, hinv.lock.height] at hq
    exact ⟨s.state.lockedRound, hle, hinv.lock.locked_lt (by simp [hstep]), hq⟩
  · have hq' := hinv.holds.isQuorum hq
    rw [hinv.lock.height] at hq'
    exact ⟨p'.validRound, hle.trans hvr, hlt, hq'⟩

theorem Inv.height_le_of_precommit (hv : .broadcastPrecommit v ∈ hist) : v.height ≤ s.state.height := by
  rcases hinv.reached _ (mem_marks hv rfl) with hlt | ⟨-, heq, -⟩
  · exact hlt.le
  · exact heq.le

theorem Inv.round_le_of_prevote (hv : .broadcastPrevote v ∈ hist)
    (hheight : v.height = s.state.height) : v.round ≤ s.state.round := by
  rcases hinv.reached _ (mem_marks hv rfl) with hlt | ⟨-, -, hlt | ⟨heq, -⟩⟩
  · exact absurd hheight hlt.ne
  · exact hlt.le
  · exact heq.le

end

theorem VoteInv.prevote (h : VoteInv received vals hist s) (hstep : s.state.step = .propose)
    (hid : ∀ i, id = some i → s.MayPrevote i) :
    VoteInv received vals (hist ++ [(s.setStepAndSendPrevote id).1]) (s.setStepAndSendPrevote id).2 := by
  have hnew : (s.setStepAndSendPrevote id).1 = .broadcastPrevote ⟨s.header, id⟩ := rfl
  rw [hnew]
  refine h.extend rfl (fun t v hv => ?_) (fun v i hv => by simp at hv)
    (fun v i hv => h.locked v i (by simpa using hv)) ?_
  · cases t with
    | prevote =>
      obtain rfl : v = ⟨s.header, id⟩ := by simpa [Sent] using hv
      rfl
    | precommit => simp [Sent] at hv
  · intro v w i j hv hw hheight hi hj _
    obtain rfl : w = ⟨s.header, id⟩ := by simpa using hw
    exact (hid j hj).changed hinv h hstep hv hi hheight

end

omit [DecidableEq A] in
theorem VoteInv.precommit (hinv : Inv received vals hist s) (h : VoteInv received vals hist s)
    (hid : ∀ i, id = some i → s.voteCounter.hasQuorumForVote s.state.round .prevote (some i) = true)
    (hnode : s'.nodeAddr = s.nodeAddr) (hheight : s'.state.height = s.state.height)
    (hlocked : (id = none ∧ s'.state.lockedValue = s.state.lockedValue ∧
      s'.state.lockedRound = s.state.lockedRound) ∨ s'.state.lockedValue ≠ none ∧
      s'.state.lockedRound = s.state.round) :
    VoteInv received vals (hist ++ [.broadcastPrecommit ⟨s.header, id⟩]) s' := by
  refine h.extend hnode (fun t v hv => ?_) (fun v i hv hi => ?_) (fun v i hv hi hv' => ?_)
    fun v w i j _ hw => by simp at hw
  · cases t with
    | prevote => simp [Sent] at hv
    | precommit =>
      obtain rfl : v = ⟨s.header, id⟩ := by simpa [Sent] using hv
      rfl
  · obtain rfl : v = ⟨s.header, id⟩ := by simpa using hv
    have hq := hinv.holds.isQuorum (hid i hi)
    rw [hinv.lock.height] at hq
    exact ⟨hq, fun w hw hvw => hinv.round_le_of_prevote (by simpa using hw) hvw.symm⟩
  · have hv : .broadcastPrecommit v ∈ hist ∨ v = ⟨s.header, id⟩ := by simpa using hv
    rcases hlocked with ⟨hnone, hvalue, hround⟩ | ⟨hvalue, hround⟩
    · rcases hv with hv | rfl
      · rw [hvalue, hround]
        exact h.locked v i hv hi (hv'.trans hheight)
      · rw [hnone] at hi
        cases hi
    · refine ⟨hvalue, hround ▸ ?_⟩
      rcases hv with hv | rfl
      · have hle := (h.locked v i hv hi (hv'.trans hheight)).2
        exact hle.trans (hinv.lock.locked_le.trans hinv.lock.valid_le)
      · exact le_rfl

/-- **A move keeps the votes together.** -/
theorem VoteInv.move (hinv : Inv received vals hist s) (h : VoteInv received vals hist s)
    (hm : Move received s as s') : VoteInv received vals (hist ++ as) s' := by
  have hsame : ∀ v : Vote H A, Action.broadcastPrecommit v ∈ hist → v.height = s.state.height →
      v.height = s.state.height ∧ s.state.lockedValue = s.state.lockedValue ∧
        s.state.lockedRound = s.state.lockedRound := fun _ _ hh => ⟨hh, rfl, rfl⟩
  cases hm with
  | consult | log | sync | proposal | vote | look | enterPropose | enterWait | setValid =>
    exact h.of_noVotes (fun t v => by cases t <;> simp [Sent]) rfl hsame
  | schedule => exact h.of_noVotes (fun t v => by cases t <;> simp [Sent, scheduleTimeout]) rfl hsame
  | commit hs r c hp hq =>
    refine h.of_noVotes (fun t v => by cases t <;> simp [Sent, doCommitValue]) rfl ?_
    intro v hv hheight
    have hle := hinv.height_le_of_precommit hv
    have hheight' : v.height = s.state.height + 1 := hheight
    omega
  | prevote hs hstep id hid => exact VoteInv.prevote hinv h hstep hid
  | precommitNil hs hstep =>
    exact VoteInv.precommit hinv h (fun _ hi => by cases hi) rfl rfl (.inl ⟨rfl, rfl, rfl⟩)
  | lock hs hstep p hp =>
    refine VoteInv.precommit hinv h (fun i hi => ?_) rfl rfl (.inr ⟨Option.some_ne_none _, rfl⟩)
    rw [← hi]
    exact hp.2

variable {m : Message V H A}

omit [Hashed V H] [DecidableEq H] [DecidableEq A] in
theorem Known.mono (h : Known received hist m) (hr : ∀ m, received m → received' m) :
    Known received' hist m :=
  h.imp_left (hr m)

omit [DecidableEq A] in
theorem Inv.mono (h : Inv received vals hist s) (hr : ∀ m, received m → received' m) :
    Inv received' vals hist s where
  lock := h.lock
  holds := h.holds.mono fun _ hm => hm.mono hr
  ordered := h.ordered
  reached := h.reached
  decided p hp := by
    obtain ⟨hlt, hknown, hsender, hq⟩ := h.decided p hp
    exact ⟨hlt, hknown.mono hr, hsender, hq.mono fun _ hm => hm.mono hr⟩

omit [Hashed V H] [DecidableEq H] [DecidableEq A] in
theorem VoteInv.mono (h : VoteInv received vals hist s) (hr : ∀ m, received m → received' m) :
    VoteInv received' vals hist s where
  own := h.own
  polka v i hv hi := (h.polka v i hv hi).mono fun _ hm => hm.mono hr
  locked := h.locked
  changed v w i j hv hw hheight hi hj hlt := by
    obtain ⟨r, hle, hr', hq⟩ := h.changed v w i j hv hw hheight hi hj hlt
    exact ⟨r, hle, hr', hq.mono fun _ hm => hm.mono hr⟩

def ValidatorInv (received : Message V H A → Prop) (vals : Validators A) (hist : List (Action V H A))
    (s : StateMachine σ V H A) : Prop :=
  Inv received vals hist s ∧ VoteInv received vals hist s

theorem ValidatorInv.moves (h : ValidatorInv received vals hist s) (hm : Moves received s as s') :
    ValidatorInv received vals (hist ++ as) s' :=
  hm.preserves (fun hmove hi => ⟨hi.1.move hmove, VoteInv.move hi.1 hi.2 hmove⟩) h

/-! ### The network -/

def Message.sender : Message V H A → A
  | .proposal p => p.toMessageHeader.sender
  | .vote _ v => v.toMessageHeader.sender

/-- The machines of the validators, and everything they did. -/
structure Net (σ V H A : Type) where
  machine : A → StateMachine σ V H A
  hist : A → List (Action V H A)

/-- The validators at the beginning, each with an application and at a height of its own. -/
def Net.init (vals : Validators A) (a : A → σ) (height : A → ℕ) : Net σ V H A :=
  ⟨fun n => new n (a n) vals (height n), fun _ => []⟩

def Net.call (app : A → Application σ V) (net : Net σ V H A) (n : A) (c : Call V H A) : Net σ V H A where
  machine := update net.machine n ((net.machine n).call (app n) c).2
  hist := update net.hist n (net.hist n ++ ((net.machine n).call (app n) c).1)

def Net.run (app : A → Application σ V) (net : Net σ V H A) : List (A × Call V H A) → Net σ V H A
  | [] => net
  | (n, c) :: schedule => (net.call app n c).run app schedule

/-- A message in the name of a correct validator was sent by it. -/
def Net.Authentic (correct : A → Prop) (net : Net σ V H A) (m : Message V H A) : Prop :=
  correct m.sender → Sent (net.hist m.sender) m

/-- Only correct validators take calls, and what they receive is authentic. -/
def Net.Admits (app : A → Application σ V) (correct : A → Prop) (net : Net σ V H A) :
    List (A × Call V H A) → Prop
  | [] => True
  | (n, c) :: schedule =>
    correct n ∧ (∀ m ∈ c.messages, net.Authentic correct m) ∧ (net.call app n c).Admits app correct schedule

def Net.ProperRun (app : A → Application σ V) (net : Net σ V H A) : List (A × Call V H A) → Prop
  | [] => True
  | (n, c) :: schedule => (net.machine n).Proper (app n) c ∧ (net.call app n c).ProperRun app schedule

/-- The invariants hold of every validator, and it is at its own address. -/
def NetInv (vals : Validators A) (correct : A → Prop) (net : Net σ V H A) : Prop :=
  ∀ n, ValidatorInv (net.Authentic correct) vals (net.hist n) (net.machine n) ∧ (net.machine n).nodeAddr = n

theorem Move.nodeAddr_eq (h : Move received s as s') : s'.nodeAddr = s.nodeAddr := by
  cases h <;> rfl

theorem Moves.nodeAddr_eq (h : Moves received s as s') : s'.nodeAddr = s.nodeAddr := by
  induction h with
  | refl => rfl
  | step hm _ ih => exact ih.trans hm.nodeAddr_eq

omit [DecidableEq A] in
theorem netInv_init (correct : A → Prop) (vals : Validators A) (a : A → σ) (height : A → ℕ) :
    NetInv vals correct (Net.init vals a height : Net σ V H A) :=
  fun n => ⟨⟨inv_new _ n (a n) vals (height n), voteInv_new _ n (a n) vals (height n)⟩, rfl⟩

variable {app : A → Application σ V} {correct : A → Prop} {net : Net σ V H A}

theorem Net.Authentic.call (h : net.Authentic correct m) (n : A) (c : Call V H A) :
    (net.call app n c).Authentic correct m := by
  intro hc
  by_cases hn : m.sender = n
  · subst hn
    simpa [Net.call] using (h hc).append _
  · simpa [Net.call, hn] using h hc

variable {n : A}

theorem NetInv.call (h : NetInv vals correct net) {c : Call V H A}
    (hproper : (net.machine n).Proper (app n) c) (hauth : ∀ m ∈ c.messages, net.Authentic correct m) :
    NetInv vals correct (net.call app n c) := by
  intro k
  have hmono : ∀ m, net.Authentic correct m → (net.call app n c).Authentic correct m :=
    fun _ hm => hm.call n c
  by_cases hk : k = n
  · subst hk
    obtain ⟨hinv, haddr⟩ := h k
    have hmoves : Moves (net.Authentic correct) _ _ _ :=
      call_moves (app k) hproper (fun _ => hinv.1.lock.round) hauth
    have key := hinv.moves hmoves
    simp only [Net.call, update_self]
    exact ⟨⟨key.1.mono hmono, key.2.mono hmono⟩, hmoves.nodeAddr_eq.trans haddr⟩
  · obtain ⟨hinv, haddr⟩ := h k
    simp only [Net.call, update_of_ne hk]
    exact ⟨⟨hinv.1.mono hmono, hinv.2.mono hmono⟩, haddr⟩

/-- **The invariants hold of every validator in every run.** -/
theorem NetInv.run (h : NetInv vals correct net) {schedule : List (A × Call V H A)}
    (hadmits : net.Admits app correct schedule) (hproper : net.ProperRun app schedule) :
    NetInv vals correct (net.run app schedule) := by
  induction schedule generalizing net with
  | nil => exact h
  | cons nc schedule ih => exact ih (h.call hproper.1 hadmits.2.1) hadmits.2.2 hproper.2

/-! ### Quorums -/

/-- The powers of the validators: the total is their sum and fits twice in 64 bits, and the faulty ones have
less than a third of it. -/
structure FaultBound (vals : Validators A) (correct : A → Prop) [DecidablePred correct]
    (members : Finset A) : Prop where
  outside : ∀ height, ∀ a ∉ members, vals.validatorVotingPower height a = 0
  total : ∀ height, vals.totalVotingPower height = ∑ a ∈ members, vals.validatorVotingPower height a
  pos : ∀ height, 1 ≤ vals.totalVotingPower height
  small : ∀ height, 2 * vals.totalVotingPower height < 2 ^ 64
  faulty : ∀ height, ∑ a ∈ members with ¬ correct a, vals.validatorVotingPower height a ≤
    (vals.totalVotingPower height - 1) / 3

/-- Two quorums are more than everything and the faulty validators. -/
theorem add_lt_two_mul_q {N : ℕ} (hpos : 1 ≤ N) (hsmall : 2 * N < 2 ^ 64) : N + (N - 1) / 3 < 2 * q N := by
  have hmod : N * 2 % 2 ^ 64 = N * 2 := Nat.mod_eq_of_lt (by omega)
  unfold q
  simp only [hmod]
  split <;> omega

variable [DecidablePred correct] {members : Finset A}

/-- Two heavy sets of validators have a correct one in common. -/
theorem FaultBound.inter (hf : FaultBound vals correct members) {S T : Finset A}
    (hS : q (vals.totalVotingPower height) ≤ ∑ a ∈ S, vals.validatorVotingPower height a)
    (hT : q (vals.totalVotingPower height) ≤ ∑ a ∈ T, vals.validatorVotingPower height a) :
    ∃ a ∈ S, a ∈ T ∧ correct a := by
  -- validators without power do not count
  have hmembers : ∀ U : Finset A, ∑ a ∈ U ∩ members, vals.validatorVotingPower height a =
      ∑ a ∈ U, vals.validatorVotingPower height a := by
    intro U
    refine sum_subset inter_subset_left fun a ha hna => hf.outside height a fun hm => hna ?_
    exact mem_inter.mpr ⟨ha, hm⟩
  have hlt := add_lt_two_mul_q (hf.pos height) (hf.small height)
  have hfaulty := hf.faulty height
  have htotal := hf.total height
  obtain ⟨a, ha, ha', hc⟩ := Lib.exists_mem_inter_not_mem (fun a => ¬ correct a)
    inter_subset_right inter_subset_right (hS.trans (hmembers S).ge) (hT.trans (hmembers T).ge) (by omega)
  exact ⟨a, mem_of_mem_inter_left ha, mem_of_mem_inter_left ha', not_not.mp hc⟩

omit [DecidableEq A] [DecidablePred correct] in
theorem NetInv.sent_of_known (h : NetInv vals correct net) (hc : correct v.sender)
    (hknown : Known (net.Authentic correct) (net.hist n) (.vote t v)) :
    Sent (net.hist v.sender) (.vote t v) := by
  rcases hknown with hauth | hsent
  · exact hauth hc
  · have howner := (h n).1.2.own t v hsent
    rw [(h n).2] at howner
    rwa [howner]

variable (h : NetInv vals correct net) (hf : FaultBound vals correct members)

def lockedVoting (height : ℕ) : Lib.LockedVoting A H where
  honest := correct
  prevoted n r i := .broadcastPrevote ⟨⟨height, r, n⟩, some i⟩ ∈ net.hist n
  precommitted n r i := .broadcastPrecommit ⟨⟨height, r, n⟩, some i⟩ ∈ net.hist n
  quorum S := ∃ T : Finset A, (∀ a ∈ T, a ∈ S) ∧
    q (vals.totalVotingPower height) ≤ ∑ a ∈ T, vals.validatorVotingPower height a
  quorum_inter := by
    intro S T hS hT
    obtain ⟨S', hS', hSq⟩ := hS
    obtain ⟨T', hT', hTq⟩ := hT
    obtain ⟨a, ha, ha', hc⟩ := hf.inter hSq hTq
    exact ⟨a, hc, hS' a ha, hT' a ha'⟩
  prevoted_unique := by
    intro n r v w _ hv hw
    have heq := eq_of_mark_eq (h n).1.1.ordered hv hw rfl rfl
    simpa using heq
  quorum_of_precommitted := by
    intro n r v _ hv
    obtain ⟨S, hS, hq⟩ := (h n).1.2.polka _ v hv rfl
    exact ⟨S, fun a ha hc => h.sent_of_known hc (hS a ha), hq⟩
  quorum_of_changed := by
    intro n r r' v w _ hv hw hlt _
    obtain ⟨r'', hle, hr, S, hS, hq⟩ := (h n).1.2.changed _ _ v w hv hw rfl rfl rfl hlt
    exact ⟨r'', hle, hr, S, fun a ha hc => h.sent_of_known hc (hS a ha), hq⟩

theorem decided_of_commit {p : Proposal V A} (hp : .commit p ∈ net.hist n) :
    (lockedVoting h hf p.height).Decided p.round (Hashed.hash p.value) := by
  obtain ⟨-, -, -, S, hS, hq⟩ := (h n).1.1.decided p hp
  exact ⟨S, fun a ha (hc : correct a) => h.sent_of_known hc (hS a ha), hq⟩

/-- **Agreement**: two correct validators never commit different values at one height. -/
theorem commits_agree (hhash : Injective (Hashed.hash : V → H)) (hf : FaultBound vals correct members)
    (a : A → σ) (height : A → ℕ) {schedule : List (A × Call V H A)}
    (hadmits : (Net.init vals a height : Net σ V H A).Admits app correct schedule)
    (hproper : (Net.init vals a height : Net σ V H A).ProperRun app schedule) {n m : A} {p p' : Proposal V A}
    (hp : .commit p ∈ ((Net.init vals a height : Net σ V H A).run app schedule).hist n)
    (hp' : .commit p' ∈ ((Net.init vals a height : Net σ V H A).run app schedule).hist m)
    (hheight : p.height = p'.height) : p.value = p'.value := by
  have hinv := (netInv_init correct vals a height).run hadmits hproper
  have hd := decided_of_commit hinv hf hp
  have hd' := decided_of_commit hinv hf hp'
  rw [← hheight] at hd'
  exact hhash ((lockedVoting hinv hf p.height).agreement hd hd')

/-! ### Four validators -/

section

variable [DecidableEq V]

instance (hist : List (Action V H A)) (m : Message V H A) : Decidable (Sent hist m) := by
  cases m with
  | proposal p => exact inferInstanceAs (Decidable (_ ∈ hist))
  | vote t v => cases t <;> exact inferInstanceAs (Decidable (_ ∈ hist))

instance (net : Net σ V H A) (m : Message V H A) : Decidable (net.Authentic correct m) :=
  inferInstanceAs (Decidable (_ → _))

instance decidableAdmits (app : A → Application σ V) (net : Net σ V H A) (schedule : List (A × Call V H A)) :
    Decidable (net.Admits app correct schedule) := by
  induction schedule generalizing net with
  | nil => exact instDecidableTrue
  | cons nc schedule ih =>
    have := ih (net.call app nc.1 nc.2)
    exact inferInstanceAs (Decidable (_ ∧ _ ∧ _))

omit [DecidableEq V] in
instance decidableProperTimeout (app : Application σ V) (s : StateMachine σ V H A) (tm : Timeout) :
    Decidable (s.ProperTimeout app tm) :=
  inferInstanceAs (Decidable ((_ → _) ∧ (_ ∨ ¬ (_ ∧ _) ∧ (∀ p ∈ _, _ ∧ _) ∧ _)))

omit [DecidableEq V] in
instance decidableProper (app : Application σ V) (s : StateMachine σ V H A) (c : Call V H A) :
    Decidable (s.Proper app c) := by
  cases c with
  | start round => exact inferInstanceAs (Decidable (_ → _))
  | timeout tm => exact decidableProperTimeout app s tm
  | wal entry =>
    cases entry with
    | timeout tm => exact decidableProperTimeout app s tm
    | _ => exact instDecidableTrue
  | _ => exact instDecidableTrue

omit [DecidableEq V] in
instance decidableProperRun (app : A → Application σ V) (net : Net σ V H A)
    (schedule : List (A × Call V H A)) :
    Decidable (net.ProperRun app schedule) := by
  induction schedule generalizing net with
  | nil => exact instDecidableTrue
  | cons nc schedule ih =>
    have := ih (net.call app nc.1 nc.2)
    exact inferInstanceAs (Decidable (_ ∧ _))

end

def fourNet : Net Unit Block ℕ Member := Net.init fourValidators (fun _ => ()) (fun _ => 1)

def prevote (round : ℤ) (sender : Member) (id : ℕ) : Call Block ℕ Member :=
  .prevote ⟨⟨1, round, sender⟩, some id⟩

def precommit (round : ℤ) (sender : Member) (id : ℕ) : Call Block ℕ Member :=
  .precommit ⟨⟨1, round, sender⟩, some id⟩

/-- The proposal of the block 0 by the proposer of round 0 at height 1. -/
def zeroProposal : Proposal Block Member := ⟨⟨1, 0, .v1⟩, -1, ⟨0⟩⟩

/-- The proposal of the same block by the proposer of round 1, who has it as valid value of round 0. -/
def againProposal : Proposal Block Member := ⟨⟨1, 1, .v2⟩, 0, ⟨0⟩⟩

/-- A schedule in which validator 0 commits the block 0 in round 0. A timeout takes the validators 1 and 2,
who are locked on it, to round 1, where validator 2 proposes it again and commits it, with the votes of
validator 3, who is faulty. The timeout reaches validator 0 too, after its commit. -/
def commitSchedule : List (Member × Call Block ℕ Member) :=
  [(.v0, .start 0), (.v1, .start 0), (.v2, .start 0), (.v0, .proposal zeroProposal),
    (.v2, .proposal zeroProposal),
    (.v0, prevote 0 .v1 0), (.v0, prevote 0 .v2 0), (.v1, prevote 0 .v0 0), (.v1, prevote 0 .v2 0),
    (.v2, prevote 0 .v0 0), (.v2, prevote 0 .v1 0), (.v0, precommit 0 .v1 0), (.v0, precommit 0 .v2 0),
    (.v0, .timeout ⟨.precommit, 1, 0⟩), (.v1, .timeout ⟨.precommit, 1, 0⟩),
      (.v2, .timeout ⟨.precommit, 1, 0⟩),
    (.v1, .proposal againProposal), (.v1, prevote 1 .v2 0), (.v1, prevote 1 .v3 0), (.v2, prevote 1 .v1 0),
    (.v2, prevote 1 .v3 0), (.v2, precommit 1 .v1 0), (.v2, precommit 1 .v3 0)]

theorem faultBound_fourValidators (n : Member) : FaultBound fourValidators (· ≠ n) {.v0, .v1, .v2, .v3} where
  outside height a ha := absurd (by cases a <;> decide) ha
  total height := rfl
  pos height := by simp [fourValidators]
  small height := by simp [fourValidators]
  faulty height := by
    simp only [fourValidators]
    cases n <;> decide

theorem commits_agree_two_of_four :
    Action.commit zeroProposal ∈ (fourNet.run (fun _ => anyBlock) commitSchedule).hist .v0 ∧
      Action.commit againProposal ∈ (fourNet.run (fun _ => anyBlock) commitSchedule).hist .v2 ∧
      zeroProposal.value = againProposal.value :=
  have hhash : Injective (Hashed.hash : Block → ℕ) := fun ⟨_⟩ ⟨_⟩ h => congrArg Block.mk h
  have h0 : Action.commit zeroProposal ∈ (fourNet.run (fun _ => anyBlock) commitSchedule).hist .v0 := by
    decide +kernel
  have h2 : Action.commit againProposal ∈ (fourNet.run (fun _ => anyBlock) commitSchedule).hist .v2 := by
    decide +kernel
  have hadmits : fourNet.Admits (fun _ => anyBlock) (· ≠ .v3) commitSchedule := by decide +kernel
  have hproper : fourNet.ProperRun (fun _ => anyBlock) commitSchedule := by decide +kernel
  ⟨h0, h2, commits_agree hhash (faultBound_fourValidators .v3) (fun _ => ()) (fun _ => 1) hadmits
    hproper h0 h2 rfl⟩

/-- A timeout that makes a machine at height 1 try its rules. -/
def oldTimeout : Call Block ℕ Member := .timeout ⟨.precommit, 0, 0⟩

/-- The proposal of the block 0 by the proposer of round 1 at height 1. -/
def secondProposal : Proposal Block Member := ⟨⟨1, 1, .v2⟩, -1, ⟨0⟩⟩

/-- A schedule with timeouts before the start. Validator 1 is faulty. Before their height is started the
others prevote the block 7 in round 0, go on to round 1, lock the block 0 there and precommit it, and
validator 0 commits it. Then validators 2 and 3 are started at round 0, find the prevotes of round 0, lock the
block 7 and precommit it. -/
def restartSchedule : List (Member × Call Block ℕ Member) :=
  [(.v0, .proposal firstProposal), (.v2, .proposal firstProposal), (.v3, .proposal firstProposal),
    (.v0, oldTimeout), (.v2, oldTimeout), (.v3, oldTimeout),
    (.v0, .timeout ⟨.precommit, 1, 0⟩), (.v2, .timeout ⟨.precommit, 1, 0⟩),
      (.v3, .timeout ⟨.precommit, 1, 0⟩),
    (.v0, .proposal secondProposal), (.v3, .proposal secondProposal), (.v0, oldTimeout), (.v3, oldTimeout),
    (.v0, prevote 1 .v2 0), (.v0, prevote 1 .v3 0), (.v2, prevote 1 .v0 0), (.v2, prevote 1 .v3 0),
      (.v3, prevote 1 .v0 0),
    (.v3, prevote 1 .v2 0), (.v0, oldTimeout), (.v2, oldTimeout), (.v3, oldTimeout),
    (.v0, precommit 1 .v2 0), (.v0, precommit 1 .v3 0), (.v0, oldTimeout),
    (.v2, .start 0), (.v3, .start 0),
    (.v2, prevote 0 .v0 7), (.v2, prevote 0 .v3 7), (.v3, prevote 0 .v0 7), (.v3, prevote 0 .v2 7),
    (.v2, precommit 0 .v3 7), (.v2, precommit 0 .v1 7)]

/-- With one faulty validator of four, validator 0 commits the block 0 and validator 2 the block 7 at height
1. -/
theorem timeouts_before_start_disagree :
    fourNet.Admits (fun _ => anyBlock) (· ≠ .v1) restartSchedule ∧
      Action.commit secondProposal ∈ (fourNet.run (fun _ => anyBlock) restartSchedule).hist .v0 ∧
      Action.commit firstProposal ∈ (fourNet.run (fun _ => anyBlock) restartSchedule).hist .v2 := by
  decide +kernel

end Juno.Tendermint
