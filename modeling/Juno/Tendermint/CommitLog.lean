import Juno.Tendermint.Agreement

/-!
# One log

A node applies what it commits to its state in order, so no height may be left out or come twice.

* `commits_share_log` — **the commits of every validator are a segment of one log**, from the height of its
  start to its own height.
-/

namespace Juno.Tendermint

open StateMachine List

variable {σ V H A : Type}

def commitLog (hist : List (Action V H A)) : List (Proposal V A) :=
  hist.filterMap fun
    | .commit p => some p
    | _ => none

theorem commit_of_mem_commitLog {hist : List (Action V H A)} {p : Proposal V A} (h : p ∈ commitLog hist) :
    .commit p ∈ hist := by
  obtain ⟨a, ha, hp⟩ := mem_filterMap.mp h
  cases a <;> cases hp
  exact ha

/-- Since the start each height was committed once, in order. -/
def Logged (start : ℕ) (hist : List (Action V H A)) (s : StateMachine σ V H A) : Prop :=
  start ≤ s.state.height ∧ (commitLog hist).map (·.height) = range' start (s.state.height - start)

/-- What each validator committed is the log from the height of its start to its own height. -/
def ShareLog (log : ℕ → Option V) (start : A → ℕ) (net : Net σ V H A) : Prop :=
  ∀ n, (commitLog (net.hist n)).map (fun p => (p.height, some p.value)) =
    (range' (start n) ((net.machine n).state.height - start n)).map fun height => (height, log height)

variable [Hashed V H] [DecidableEq H] [DecidableEq A] {vals : Validators A}

theorem Move.logged {received : Message V H A → Prop} {s s' : StateMachine σ V H A}
    {as hist : List (Action V H A)} {start : ℕ} (hm : Move received s as s') (hinv : Inv received vals hist s)
    (h : Logged start hist s) : Logged start (hist ++ as) s' := by
  obtain ⟨hle, hlog⟩ := h
  rw [Logged, commitLog, filterMap_append, map_append]
  cases hm with
  | commit hs r c hget hq =>
    have hheight : c.height = s.state.height :=
      (congrArg MessageHeader.height (hinv.holds.proposal hget).2).trans hinv.lock.height
    have hnext : range' start (s.state.height + 1 - start) = range' start (s.state.height - start) ++
        [c.height] := by
      rw [Nat.succ_sub hle, range'_concat, one_mul, Nat.add_sub_cancel' hle, hheight]
    exact ⟨hle.trans (Nat.le_succ _), (congrArg (· ++ [c.height]) hlog).trans hnext.symm⟩
  | _ => exact ⟨hle, (append_nil _).trans hlog⟩

variable {app : A → Application σ V} {correct : A → Prop} {net : Net σ V H A} {height : A → ℕ}

theorem logged_run (h : NetInv vals correct net) (hlog : ∀ n, Logged (height n) (net.hist n) (net.machine n))
    {schedule : List (A × Call V H A)} (hadmits : net.Admits app correct schedule)
    (hproper : net.ProperRun app schedule) (n : A) :
    Logged (height n) ((net.run app schedule).hist n) ((net.run app schedule).machine n) := by
  induction schedule generalizing net with
  | nil => exact hlog n
  | cons nc schedule ih =>
    refine ih (h.call hproper.1 hadmits.2.1) (fun k => ?_) hadmits.2.2 hproper.2
    by_cases hk : k = nc.1
    · subst hk
      have hinv := (h nc.1).1.1
      have hmoves := call_moves (app nc.1) hproper.1 (fun _ => hinv.lock.round) hadmits.2.1
      have hkept :=
          hmoves.preserves (P := fun hist s => Inv (net.Authentic correct) vals hist s ∧
            Logged (height nc.1) hist s)
        (fun hm hi => ⟨hi.1.move hm, hm.logged hi.1 hi.2⟩) ⟨hinv, hlog nc.1⟩
      simp only [Net.call, Function.update_self]
      exact hkept.2
    · simp only [Net.call, Function.update_of_ne hk]
      exact hlog k

/-- **The validators share one log.** -/
theorem commits_share_log [DecidablePred correct] {members : Finset A}
    (hhash : Function.Injective (Hashed.hash : V → H)) (hf : FaultBound vals correct members) (a : A → σ)
    {schedule : List (A × Call V H A)} (hadmits : (Net.init vals a height).Admits app correct schedule)
    (hproper : (Net.init vals a height).ProperRun app schedule) :
    ∃ log : ℕ → Option V, ShareLog log height ((Net.init vals a height).run app schedule) := by
  classical
  have hlogged : ∀ n, Logged (height n) _ _ := logged_run (netInv_init correct vals a height)
    (fun n => ⟨le_rfl, (congrArg (range' (height n)) (Nat.sub_self _)).symm⟩) hadmits hproper
  have hinv := (netInv_init correct vals a height).run hadmits hproper
  generalize (Net.init vals a height).run app schedule = net at hlogged hinv ⊢
  -- the log has at a height what any of the validators committed there
  refine ⟨fun k => if h : ∃ v n p, .commit p ∈ net.hist n ∧ p.height = k ∧
    p.value = v then some h.choose else none, fun n => ?_⟩
  rw [← (hlogged n).2, map_map]
  refine map_congr_left fun p hp => ?_
  have hmem := commit_of_mem_commitLog hp
  have hsome : ∃ v m q, Action.commit q ∈ net.hist m ∧ q.height = p.height ∧ q.value = v :=
    ⟨_, n, p, hmem, rfl, rfl⟩
  obtain ⟨m, q, hq, hheight, hvalue⟩ := hsome.choose_spec
  have hdecided := decided_of_commit hinv hf hq
  rw [hheight] at hdecided
  have hsame := hhash ((lockedVoting hinv hf p.height).agreement (decided_of_commit hinv hf hmem) hdecided)
  simp only [Function.comp_apply]
  rw [dif_pos hsome, hsame.trans hvalue]

theorem commits_share_log_four :
    ∃ log : ℕ → Option Block, ShareLog log (fun _ => 1) (fourNet.run (fun _ => anyBlock) commitSchedule) :=
  commits_share_log (fun ⟨_⟩ ⟨_⟩ h => congrArg Block.mk h) (faultBound_fourValidators .v3) (fun _ => ())
    (by decide +kernel) (by decide +kernel)

end Juno.Tendermint
