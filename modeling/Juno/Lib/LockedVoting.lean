import Mathlib.Algebra.BigOperators.Group.Finset.Basic
import Mathlib.Algebra.Order.BigOperators.Group.Finset
import Mathlib.Data.Set.Basic

/-!
# Voting with locks

The safety argument of two-phase voting in rounds, with nothing of a protocol's messages
or state in it. In a round every voter prevotes and may then precommit. A voter that
precommitted a value stays with it until a quorum prevoted another one in a later round.

## What is proved

* `LockedVoting.agreement` — **at most one value is decided**, over any number of rounds.
-/

namespace Juno.Lib

variable {r : ℤ}

/-- Two sets whose weights exceed everything by more than the weight of `bad` share a member that is not
`bad`. -/
theorem exists_mem_inter_not_mem {A : Type*} [DecidableEq A] {weight : A → ℕ} {all S T : Finset A}
    (bad : A → Prop) [DecidablePred bad] {heavy : ℕ} (hS : S ⊆ all) (hT : T ⊆ all)
    (hheavyS : heavy ≤ ∑ a ∈ S, weight a) (hheavyT : heavy ≤ ∑ a ∈ T, weight a)
    (hlight : (∑ a ∈ all, weight a) + ∑ a ∈ all with bad a, weight a < 2 * heavy) :
    ∃ a ∈ S, a ∈ T ∧ ¬ bad a := by
  by_contra hnone
  push Not at hnone
  have hinter : S ∩ T ⊆ all.filter bad := by
    intro a ha
    rw [Finset.mem_inter] at ha
    exact Finset.mem_filter.mpr ⟨hS ha.1, hnone a ha.1 ha.2⟩
  have hsum : (∑ a ∈ S ∪ T, weight a) + ∑ a ∈ S ∩ T, weight a = (∑ a ∈ S, weight a) + ∑ a ∈ T, weight a :=
    Finset.sum_union_inter
  have hunion : ∑ a ∈ S ∪ T, weight a ≤ ∑ a ∈ all, weight a :=
    Finset.sum_le_sum_of_subset (Finset.union_subset hS hT)
  have hbad : ∑ a ∈ S ∩ T, weight a ≤ ∑ a ∈ all with bad a, weight a := Finset.sum_le_sum_of_subset hinter
  omega

/-- A history of votes in rounds, and the rules that the honest voters kept. -/
structure LockedVoting (Node Id : Type*) where
  /-- The voters that keep the rules. -/
  honest : Node → Prop
  prevoted : Node → ℤ → Id → Prop
  precommitted : Node → ℤ → Id → Prop
  quorum : Set Node → Prop
  /-- Two quorums have an honest voter in common. -/
  quorum_inter : ∀ {S T : Set Node}, quorum S → quorum T → ∃ n, honest n ∧ n ∈ S ∧ n ∈ T
  /-- An honest voter prevotes one value in a round. -/
  prevoted_unique : ∀ {n r v w}, honest n → prevoted n r v → prevoted n r w → v = w
  /-- An honest voter precommits what a quorum prevoted in the round. -/
  quorum_of_precommitted : ∀ {n r v}, honest n → precommitted n r v → quorum {m | honest m → prevoted m r v}
  /-- An honest voter prevotes another value than the one it precommitted only after a quorum prevoted it in a
  round in between. -/
  quorum_of_changed : ∀ {n r r' v w}, honest n → precommitted n r v → prevoted n r' w → r < r' → v ≠ w →
    ∃ r'', r ≤ r'' ∧ r'' < r' ∧ quorum {m | honest m → prevoted m r'' w}

namespace LockedVoting

variable {Node Id : Type*} (L : LockedVoting Node Id)

/-- A quorum prevoted the value in the round. -/
def Polka (r : ℤ) (v : Id) : Prop := L.quorum {m | L.honest m → L.prevoted m r v}

/-- A quorum precommitted the value in the round. -/
def Decided (r : ℤ) (v : Id) : Prop := L.quorum {m | L.honest m → L.precommitted m r v}

variable {v w : Id}

theorem Polka.unique (hv : L.Polka r v) (hw : L.Polka r w) : v = w := by
  obtain ⟨n, hn, hnv, hnw⟩ := L.quorum_inter hv hw
  exact L.prevoted_unique hn (hnv hn) (hnw hn)

theorem Decided.polka (h : L.Decided r v) : L.Polka r v := by
  obtain ⟨n, hn, hnv, -⟩ := L.quorum_inter h h
  exact L.quorum_of_precommitted hn (hnv hn)

/-- After a decision the quorums of every later round are for the decided value. -/
theorem Decided.polka_eq (h : L.Decided r v) (d : ℕ) : ∀ {w : Id}, L.Polka (r + d) w → w = v := by
  -- on the distance from the deciding round: a voter that changed its vote saw a quorum nearer to it
  induction d using Nat.strong_induction_on with
  | _ d ih =>
    intro w hw
    rcases Nat.eq_zero_or_pos d with rfl | hd
    · exact Polka.unique L (by simpa using hw) (Decided.polka L h)
    · obtain ⟨n, hn, hnv, hnw⟩ := L.quorum_inter h hw
      by_contra hne
      obtain ⟨r'', hle, hlt, hq⟩ := L.quorum_of_changed hn (hnv hn) (hnw hn) (by omega) (Ne.symm hne)
      obtain ⟨e, rfl⟩ := Int.le.dest hle
      exact hne (ih e (by omega) hq)

theorem agreement {r' : ℤ} (hv : L.Decided r v) (hw : L.Decided r' w) : v = w := by
  rcases le_total r r' with h | h
  · obtain ⟨d, rfl⟩ := Int.le.dest h
    exact (Decided.polka_eq L hv d (Decided.polka L hw)).symm
  · obtain ⟨d, rfl⟩ := Int.le.dest h
    exact Decided.polka_eq L hw d (Decided.polka L hv)

end LockedVoting

end Juno.Lib
