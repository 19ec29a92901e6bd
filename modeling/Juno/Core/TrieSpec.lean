import Juno.Core.Felt
import Mathlib.Data.ZMod.Defs

/-!
# What a trie is for

The specification both trie packages are compared with: a map from keys to values,
where a zero value is no value, and its commitment. A write changes the map at its
key, `Get` reads it, and `Hash` is the commitment of the tree of its keys.
-/

namespace Juno

open Lib Lib.Patricia

variable {height : ℕ} {m : Felt → Felt} {k : Felt}

/-! ### The commitment -/

variable (H : HashFn)

/-- How the nodes of a trie are hashed: `BinaryNode.Hash` and `EdgeNode.Hash`. -/
def hasher : Hasher Felt := ⟨H, fun c p => H c (pathFelt p) + Fin.ofNat P p.length⟩

/-- **The root of a map**: the commitment of the tree of its keys. -/
def mapRoot (height : ℕ) (m : Felt → Felt) : Felt := commitment (hasher H) height (onPaths m)

def EmptyMap (height : ℕ) (m : Felt → Felt) : Prop := ∀ k : Felt, k.val < 2 ^ height → m k = 0

section

variable (hh : height ≤ 251)
include hh

theorem canon_eq_none_iff_emptyMap : canon height (onPaths m) = none ↔ EmptyMap height m := by
  rw [canon_eq_none_iff]
  constructor
  · intro h k hk
    rw [← onPaths_feltToPath hh m hk]
    exact h _ (length_feltToPath height k)
  · intro h p hp
    exact h _ (pathFelt_lt hh hp)

/-- The tree of a map reads its keys in range only. -/
theorem canon_onPaths_congr {m' : Felt → Felt} (h : ∀ k : Felt, k.val < 2 ^ height → m k = m' k) :
    canon height (onPaths m) = canon height (onPaths m') := by
  refine (canon_canonical height (onPaths m)).eq_canon fun p hp => ?_
  rw [get?_canon height _ p hp]
  exact h _ (pathFelt_lt hh hp)

theorem mapRoot_of_emptyMap (hm : EmptyMap height m) : mapRoot H height m = 0 := by
  rw [mapRoot, commitment, (canon_eq_none_iff_emptyMap hh).mpr hm, hash?]

/-- Writing a key of the tree of a map gives the tree of the written map. -/
theorem update_canon (m : Felt → Felt) (hk : k.val < 2 ^ height) (v : Felt) :
    Patricia.update (canon height (onPaths m)) (feltToPath height k) v =
      canon height (onPaths (Function.update m k v)) := by
  have hcan := canon_canonical height (onPaths m)
  have hlen := length_feltToPath height k
  refine (update_canonical hcan hlen v).eq_canon fun p hp => ?_
  rw [get?_update hcan hlen hp, get?_canon height _ p hp, onPaths_update hh m hk v hp]

/-- The tree of a map that is not empty, read at a key. -/
theorem canon_eq_some {t : BitTree Felt} (ht : canon height (onPaths m) = some t) (hk : k.val < 2 ^ height) :
    Along t (feltToPath height k) ∧ get t (feltToPath height k) = m k := by
  have hlen := length_feltToPath height k
  have hcan := canon_canonical height (onPaths m)
  have hget := get?_canon height (onPaths m) _ hlen
  rw [ht] at hcan hget
  exact ⟨Canonical.along hcan hlen, hget.trans (onPaths_feltToPath hh m hk)⟩

end

/-! ### Proofs -/

/-- What `VerifyProof` can fail with. -/
inductive ProofError where
  | nodeNotFound
  | hashMismatch
  | keyTooShort
  | panic
  | diverge
  deriving DecidableEq, Repr

/-- The verifier returns the value, or one of the errors. -/
def Proves (errors : List ProofError) (r : Except ProofError Felt) (v : Felt) : Prop :=
  r = .ok v ∨ ∃ e ∈ errors, r = .error e

/-! ### A map of two keys -/

/-- The map of the keys `0` and `2 ^ 249`, which part at the second bit. -/
def twoKeys : Felt → Felt := Function.update (Function.update 0 0 1) (2 ^ 249) 1

def twoKeysTree : BitTree Felt :=
  .edge [false]
    (.binary (.edge (List.replicate 249 false) (.leaf 1)) (.edge (List.replicate 249 false) (.leaf 1)))

theorem canon_twoKeys : canon 251 (onPaths twoKeys) = some twoKeysTree := by
  rw [twoKeys, ← update_canon le_rfl _ (by decide +kernel), ← update_canon le_rfl 0 (by decide),
    (canon_eq_none_iff_emptyMap (m := 0) le_rfl).mpr fun _ _ => rfl]
  decide +kernel

/-- The nodes of the tree do not collide with each other under a hash that adds. -/
theorem collisionFree_twoKeys {S : Set (HashedNode Felt)}
    (h : ∀ n ∈ S, n = .edge 500 [false] ∨ n = .binary 250 250 ∨ n = .edge 1 (List.replicate 249 false)) :
    CollisionFree (hasher (· + ·)) S twoKeysTree := by
  simp only [twoKeysTree, CollisionFree, and_true]
  refine ⟨?_, ?_, ?_, ?_⟩
  all_goals
    intro n hn
    rcases h n hn with rfl | rfl | rfl <;> decide +kernel

/-! ### Calls and their specification -/

inductive TrieOp where
  | update (key value : Felt)
  | delete (key : Felt)
  | get (key : Felt)
  | hash
  deriving DecidableEq, Repr

/-- The key of a call is one of a trie of the given height. -/
def TrieOp.InRange (height : ℕ) : TrieOp → Bool
  | update key _ => key.val < 2 ^ height
  | delete key => key.val < 2 ^ height
  | get key => key.val < 2 ^ height
  | hash => true

/-- What a call does to the map; a zero value is no value. -/
def TrieOp.write (m : Felt → Felt) : TrieOp → Felt → Felt
  | update key value => Function.update m key value
  | delete key => Function.update m key 0
  | _ => m

def TrieOp.answer (height : ℕ) (m : Felt → Felt) : TrieOp → Option Felt
  | get key => some (m key)
  | hash => some (mapRoot H height m)
  | _ => none

/-- What a sequence of calls should answer. -/
def answers (H : HashFn) (height : ℕ) : (Felt → Felt) → List TrieOp → List (Option Felt)
  | _, [] => []
  | m, op :: ops => op.answer H height m :: answers H height (op.write m) ops

end Juno
