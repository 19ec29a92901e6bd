import Juno.Trie2.Run

/-!
# Calls that fail on the node-based trie

Any read of the store may fail or miss, so each call comes with what the store answers while it runs; `trie2`
does not look at the error of a read, and one that fails is one that misses here.

The main result is `callsOver_without_failed`.
-/

namespace Juno.Trie2

open Lib Lib.Patricia

/-- The trie over what the store answers now. -/
def Trie.over (t : Trie) (rd : NodeReader) : Trie := { t with nodeReader := rd }

/-- A sequence of calls, each over what the store answers meanwhile. -/
def Trie.callsOver : Trie → List (NodeReader × TrieOp) → List (Except TrieError (Option Felt)) × Trie
  | t, [] => ([], t)
  | t, (rd, op) :: calls =>
    (((t.over rd).call op).1 :: (((t.over rd).call op).2.callsOver calls).1,
      (((t.over rd).call op).2.callsOver calls).2)

/-- Deleting the key leaves nothing of the node: it is a value, or an edge to the one value. -/
def emptied (rd : NodeReader) (height : ℕ) : ℕ → Node → Path → Path → Bool
  | 0, _, _, _ => false
  | fuel + 1, n, pre, key =>
    match n with
    | .value _ => true
    | .edge path _ _ => path.length ≤ (common path key).length && (common path key).length = key.length
    | .hash hn =>
      match resolveNode rd height (some hn) pre with
      | .error _ => false
      | .ok c => emptied rd height fuel c pre key
    | _ => false

/-- **On the way to the key is a branch that loses its child, and its other child cannot be read.** -/
def stranded (rd : NodeReader) (height : ℕ) : ℕ → Node → Path → Path → Bool
  | 0, _, _, _ => false
  | fuel + 1, n, pre, key =>
    match n with
    | .edge path c _ =>
      path.length ≤ (common path key).length && (common path key).length ≠ key.length &&
        stranded rd height fuel c (pre ++ key.take path.length) (key.drop path.length)
    | .binary left right _ =>
      stranded rd height fuel (child (bit key 0) left right) (pre ++ key.take 1) (key.drop 1) ||
        emptied rd height fuel (child (bit key 0) left right) (pre ++ key.take 1) (key.drop 1) &&
          !(resolved rd height (child (!bit key 0) left right) (pre ++ [!bit key 0])).isOk
    | .hash hn =>
      match resolveNode rd height (some hn) pre with
      | .error _ => false
      | .ok c => stranded rd height fuel c pre key
    | _ => false

variable {rd : NodeReader} {height fuel : ℕ} {n : Node} {pre key : Path} {tr tr' : Tracer} {e : TrieError}

theorem insert_error {value : Node} (h : insert rd height fuel n pre key value tr = (.error e, tr')) :
    tr' = tr := by
  fun_induction insert rd height fuel n pre key value tr generalizing tr'
  case case6 hd ih | case9 hd ih | case13 hd ih | case17 hd ih =>
    cases h
    exact ih hd
  case case10 fuel _ _ _ _ _ _ _ _ _ _ _ _ _ hpath _ _ hkey _ _ =>
    -- what hangs from the edge was put below nothing, so there is fuel to put the value there
    cases fuel with
    | zero => cases hpath
    | succ fuel => cases (insert_nil ..).symm.trans hkey
  all_goals cases h
  all_goals rfl

theorem emptied_of_delete (h : delete rd height fuel n pre key tr = (.ok (.nil, true), tr')) :
    emptied rd height fuel n pre key = true := by
  fun_induction delete rd height fuel n pre key tr generalizing tr'
  case case4 hm hkey =>
    rw [emptied, Bool.and_eq_true]
    exact ⟨decide_eq_true (Nat.not_lt.mp hm), decide_eq_true hkey⟩
  case case7 c' _ _ _ => cases c' <;> cases h
  case case11 c _ _ _ => cases c <;> cases h
  case case12 =>
    rw [setChild] at h
    split_ifs at h <;> cases h
  case case17 hres _ _ hd ih =>
    cases h
    rw [emptied, hres]
    exact ih hd
  all_goals cases h
  all_goals rfl

/-- **A deletion that fails has recorded nothing**, unless it leaves a branch with a child that cannot be
read. -/
theorem delete_error (h : delete rd height fuel n pre key tr = (.error e, tr'))
    (hs : stranded rd height fuel n pre key = false) : tr' = tr := by
  fun_induction delete rd height fuel n pre key tr generalizing tr'
  case case5 hm hkey _ _ hd ih =>
    cases h
    rw [stranded, decide_eq_true (Nat.not_lt.mp hm), decide_eq_true hkey] at hs
    exact ih hd hs
  case case7 c' _ _ _ => cases c' <;> cases h
  case case8 hd ih =>
    cases h
    rw [stranded, Bool.or_eq_false_iff] at hs
    exact ih hd hs.1
  case case10 hres hd ih =>
    rw [stranded, emptied_of_delete hd, hres, Bool.or_eq_false_iff] at hs
    cases hs.2
  case case11 c _ _ _ => cases c <;> cases h
  case case15 hres _ _ hd ih =>
    cases h
    rw [stranded, hres] at hs
    exact ih hd hs
  all_goals cases h
  all_goals rfl

namespace Trie

def strandsKey (t : Trie) (key : Felt) : Bool :=
  !t.committed && stranded t.nodeReader t.height t.fuel t.root [] (feltToPath t.height key)

/-- **The call deletes a key, and the deletion is stranded.** -/
def strands (t : Trie) : TrieOp → Bool
  | .update key value => value = 0 && t.strandsKey key
  | .delete key => t.strandsKey key
  | _ => false

variable {t : Trie} {key value : Felt}

theorem get_failed (h : (t.get key).1 = .error e) : (t.get key).2 = t := by
  rw [get] at h ⊢
  split_ifs at h ⊢ with hc
  · rfl
  cases hg : Trie2.get t.nodeReader t.height t.fuel t.root [] (feltToPath t.height key) with
  | error err => rfl
  | ok r =>
    rw [hg] at h
    cases h

theorem delete_failed (h : (t.delete key).1 = .error e) (hs : t.strandsKey key = false) :
    (t.delete key).2 = t := by
  rw [delete] at h ⊢
  rw [strandsKey] at hs
  split_ifs at h ⊢ with hc
  · rfl
  rw [Bool.eq_false_iff.mpr hc] at hs
  rcases hd : Trie2.delete t.nodeReader t.height t.fuel t.root [] (feltToPath t.height key) t.nodeTracer
    with ⟨_ | r, tr⟩
  · rw [delete_error hd hs]
  · rw [hd] at h
    cases h

theorem update_failed (h : (t.update key value).1 = .error e) (hs : t.strands (.update key value) = false) :
    (t.update key value).2 = t := by
  rw [update] at h ⊢
  split_ifs at h ⊢ with hc hv
  · rfl
  · rw [strands, decide_eq_true hv] at hs
    exact delete_failed h hs
  rcases hd :
    insert t.nodeReader t.height t.fuel t.root [] (feltToPath t.height key) (.value value) t.nodeTracer with
    ⟨_ | r, tr⟩
  · rw [insert_error hd]
  · rw [hd] at h
    cases h

theorem map_eq_error {X Y : Type} {x : Except TrieError X} {f : X → Y} (h : x.map f = .error e) :
    x = .error e := by
  cases x <;> cases h
  rfl

/-- **A call that fails leaves the trie**, unless it is stranded. -/
theorem call_failed {op : TrieOp} (hop : op ≠ .hash) (h : (t.call op).1 = .error e)
    (hs : t.strands op = false) : (t.call op).2 = t := by
  cases op with
  | hash => exact absurd rfl hop
  | get key => exact get_failed (map_eq_error h)
  | delete key => exact delete_failed (map_eq_error h) hs
  | update key value => exact update_failed (map_eq_error h) hs

theorem callsOver_append (t : Trie) (before after : List (NodeReader × TrieOp)) :
    t.callsOver (before ++ after) =
      ((t.callsOver before).1 ++ ((t.callsOver before).2.callsOver after).1,
        ((t.callsOver before).2.callsOver after).2) := by
  induction before generalizing t with
  | nil => rfl
  | cons c before ih =>
    obtain ⟨rd, op⟩ := c
    rw [List.cons_append, callsOver, ih]
    rfl

/-- What the store answered before does not matter. -/
theorem callsOver_over (t : Trie) (rd rd' : NodeReader) (calls : List (NodeReader × TrieOp)) :
    ((t.over rd).callsOver calls).1 = (t.callsOver calls).1 ∧
      ((t.over rd).callsOver calls).2.over rd' = (t.callsOver calls).2.over rd' := by
  cases calls with
  | nil | cons => exact ⟨rfl, rfl⟩

/-- **Calls that fail.** A call other than `Hash` that fails, and is not stranded, leaves no trace: the later
answers and the commit are those of the sequence without it. -/
theorem callsOver_without_failed (t : Trie) (before after : List (NodeReader × TrieOp)) (rd : NodeReader)
    (op : TrieOp) (e : TrieError) (hop : op ≠ .hash)
    (hfailed : (((t.callsOver before).2.over rd).call op).1 = .error e)
    (hread : ((t.callsOver before).2.over rd).strands op = false) :
    ∃ later, (t.callsOver (before ++ after)).1 = (t.callsOver before).1 ++ later ∧
      (t.callsOver (before ++ (rd, op) :: after)).1 = (t.callsOver before).1 ++ .error e :: later ∧
      ∀ rd', ((t.callsOver (before ++ (rd, op) :: after)).2.over rd').commit =
        ((t.callsOver (before ++ after)).2.over rd').commit := by
  have hleft := call_failed hop hfailed hread
  simp only [callsOver_append, callsOver, hfailed, hleft, callsOver_over _ rd none]
  refine ⟨_, rfl, rfl, fun rd' => ?_⟩
  rw [(callsOver_over _ rd rd' after).2]

end Trie

/-- A store with the values of two keys, each below an edge of the root. -/
def twoRows : NodeStore := storeOf 2 (fun _ _ => 1) fun k => if k = 0 ∨ k = 2 then 5 else 0

/-- The store while the second edge cannot be read. -/
def halfRows : NodeStore := Function.update twoRows ⟨false, [true]⟩ none

/-- A deletion that fails at once leaves no trace. -/
theorem callsOver_without_failed_delete :
    ∃ t, Trie.new 7 1 2 (fun _ _ => 1) twoRows = .ok t ∧
      (t.callsOver [(some halfRows, .delete 2), (some twoRows, .get 2)]).1 =
        .error .keyNotFound :: (t.callsOver [(some twoRows, .get 2)]).1 := by
  obtain ⟨later, hwithout, hfailed, -⟩ := Trie.callsOver_without_failed
    ⟨2, 7, .binary (.hash 2) (.hash 2) ⟨none, false⟩, fun _ _ => 1, some twoRows, false, newTracer⟩ []
    [(some twoRows, .get 2)] (some halfRows) (.delete 2) .keyNotFound (by decide) (by decide +kernel)
      (by decide +kernel)
  exact ⟨_, rfl, hfailed.trans (congrArg (List.cons _) hwithout.symm)⟩

/-- **A failed deletion is committed.** The root keeps both children, as the other one cannot be read; the
commit after the next write marks the leaf as deleted. -/
theorem failed_delete_commits :
    ∃ t ns ns', Trie.new 7 1 2 (fun _ _ => 1) twoRows = .ok t ∧
      (t.callsOver [(some halfRows, .delete 0)]).1 = [.error .keyNotFound] ∧
      (t.callsOver [(some twoRows, .update 2 6)]).2.commit.1 = .ok (1, some ns) ∧
        ns.nodes [false, false] = none ∧
      (t.callsOver [(some halfRows, .delete 0), (some twoRows, .update 2 6)]).2.commit.1 = .ok (1, some ns') ∧
      ns'.nodes [false, false] = some (.deleted true) := by
  refine ⟨_, _, _, rfl, rfl, rfl, ?_, rfl, ?_⟩
  · decide +kernel
  · decide +kernel

end Juno.Trie2
