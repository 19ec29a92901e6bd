import Mathlib

/-!
# The persistent mempool

Package `mempool`. `Push` puts a transaction in the channel of the writer, which appends it to a list in the
database that is linked by transaction hashes. If the channel is full, `Push` takes a transaction out of it
and does not put in its own.

* `Loads.nodup` — `LoadFromDB` does not end on a list in which a hash comes twice.
* `restores_iff` — **when `LoadFromDB` restores what was accepted**, over every run of the pool and its
  writer.
-/

namespace Juno.Mempool

open List Function

variable {T H : Type}

structure DBPoolTxn (T H : Type) where
  txn : T
  nextHash : Option H

structure DB (T H : Type) where
  head : Option H
  tail : Option H
  len : ℕ
  node : H → Option (DBPoolTxn T H)

def DB.empty : DB T H := ⟨none, none, 0, fun _ => none⟩

/-- The loop of `LoadFromDB`, for some turns. -/
def DB.loadFrom (db : DB T H) : ℕ → Option H → Option (List T)
  | 0, _ => none
  | _ + 1, none => some []
  | n + 1, some hash => do
    let curTxn ← db.node hash
    return curTxn.txn :: (← db.loadFrom n curTxn.nextHash)

/-- `SequencerMempool`. -/
structure Pool (T H : Type) where
  memTxnList : List T
  dbWriteChan : List T
  db : DB T H

def Pool.new : Pool T H := ⟨[], [], DB.empty⟩

inductive PushError where
  /-- `ErrTxnPoolFull`. -/
  | txnPoolFull
  /-- `validate` finds the transaction invalid in the state. -/
  | invalid
  deriving DecidableEq

variable (maxNumTxns : ℕ) (p : Pool T H)

/-- `Push`. The flag is what `validate` finds in the state. At a full channel, the writer may take some
transactions before `Push` takes out the next one. -/
def Pool.push (txn : T) (valid : Bool) (taken : ℕ) : Except PushError (Pool T H) :=
  if maxNumTxns ≤ p.memTxnList.length + 1 then .error .txnPoolFull
  else if valid = false then .error .invalid
  else
    let dbWriteChan :=
      if p.dbWriteChan.length < maxNumTxns then p.dbWriteChan ++ [txn] else p.dbWriteChan.eraseIdx taken
    .ok { p with memTxnList := p.memTxnList ++ [txn], dbWriteChan := dbWriteChan }

inductive Event (T : Type) where
  | push (txn : T) (valid : Bool) (taken : ℕ)
  | popBatch (numToPop : ℕ)
  /-- The writer takes a transaction. -/
  | write

def Event.accepted : Event T → List T
  | .push txn valid taken => if (p.push maxNumTxns txn valid taken).isOk then [txn] else []
  | _ => []

/-- `Push` accepts a transaction and finds the channel full. -/
def Event.overflows : Event T → Bool
  | .push txn valid taken =>
    (p.push maxNumTxns txn valid taken).isOk && decide (maxNumTxns ≤ p.dbWriteChan.length)
  | _ => false

theorem push_ok {p p' : Pool T H} {maxNumTxns : ℕ} {txn : T} {valid : Bool} {taken : ℕ}
    (h : p.push maxNumTxns txn valid taken = .ok p') :
    p'.db = p.db ∧ p'.dbWriteChan =
      if p.dbWriteChan.length < maxNumTxns then p.dbWriteChan ++ [txn] else p.dbWriteChan.eraseIdx taken := by
  rw [Pool.push] at h
  by_cases hlimit : maxNumTxns ≤ p.memTxnList.length + 1
  · rw [if_pos hlimit] at h
    cases h
  · rw [if_neg hlimit] at h
    cases valid <;> cases h
    exact ⟨rfl, rfl⟩

section

variable [DecidableEq H] (hash : T → H)

/-- `writeToDB`, with `none` for an error. It reads what was there before its batch. -/
def DB.writeToDB (db : DB T H) (txn : T) : Option (DB T H) :=
  let node := update db.node (hash txn) (some ⟨txn, none⟩)
  match db.tail with
  | none => some ⟨some (hash txn), some (hash txn), db.len + 1, node⟩
  | some tailVal => (db.node tailVal).map fun oldTail => ⟨db.head, some (hash txn), db.len + 1,
      update node (hash oldTail.txn) (some ⟨oldTail.txn, some (hash txn)⟩)⟩

def DB.writeAll (db : DB T H) (txns : List T) : DB T H :=
  txns.foldl (fun db txn => (db.writeToDB hash txn).getD db) db

def Pool.step (maxNumTxns : ℕ) (p : Pool T H) : Event T → Pool T H
  | .push txn valid taken =>
    match p.push maxNumTxns txn valid taken with
    | .ok p' => p'
    | .error _ => p
  | .popBatch numToPop => { p with memTxnList := p.memTxnList.drop numToPop }
  | .write =>
    { p with dbWriteChan := p.dbWriteChan.tail, db := p.db.writeAll hash p.dbWriteChan.head?.toList }

def Pool.run (maxNumTxns : ℕ) (p : Pool T H) (events : List (Event T)) : Pool T H :=
  events.foldl (Pool.step hash maxNumTxns) p

/-- `Close`: the writer takes what is left. -/
def Pool.close (p : Pool T H) : DB T H := p.db.writeAll hash p.dbWriteChan

/-- The transactions that `Push` accepts in a run. -/
def accepted (hash : T → H) (maxNumTxns : ℕ) (p : Pool T H) : List (Event T) → List T
  | [] => []
  | e :: es => e.accepted maxNumTxns p ++ accepted hash maxNumTxns (p.step hash maxNumTxns e) es

/-- The channel is found full in a run. -/
def overflows (hash : T → H) (maxNumTxns : ℕ) (p : Pool T H) : List (Event T) → Bool
  | [] => false
  | e :: es => e.overflows maxNumTxns p || overflows hash maxNumTxns (p.step hash maxNumTxns e) es

/-- `LoadFromDB` on the database of a closed pool restores the transactions, in order, and the stored length
is right. -/
def Pool.Restores (p : Pool T H) (txns : List T) : Prop :=
  (∃ n, (p.close hash).loadFrom n (p.close hash).head = some txns) ∧ (p.close hash).len = txns.length

end

variable {hash : T → H} {db : DB T H} {node : H → Option (DBPoolTxn T H)} {l l' : List T} {o : Option H}

/-- Each transaction is stored with the hash of the next one. -/
def Linked (hash : T → H) (node : H → Option (DBPoolTxn T H)) : List T → Prop
  | [] => True
  | x :: l => node (hash x) = some ⟨x, l.head?.map hash⟩ ∧ Linked hash node l

structure Written (hash : T → H) (db : DB T H) (l : List T) : Prop where
  head : db.head = l.head?.map hash
  tail : db.tail = l.getLast?.map hash
  len : db.len = l.length
  linked : Linked hash db.node l

/-- A transaction is stored under its hash. -/
def Keyed (hash : T → H) (node : H → Option (DBPoolTxn T H)) : Prop := ∀ k e, node k = some e → hash e.txn = k

theorem Linked.last {y : T} (h : Linked hash node (l ++ [y])) : node (hash y) = some ⟨y, none⟩ := by
  induction l with
  | nil => exact h.1
  | cons x l ih => exact ih h.2

/-! ### Loading -/

/-- The loop of `LoadFromDB` ends with these transactions. -/
inductive Loads (db : DB T H) : Option H → List T → Prop where
  | nil : Loads db none []
  | cons {k : H} {e : DBPoolTxn T H} {l : List T} (he : db.node k = some e) (hl : Loads db e.nextHash l) :
      Loads db (some k) (e.txn :: l)

theorem loads_iff : Loads db o l ↔ ∃ n, db.loadFrom n o = some l := by
  constructor
  · intro h
    induction h with
    | nil => exact ⟨1, rfl⟩
    | cons he _ ih =>
      obtain ⟨n, hn⟩ := ih
      exact ⟨n + 1, by simp [DB.loadFrom, he, hn]⟩
  · rintro ⟨n, hn⟩
    induction n generalizing o l with
    | zero => cases hn
    | succ n ih =>
      cases o with
      | none => cases hn; exact .nil
      | some k =>
        simp only [DB.loadFrom, Option.bind_eq_bind, Option.bind_eq_some_iff, Option.pure_def,
          Option.some.injEq] at hn
        obtain ⟨e, he, r, hr, rfl⟩ := hn
        exact .cons he (ih hr)

theorem Linked.loads (h : Linked hash db.node l) : Loads db (l.head?.map hash) l := by
  induction l with
  | nil => exact .nil
  | cons x l ih => exact .cons h.1 (ih h.2)

theorem Loads.unique (h : Loads db o l) (h' : Loads db o l') : l = l' := by
  induction h generalizing l' with
  | nil => cases h'; rfl
  | cons he _ ih =>
    cases h' with
    | cons he' hr' =>
      obtain rfl := Option.some.inj (he.symm.trans he')
      rw [ih hr']

theorem Loads.of_mem (hk : Keyed hash db.node) (h : Loads db o l) {y : T} (hy : y ∈ l) :
    ∃ r, r.length ≤ l.length ∧ Loads db (some (hash y)) r := by
  induction h with
  | nil => cases hy
  | cons he hl ih =>
    rcases mem_cons.mp hy with rfl | hy
    · exact ⟨_, le_rfl, by rw [hk _ _ he]; exact .cons he hl⟩
    · obtain ⟨r, hr, hload⟩ := ih hy
      exact ⟨r, hr.trans (Nat.le_succ _), hload⟩

theorem Loads.nodup (hk : Keyed hash db.node) (h : Loads db o l) : (l.map hash).Nodup := by
  induction h with
  | nil => exact nodup_nil
  | cons he hl ih =>
    refine nodup_cons.mpr ⟨fun hmem => ?_, ih⟩
    -- a hash that comes again would be followed by all that followed it before
    obtain ⟨y, hy, hyk⟩ := mem_map.mp hmem
    obtain ⟨r, hr, hload⟩ := hl.of_mem hk hy
    rw [hyk, hk _ _ he] at hload
    have := congrArg length (hload.unique (.cons he hl))
    rw [length_cons] at this
    omega

/-! ### Writing -/

variable [DecidableEq H]

theorem Linked.concat {y t : T} (h : Linked hash node (l ++ [y])) (hd : ((l ++ [y, t]).map hash).Nodup) :
    Linked hash (update (update node (hash t) (some ⟨t, none⟩)) (hash y) (some ⟨y, some (hash t)⟩))
      (l ++ [y, t]) := by
  induction l with
  | nil => simp_all [Linked, update_of_ne, eq_comm]
  | cons x l ih =>
    obtain ⟨hx, hd⟩ := nodup_cons.mp hd
    refine ⟨?_, ih h.2 hd⟩
    rw [update_of_ne (by simp_all), update_of_ne (by simp_all), h.1]
    cases l <;> rfl

theorem Written.write (h : Written hash db l) {t : T} (hd : ((l ++ [t]).map hash).Nodup) :
    Written hash ((db.writeToDB hash t).getD db) (l ++ [t]) := by
  obtain ⟨hhead, htail, hlen, hlinked⟩ := h
  rcases eq_nil_or_concat' l with rfl | ⟨l, y, rfl⟩
  · have hnone : db.tail = none := htail
    simp only [DB.writeToDB, hnone]
    exact ⟨rfl, rfl, congrArg (· + 1) hlen, update_self .., trivial⟩
  · have hsome : db.tail = some (hash y) := by rw [htail, getLast?_concat]; rfl
    simp only [DB.writeToDB, hsome, hlinked.last]
    rw [append_assoc] at hd ⊢
    refine ⟨hhead.trans ?_, ?_, ?_, hlinked.concat hd⟩
    · cases l <;> rfl
    · simp
    · simp [hlen]

theorem Keyed.update (h : Keyed hash node) (e : DBPoolTxn T H) :
    Keyed hash (update node (hash e.txn) (some e)) := by
  intro k e' he'
  rw [update_apply] at he'
  split_ifs at he' with hk
  · rw [← Option.some.inj he', hk]
  · exact h k e' he'

theorem Keyed.write (h : Keyed hash db.node) (t : T) : Keyed hash ((db.writeToDB hash t).getD db).node := by
  have ht := h.update ⟨t, none⟩
  cases htail : db.tail with
  | none => simpa [DB.writeToDB, htail] using ht
  | some k =>
    cases hk : db.node k with
    | none => simpa [DB.writeToDB, htail, hk] using h
    | some e => simpa [DB.writeToDB, htail, hk] using ht.update ⟨e.txn, some (hash t)⟩

theorem keyed_writeAll (l : List T) : Keyed hash (DB.empty.writeAll hash l).node := by
  induction l using reverseRecOn with
  | nil => exact fun _ _ h => by cases h
  | append_singleton l t ih =>
    rw [DB.writeAll, foldl_append]
    exact ih.write t

theorem written_writeAll (hd : (l.map hash).Nodup) : Written hash (DB.empty.writeAll hash l) l := by
  induction l using reverseRecOn with
  | nil => exact ⟨rfl, rfl, rfl, trivial⟩
  | append_singleton l t ih =>
    rw [DB.writeAll, foldl_append]
    exact (ih (hd.sublist ((sublist_append_left l [t]).map hash))).write hd

/-! ### Runs -/

/-- The transactions that went through the channel, of which the database was given the first ones, are
accepted ones, and all of them if the channel was not full. -/
def Inv (hash : T → H) (p : Pool T H) (txns : List T) (full : Bool) : Prop :=
  ∃ w, p.db = DB.empty.writeAll hash w ∧ (w ++ p.dbWriteChan) <+ txns ∧
    (full = false ↔ (w ++ p.dbWriteChan).length = txns.length)

variable {p : Pool T H} {txns : List T} {full : Bool} (maxNumTxns : ℕ)

theorem Inv.push (h : Inv hash p txns full) (txn : T) (valid : Bool) (taken : ℕ) :
    Inv hash (p.step hash maxNumTxns (.push txn valid taken))
      (txns ++ Event.accepted maxNumTxns p (.push txn valid taken))
      (full || Event.overflows maxNumTxns p (.push txn valid taken)) := by
  simp only [Pool.step, Event.accepted, Event.overflows]
  cases hpush : p.push maxNumTxns txn valid taken with
  | error e => simpa [Except.isOk, Except.toBool] using h
  | ok p' =>
    obtain ⟨w, hdb, hsub, hfull⟩ := h
    obtain ⟨hdb', hchan⟩ := push_ok hpush
    simp only [Except.isOk, Except.toBool, Bool.true_and, if_true]
    by_cases hroom : p.dbWriteChan.length < maxNumTxns
    · rw [if_pos hroom] at hchan
      refine ⟨w, hdb'.trans hdb, ?_, ?_⟩
      · rw [hchan, ← append_assoc]
        exact hsub.append (Sublist.refl _)
      · simp only [hchan, not_le.mpr hroom, decide_false, Bool.or_false, hfull, length_append,
          length_singleton]
        omega
    · rw [if_neg hroom] at hchan
      have herase := ((eraseIdx_sublist p.dbWriteChan taken).append_left w).trans hsub
      refine ⟨w, hdb'.trans hdb, ?_, iff_of_false (by simp [not_lt.mp hroom]) ?_⟩
      · rw [hchan]
        exact herase.trans (sublist_append_left _ _)
      · rw [hchan]
        exact (herase.length_le.trans_lt (by simp)).ne

theorem Inv.step (h : Inv hash p txns full) (e : Event T) :
    Inv hash (p.step hash maxNumTxns e) (txns ++ e.accepted maxNumTxns p)
      (full || e.overflows maxNumTxns p) := by
  cases e with
  | push txn valid taken => exact h.push maxNumTxns txn valid taken
  | popBatch numToPop =>
    simp only [Event.accepted, Event.overflows, append_nil, Bool.or_false]
    exact h
  | write =>
    obtain ⟨w, hdb, hsub, hfull⟩ := h
    have hchan : (w ++ p.dbWriteChan.head?.toList) ++ p.dbWriteChan.tail = w ++ p.dbWriteChan := by
      cases p.dbWriteChan <;> simp
    refine ⟨w ++ p.dbWriteChan.head?.toList, ?_, ?_⟩
    · simp only [Pool.step, hdb, DB.writeAll, foldl_append]
    · simp only [Pool.step, hchan, Event.accepted, Event.overflows, append_nil, Bool.or_false]
      exact ⟨hsub, hfull⟩

theorem Inv.run (h : Inv hash p txns full) (events : List (Event T)) :
    Inv hash (p.run hash maxNumTxns events) (txns ++ accepted hash maxNumTxns p events)
      (full || overflows hash maxNumTxns p events) := by
  induction events generalizing p txns full with
  | nil => simpa [accepted, overflows, Pool.run] using h
  | cons e events ih =>
    rw [accepted, overflows, ← append_assoc, ← Bool.or_assoc]
    exact ih (h.step maxNumTxns e)

/-- **The restored pool.** Once the pool is closed, `LoadFromDB` restores what was accepted if and only if the
channel was never found full and the accepted transactions have different hashes. -/
theorem restores_iff (hash : T → H) (maxNumTxns : ℕ) (events : List (Event T)) :
    (Pool.new.run hash maxNumTxns events).Restores hash (accepted hash maxNumTxns .new events) ↔
      overflows hash maxNumTxns .new events = false ∧
        ((accepted hash maxNumTxns .new events).map hash).Nodup := by
  have hnew : Inv hash Pool.new [] false := ⟨[], rfl, Sublist.refl _, iff_of_true rfl rfl⟩
  obtain ⟨w, hdb, hsub, hfull⟩ := hnew.run maxNumTxns events
  rw [nil_append] at hsub hfull
  rw [Bool.false_or] at hfull
  generalize Pool.new.run hash maxNumTxns events = p at *
  generalize accepted hash maxNumTxns .new events = txns at *
  have hclose : p.close hash = DB.empty.writeAll hash (w ++ p.dbWriteChan) := by
    rw [Pool.close, hdb, DB.writeAll, DB.writeAll, DB.writeAll, foldl_append]
  rw [Pool.Restores, hclose, ← loads_iff]
  constructor
  · rintro ⟨hload, -⟩
    have hd := hload.nodup (keyed_writeAll _)
    have hw := written_writeAll (hd.sublist (hsub.map hash))
    rw [hw.head] at hload
    exact ⟨hfull.mpr (congrArg length (hw.linked.loads.unique hload)), hd⟩
  · rintro ⟨hnever, hd⟩
    rw [← hsub.eq_of_length (hfull.mp hnever)] at hd ⊢
    have hw := written_writeAll hd
    exact ⟨hw.head ▸ hw.linked.loads, hw.len⟩

end Juno.Mempool
