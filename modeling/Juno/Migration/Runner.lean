import Mathlib
import Juno.Lib.Except

/-!
# The migration runner

Package `migration`: a registry of migrations, the set of applied ones kept in the
database as a bit set, and `MigrationRunner`, which runs the pending ones in order and
keeps the intermediate state of a migration that was interrupted.

## The model

* `DB` — the buckets the runner reads and writes. What a migration does to the rest of the
  database is its own affair.
* `System` — a database and possibly a runner in the middle of `Run`. Between two steps
  the context may be cancelled (`cancel`); a call of `Migrate` may return anything
  (`returns`), so that every list of migrations and every behaviour of theirs is a list of
  events. Several runs, each with a registry of its own, follow one another.
* `returned` records every return of a `Migrate` and what `ctx.Err()` was then.

The main result is `runs_orderly`.
-/

namespace Juno.Migration

open List Bool

variable {i b : ℕ}

/-! ### Schema versions -/

/-- A set of migrations: bit `i` says whether migration `i` is in it. -/
abbrev SchemaVersion := BitVec 64

namespace SchemaVersion

variable (sv : SchemaVersion)

def set (index : ℕ) : SchemaVersion := sv ||| (1#64 <<< index)

def has (index : ℕ) : Bool := (sv &&& (1#64 <<< index)) != 0#64

variable (other : SchemaVersion)

/-- `Difference`: the bits of `sv` that are not in `other`. -/
def difference : SchemaVersion := sv &&& ~~~other

/-- `Contains`: every bit of `other` is in `sv`. -/
def contains : Bool := difference other sv == 0#64

def trailingZeros (n : BitVec 64) : ℕ := ((List.range 64).find? n.getLsbD).getD 64

/-- The loop of `Iter`: `n` is what is left of the value, shifted past the bits already seen. -/
def iterLoop : ℕ → BitVec 64 → ℕ → ℕ → List ℕ
  | 0, _, _, _ => []
  | fuel + 1, n, offset, idx =>
    if idx < 64 then
      idx :: if n >>> (offset + 1) = 0#64 then []
        else iterLoop fuel (n >>> (offset + 1)) (trailingZeros (n >>> (offset + 1)))
          (idx + (trailingZeros (n >>> (offset + 1)) + 1))
    else []

/-- `Iter`: the indices the iterator yields. -/
def iter : List ℕ :=
  if sv = 0#64 then [] else iterLoop 64 sv (trailingZeros sv) (trailingZeros sv)

theorem has_eq (i : ℕ) : sv.has i = sv.getLsbD i := by
  rw [has, ← BitVec.twoPow_eq, BitVec.and_twoPow]
  split_ifs with hb
  · rw [hb, bne_iff_ne]
    intro h
    have := congrArg (BitVec.getLsbD · i) h
    simp [BitVec.lt_of_getLsbD hb] at this
  · exact (Bool.eq_false_iff.mpr hb).symm

theorem has_set (i j : ℕ) (hi : i < 64) : (sv.set i).has j = (sv.has j || decide (i = j)) := by
  rw [has_eq, has_eq, set, BitVec.getLsbD_or, ← BitVec.twoPow_eq, BitVec.getLsbD_twoPow, decide_eq_true hi,
    Bool.true_and]

theorem has_difference (i : ℕ) : (sv.difference other).has i = (sv.has i && !other.has i) := by
  rw [has_eq, has_eq, has_eq, difference, BitVec.getLsbD_and, BitVec.getLsbD_not]
  by_cases hi : i < 64
  · simp [hi]
  · simp [BitVec.getLsbD_of_ge sv i (by omega)]

variable {sv : SchemaVersion}

theorem lt_of_has (h : sv.has i = true) : i < 64 := by
  rw [has_eq] at h
  exact BitVec.lt_of_getLsbD h

theorem trailingZeros_spec {n : BitVec 64} (h : n ≠ 0#64) :
    n.getLsbD (trailingZeros n) = true ∧ ∀ i < trailingZeros n, n.getLsbD i = false := by
  cases hf : (range 64).find? n.getLsbD with
  | none =>
    refine absurd (BitVec.eq_of_getLsbD_eq fun i hi => ?_) h
    rw [find?_eq_none] at hf
    simpa using hf i (mem_range.mpr hi)
  | some k =>
    have hk : trailingZeros n = k := by rw [trailingZeros, hf]; rfl
    rw [hk]
    refine ⟨find?_some hf, fun i hi => ?_⟩
    rw [find?_range_eq_some] at hf
    simpa using hf.2.2 i hi

def bitsFrom (sv : SchemaVersion) (b : ℕ) : List ℕ := (List.range' b (64 - b)).filter sv.getLsbD

theorem bitsFrom_eq_nil (h : sv >>> b = 0#64) : bitsFrom sv b = [] := by
  rw [bitsFrom, filter_eq_nil_iff]
  intro i hi
  rw [mem_range'_1] at hi
  have := congrArg (fun v : BitVec 64 => v.getLsbD (i - b)) h
  rw [BitVec.getLsbD_ushiftRight, show b + (i - b) = i by omega] at this
  simpa using this

/-- The first set bit from `b` on, followed by those after it. -/
theorem bitsFrom_cons (h : sv >>> b ≠ 0#64) : b + trailingZeros (sv >>> b) < 64 ∧
      bitsFrom sv b = (b + trailingZeros (sv >>> b)) :: bitsFrom sv (b + trailingZeros (sv >>> b) + 1) := by
  obtain ⟨hset, hclear⟩ := trailingZeros_spec h
  rw [BitVec.getLsbD_ushiftRight] at hset
  have hlt := BitVec.lt_of_getLsbD hset
  refine ⟨hlt, ?_⟩
  have hsplit : range' b (64 - b) = range' b (trailingZeros (sv >>> b)) ++
      (b + trailingZeros (sv >>> b)) ::
        range' (b + trailingZeros (sv >>> b) + 1) (64 - (b + trailingZeros (sv >>> b) + 1)) := by
    rw [← range'_succ, range'_append_1]
    congr 1
    omega
  have hbelow : (range' b (trailingZeros (sv >>> b))).filter sv.getLsbD = [] := by
    rw [filter_eq_nil_iff]
    intro i hi
    rw [mem_range'_1] at hi
    have := hclear (i - b) (by omega)
    rw [BitVec.getLsbD_ushiftRight, show b + (i - b) = i by omega] at this
    simp [this]
  rw [bitsFrom, hsplit, filter_append, hbelow, nil_append, filter_cons_of_pos hset, bitsFrom]

theorem iterLoop_eq (sv : SchemaVersion) (fuel b : ℕ) (hb : 64 ≤ b + fuel) (h : sv >>> b ≠ 0#64) :
    iterLoop fuel (sv >>> b) (trailingZeros (sv >>> b)) (b + trailingZeros (sv >>> b)) = bitsFrom sv b := by
  induction fuel generalizing b with
  | zero =>
    have := (bitsFrom_cons h).1
    omega
  | succ fuel ih =>
    obtain ⟨hlt, hcons⟩ := bitsFrom_cons h
    have hshift :
        sv >>> b >>> (trailingZeros (sv >>> b) + 1) = sv >>> (b + trailingZeros (sv >>> b) + 1) := by
      exact (BitVec.shiftRight_add sv b (trailingZeros (sv >>> b) + 1)).symm
    rw [iterLoop, if_pos hlt, hcons, hshift]
    congr 1
    split_ifs with hz
    · exact (bitsFrom_eq_nil hz).symm
    · rw [← ih (b + trailingZeros (sv >>> b) + 1) (by omega) hz]
      congr 1
      omega

/-- **`Iter` yields the set bits in ascending order.** -/
theorem iter_eq (sv : SchemaVersion) : sv.iter = bitsFrom sv 0 := by
  have hshift : sv >>> 0 = sv := BitVec.ushiftRight_zero sv
  rw [iter]
  split_ifs with h
  · exact (bitsFrom_eq_nil (by rw [hshift, h])).symm
  · have := iterLoop_eq sv 64 0 (by omega) (by rw [hshift]; exact h)
    rw [hshift, Nat.zero_add] at this
    exact this

theorem mem_iter : i ∈ sv.iter ↔ sv.has i = true := by
  rw [iter_eq, bitsFrom, mem_filter, mem_range'_1, has_eq]
  constructor
  · exact fun h => h.2
  · intro h
    have := BitVec.lt_of_getLsbD h
    exact ⟨by omega, h⟩

theorem iter_sorted (sv : SchemaVersion) : sv.iter.Pairwise (· < ·) := by
  rw [iter_eq]
  exact Pairwise.filter _ pairwise_lt_range'

end SchemaVersion

/-! ### Errors and contexts -/

/-- What `ctx.Err()` gives once the context is done. -/
inductive CtxErr where
  | canceled
  | deadlineExceeded
  deriving DecidableEq, Repr

inductive Err where
  | ctx (e : CtxErr)
  /-- `errors.New`. -/
  | text (msg : String)
  /-- `fmt.Errorf("msg: %w", e)`. -/
  | wrap (msg : String) (e : Err)
  | join (e e' : Err)
  deriving DecidableEq, Repr

/-- `errors.Is(e, c)` for the error `c` of a context. -/
def Err.is : Err → CtxErr → Bool
  | .ctx e, c => e == c
  | .text _, _ => false
  | .wrap _ e, c => e.is c
  | .join e e', c => e.is c || e'.is c

def Err.isContext (e : Err) : Bool := e.is .canceled || e.is .deadlineExceeded

/-- `errors.Is(e, ctx.Err())`: an error is never `nil`. -/
def Err.isOf (e : Err) : Option CtxErr → Bool
  | none => false
  | some c => e.is c

/-! ### The database and the registry -/

abbrev Bytes := List UInt8

structure SchemaMetadata where
  currentVersion : SchemaVersion
  lastTargetVersion : SchemaVersion
  deriving DecidableEq, Repr

structure DB where
  /-- The version left by the removed migration system. -/
  deprecatedSchemaVersion : Option ℕ
  /-- `SchemaMetadataBucket`. -/
  metadata : Option SchemaMetadata
  /-- `SchemaIntermediateState`, by the index of the migration. -/
  intermediateState : ℕ → Option Bytes

/-- The applied migrations, as stored. -/
def DB.version (db : DB) : SchemaVersion :=
  match db.metadata with
  | none => 0#64
  | some m => m.currentVersion

/-- `Registry`, without the migrations themselves: what they do comes with the events. -/
structure Registry where
  targetVersion : SchemaVersion
  /-- The flag of each registered migration, empty for a mandatory one. -/
  optionalMigrationFlags : List String
  deriving DecidableEq, Repr

def Registry.new : Registry := ⟨0#64, []⟩

/-- `With`: the panic at 64 migrations is `none`. -/
def Registry.with (r : Registry) : Option Registry :=
  if 64 ≤ r.optionalMigrationFlags.length then none
  else some ⟨r.targetVersion.set r.optionalMigrationFlags.length, r.optionalMigrationFlags ++ [""]⟩

def Registry.withOptional (r : Registry) (enabled : Bool) (name : String) : Option Registry :=
  if 64 ≤ r.optionalMigrationFlags.length then none
  else some ⟨if enabled then r.targetVersion.set r.optionalMigrationFlags.length else r.targetVersion,
    r.optionalMigrationFlags ++ [name]⟩

def lastDeprecatedSchemaVersion : ℕ := 22

def validateNoPendingDeprecatedMigrations (db : DB) : Except Err Unit :=
  match db.deprecatedSchemaVersion with
  | none => .ok ()
  | some version =>
    if version < lastDeprecatedSchemaVersion then
      .error (.text ("database is from an older, unsupported version of Juno; " ++
        "downgrade to Juno v0.16.x first, run it, wait for migration to finish " ++
        "and then upgrade back to the current version. Otherwise, resync from scratch"))
    else .ok ()

/-- The loop over the opt-out attempts: it stops at the first bit beyond the registry. -/
def flagList (flags : List String) : List ℕ → List String
  | [] => []
  | idx :: rest =>
    match flags[idx]? with
    | none => []
    | some flag => (if flag ≠ "" then "--" ++ flag else "--migration-" ++ toString idx) :: flagList flags rest

def validateNoOptOut (target lastTargetVersion : SchemaVersion) (flags : List String) : Except Err Unit :=
  if lastTargetVersion.difference target = 0#64 then .ok ()
  else if flagList flags (lastTargetVersion.difference target).iter = [] then .ok ()
  else .error (.text ("cannot opt out of previously enabled migrations: " ++
    toString (flagList flags (lastTargetVersion.difference target).iter) ++ " (set these flags to enable)"))

def validateNoVersionDowngrade (current target : SchemaVersion) : Except Err Unit :=
  if target.contains current then .ok ()
  else .error (.text "database is from a newer, incompatible version of Juno; upgrade to use this database")

/-- `NewRunner`: the metadata the runner starts from. -/
def newRunner (registry : Registry) (db : DB) : Except Err SchemaMetadata := do
  validateNoPendingDeprecatedMigrations db
  let metadata := db.metadata.getD ⟨0#64, 0#64⟩
  validateNoOptOut registry.targetVersion metadata.lastTargetVersion registry.optionalMigrationFlags
  validateNoVersionDowngrade metadata.currentVersion registry.targetVersion
  return metadata

/-! ### Runs -/

/-- A runner in the middle of `Run`. -/
structure Process where
  metadata : SchemaMetadata
  /-- `mr.targetVersion`. -/
  target : SchemaVersion
  /-- What the range over `pending.Iter()` has still to yield. -/
  todo : List ℕ
  ctx : Option CtxErr
  /-- The migration whose `Migrate` is running, with the state its `Before` received. -/
  current : Option (ℕ × Option Bytes)

/-- A return of `Migrate`. -/
structure Return where
  index : ℕ
  /-- The intermediate state: `none` is `nil`. -/
  state : Option Bytes
  err : Option Err
  /-- `ctx.Err()` when the runner looked at the error. -/
  ctx : Option CtxErr
  deriving DecidableEq

/-- The database, the runner that is at work on it, and what has been returned so far, oldest first. -/
structure System where
  db : DB
  process : Option Process
  /-- The returns of `Migrate` so far. -/
  returned : List Return
  /-- What the last call of `NewRunner` or `Run` that returned gave. -/
  outcome : Except Err Unit

inductive Event where
  /-- `NewRunner` and the beginning of `Run`, with a context in the given state. -/
  | launch (registry : Registry) (ctx : Option CtxErr)
  /-- The context is cancelled, or its deadline passes. -/
  | cancel (e : CtxErr)
  /-- The head of the loop of `Run`, and `Before`, which gives the given error. -/
  | next (beforeErr : Option Err)
  /-- `Migrate` returns a state and an error; the context may be cancelled (`late`) while the
  runner acts on it. -/
  | returns (state : Option Bytes) (err : Option Err) (late : Option CtxErr)

/-- The context after a cancellation: the first one counts. -/
def cancelCtx (ctx late : Option CtxErr) : Option CtxErr :=
  match ctx with
  | some e => some e
  | none => late

def ctxResult : Option CtxErr → Except Err Unit
  | none => .ok ()
  | some e => .error (.ctx e)

namespace System

variable (s : System)

/-- `Run` returns. -/
def leave (outcome : Except Err Unit) : System := { s with process := none, outcome := outcome }

/-- `Run` returns the error of a migration. -/
def abort (index : ℕ) (e : Err) : System :=
  s.leave (.error (.wrap ("running migration at index " ++ toString index) e))

/-- `NewRunner` and `Run` up to the loop: the target is stored before anything else. -/
def launch (registry : Registry) (ctx : Option CtxErr) : System :=
  match newRunner registry s.db with
  | .error e => { s with outcome := .error e }
  | .ok metadata =>
    let metadata := { metadata with lastTargetVersion := registry.targetVersion }
    let s := { s with db := { s.db with metadata := some metadata } }
    let pending := registry.targetVersion.difference metadata.currentVersion
    if pending = 0#64 then s.leave (.ok ())
    else { s with process := some ⟨metadata, registry.targetVersion, pending.iter, ctx, none⟩ }

/-- One turn of the loop of `Run`, up to the call of `Migrate`. -/
def next (p : Process) (beforeErr : Option Err) : System :=
  match p.todo with
  | [] => s.leave (ctxResult p.ctx)
  | i :: rest =>
    match p.ctx with
    | some e => s.leave (.error (.ctx e))
    | none =>
      match beforeErr with
      | some e => s.abort i (.wrap "restoring migration state" e)
      | none =>
        { s with process := some { p with todo := rest, current := some (i, s.db.intermediateState i) } }

/-- The migration is recorded as applied and its intermediate state is cleared, in one batch. -/
def apply (p : Process) (i : ℕ) : System :=
  let metadata := { p.metadata with currentVersion := p.metadata.currentVersion.set i }
  { s with
    db := { s.db with
      metadata := some metadata, intermediateState := Function.update s.db.intermediateState i none }
    process := some { p with metadata := metadata, current := none } }

def save (i : ℕ) (state : Bytes) : System :=
  { s with db := { s.db with intermediateState := Function.update s.db.intermediateState i (some state) } }

/-- The rest of `runMigration`, from the return of `Migrate` on, and the way back into the loop. -/
def returns (p : Process) (i : ℕ) (state : Option Bytes) (err : Option Err) (late : Option CtxErr) : System :=
  let s := { s with returned := s.returned ++ [(⟨i, state, err, p.ctx⟩ : Return)] }
  let ctx := cancelCtx p.ctx late
  match err.filter fun e => !e.isOf p.ctx with
  | some e => s.abort i (.wrap "executing migration" e)
  | none =>
    match state with
    | some bytes =>
      match ctx with
      | some e => (s.save i bytes).abort i (.ctx e)
      | none => { s.save i bytes with process := some { p with current := none } }
    | none => s.apply { p with ctx := ctx } i

/-- What an event does. An event that cannot happen changes nothing. -/
def step : Event → System
  | .launch registry ctx =>
    match s.process with
    | none => s.launch registry ctx
    | some _ => s
  | .cancel e =>
    match s.process with
    | none => s
    | some p => { s with process := some { p with ctx := cancelCtx p.ctx (some e) } }
  | .next beforeErr =>
    match s.process with
    | some p => match p.current with
      | none => s.next p beforeErr
      | some _ => s
    | none => s
  | .returns state err late =>
    match s.process with
    | some p => match p.current with
      | some c => s.returns p c.1 state err late
      | none => s
    | none => s

def run (events : List Event) : System := events.foldl step s

/-- No runner has been at work on the database yet. -/
def init (db : DB) : System := ⟨db, none, [], .ok ()⟩

/-- The last return of a migration's `Migrate`. -/
def lastReturn (i : ℕ) : Option Return := s.returned.reverse.find? fun r => r.index == i

end System

/-! ### Order -/

/-- The attempt was interrupted: it gave a state, with no error or with a context's error. -/
def Return.interrupted (r : Return) : Bool := r.state.isSome && r.err.all Err.isContext

/-- **What the runner promises**, for a database that was `db` before the first run. -/
structure Orderly (db : DB) (s : System) : Prop where
  /-- A bit is set only after its migration returned `(nil, nil)`. -/
  applied : ∀ i, s.db.version.has i = true →
    db.version.has i = true ∨ ∃ r ∈ s.returned, r.index = i ∧ r.state = none ∧ r.err = none
  /-- When a migration is started, every earlier one of the target has been applied. -/
  inOrder : ∀ p i received, s.process = some p → p.current = some (i, received) →
    ∀ j < i, p.target.has j = true → s.db.version.has j = true
  /-- After an interrupted attempt `Before` receives the state that was returned. -/
  resumed : ∀ p i received r, s.process = some p → p.current = some (i, received) →
    s.lastReturn i = some r → r.interrupted = true → received = r.state

/-- The condition on a return of `Migrate`: with the context's error it gives a state, without an
error it gives a state only if the context is done or nothing else is pending, and a context's
error it gives with a state is that of the runner's context. -/
def admitsReturn (p : Process) (state : Option Bytes) (err : Option Err) (late : Option CtxErr) : Bool :=
  match state, err with
  | none, none => true
  | none, some e => !e.isOf p.ctx
  | some _, none => p.todo.isEmpty || (cancelCtx p.ctx late).isSome
  | some _, some e => !e.isContext || e.isOf p.ctx

def System.admits (s : System) : Event → Bool
  | .returns state err late =>
    match s.process with
    | some p => p.current.isNone || admitsReturn p state err late
    | none => true
  | _ => true

/-- Every event of a run meets the condition when it happens. -/
def System.admitsAll (s : System) : List Event → Bool
  | [] => true
  | e :: events => s.admits e && (s.step e).admitsAll events

/-- The running migration, if any, and those to come. -/
def Process.pending (p : Process) : List ℕ := (p.current.map Prod.fst).toList ++ p.todo

/-- A runner at work: what it holds agrees with the database, and what is pending is neither applied nor left
behind. -/
structure Working (db : DB) (p : Process) : Prop where
  metadata : db.metadata = some p.metadata
  sorted : p.pending.Pairwise (· < ·)
  bits : ∀ j ∈ p.pending, j < 64
  /-- Nothing of the target has been left behind, unless the loop is at its end. -/
  left : p.pending = [] ∨ ∀ j, p.target.has j = true → p.metadata.currentVersion.has j = true ∨ j ∈ p.pending
  /-- The running migration got what was stored. -/
  received : ∀ c, p.current = some c → c.2 = db.intermediateState c.1

structure Inv (db : DB) (s : System) : Prop where
  /-- See `Orderly`. -/
  applied : ∀ i, s.db.version.has i = true →
    db.version.has i = true ∨ ∃ r ∈ s.returned, r.index = i ∧ r.state = none ∧ r.err = none
  /-- The state of the last attempt, if it was interrupted, is stored. -/
  saved : ∀ i r, s.lastReturn i = some r → r.interrupted = true → s.db.intermediateState i = r.state
  working : ∀ p, s.process = some p → Working s.db p

variable {db : DB} {s : System} {p : Process} {received : Option Bytes} {m : SchemaMetadata}
  {err : Option Err} {r : Return}

theorem DB.version_of_metadata (h : db.metadata = some m) : db.version = m.currentVersion := by
  rw [DB.version, h]

theorem lastReturn_append {s' : System} (h : s'.returned = s.returned ++ [r]) (i : ℕ) :
    s'.lastReturn i = if r.index = i then some r else s.lastReturn i := by
  rw [System.lastReturn, h, reverse_append, reverse_singleton, singleton_append, find?_cons]
  by_cases h : r.index = i
  · rw [beq_iff_eq.mpr h, if_pos h]
  · rw [beq_eq_false_iff_ne.mpr h, if_neg h]
    rfl

theorem Process.pending_of_current {c : ℕ × Option Bytes} (h : p.current = some c) :
    p.pending = c.1 :: p.todo := by
  rw [pending, h]
  rfl

theorem Inv.orderly (h : Inv db s) : Orderly db s := by
  refine ⟨h.applied, ?_, ?_⟩
  · intro p i received hp hcur j hj htarget
    have hw := h.working p hp
    have hsorted := hw.sorted
    have hleft := hw.left
    rw [Process.pending_of_current hcur] at hsorted hleft
    rw [DB.version_of_metadata hw.metadata]
    rcases hleft.resolve_left (cons_ne_nil _ _) j htarget with hdone | hmem
    · exact hdone
    · rcases mem_cons.mp hmem with rfl | hmem
      · exact absurd hj (lt_irrefl _)
      · exact absurd hj ((pairwise_cons.mp hsorted).1 j hmem).asymm
  · intro p i received r hp hcur hlast hint
    rw [← h.saved i r hlast hint]
    exact (h.working p hp).received _ hcur

theorem Inv.leave (h : Inv db s) (outcome : Except Err Unit) : Inv db (s.leave outcome) :=
  ⟨h.applied, h.saved, fun _ hp => by cases hp⟩

theorem newRunner_ok {registry : Registry} (h : newRunner registry db = .ok m) :
    m = db.metadata.getD ⟨0#64, 0#64⟩ := by
  rw [newRunner] at h
  obtain ⟨-, -, h⟩ := Juno.Lib.bind_eq_ok.mp h
  obtain ⟨-, -, h⟩ := Juno.Lib.bind_eq_ok.mp h
  obtain ⟨-, -, h⟩ := Juno.Lib.bind_eq_ok.mp h
  exact (Except.ok.inj h).symm

theorem Inv.launch (h : Inv db s) (registry : Registry) (ctx : Option CtxErr) :
    Inv db (s.launch registry ctx) := by
  rw [System.launch]
  cases hnew : newRunner registry s.db with
  | error e => exact { h with }
  | ok m =>
    have hversion : m.currentVersion = s.db.version := by
      rw [newRunner_ok hnew, DB.version]
      cases s.db.metadata with
      | none => rfl
      | some m' => rfl
    have hstored : Inv db { s with
        db := { s.db with metadata := some { m with lastTargetVersion := registry.targetVersion } },
        process := none } := by
      refine ⟨?_, h.saved, fun _ hp => by cases hp⟩
      intro i hi
      exact h.applied i (hversion ▸ hi)
    simp only
    split_ifs with hpending
    · exact { hstored with }
    · refine { hstored with working := ?_ }
      intro p hp
      cases hp
      refine ⟨rfl, SchemaVersion.iter_sorted _, ?_, .inr ?_, fun _ hcur => by cases hcur⟩
      · intro j hj
        exact SchemaVersion.lt_of_has (SchemaVersion.mem_iter.mp hj)
      · intro j hj
        cases hcurrent : m.currentVersion.has j with
        | true => exact .inl rfl
        | false =>
          refine .inr (SchemaVersion.mem_iter.mpr ?_)
          rw [SchemaVersion.has_difference, hj, hcurrent]
          rfl

section

variable (h : Inv db s)
include h

theorem Inv.next (hp : s.process = some p) (hcur : p.current = none) (beforeErr : Option Err) :
    Inv db (s.next p beforeErr) := by
  fun_cases System.next s p beforeErr
  case case4 i rest htodo _ =>
    refine ⟨h.applied, h.saved, fun p' hp' => ?_⟩
    cases hp'
    obtain ⟨hmetadata, hsorted, hbits, hleft, -⟩ := h.working p hp
    rw [Process.pending, hcur, htodo] at hsorted hbits hleft
    exact ⟨hmetadata, hsorted, hbits, hleft, fun c hc => by cases hc; rfl⟩
  all_goals exact h.leave _

/-- A return is recorded: its migration may be applied by it, and the state of its migration is stored if the
attempt was interrupted. -/
theorem Inv.record {s' : System} (r : Return) (hreturned : s'.returned = s.returned ++ [r])
    (hversion : ∀ i, s'.db.version.has i = true →
      s.db.version.has i = true ∨ (r.index = i ∧ r.state = none ∧ r.err = none))
    (hself : r.interrupted = true → s'.db.intermediateState r.index = r.state)
    (hother : ∀ j ≠ r.index, s'.db.intermediateState j = s.db.intermediateState j)
    (hwork : ∀ p, s'.process = some p → Working s'.db p) : Inv db s' := by
  refine ⟨fun i hi => ?_, fun j r' hlast hint => ?_, hwork⟩
  · rw [hreturned]
    rcases hversion i hi with hi | hr
    · rcases h.applied i hi with hi | ⟨r', hr', hfields⟩
      · exact .inl hi
      · exact .inr ⟨r', mem_append_left _ hr', hfields⟩
    · exact .inr ⟨r, mem_append_right _ mem_cons_self, hr⟩
  · rw [lastReturn_append hreturned] at hlast
    split_ifs at hlast with hj
    · subst hj
      cases hlast
      exact hself hint
    · rw [hother j (Ne.symm hj)]
      exact h.saved j r' hlast hint

/-- An error that is not the context's ends the run: nothing is stored. -/
theorem Inv.failed (hint : r.interrupted = false) (outcome : Except Err Unit) :
    Inv db (System.leave { s with returned := s.returned ++ [r] } outcome) := by
  refine h.record r rfl (fun _ => .inl) (fun hr => ?_) (fun _ _ => rfl) fun _ hp => by cases hp
  rw [hint] at hr
  exact absurd hr false_ne_true

/-- A state is saved, and the runner stops or goes on as it may. -/
theorem Inv.save {bytes : Bytes} {ctx : Option CtxErr} {process : Option Process}
    (outcome : Except Err Unit) (hwork : ∀ p, process = some p → Working (s.save i bytes).db p) :
    Inv db { s.save i bytes with
      returned := s.returned ++ [⟨i, some bytes, err, ctx⟩], process := process, outcome := outcome } := by
  refine h.record ⟨i, some bytes, err, ctx⟩ rfl (fun _ => .inl) (fun _ => ?_) (fun j hj => ?_) hwork
  · exact Function.update_self i (some bytes) s.db.intermediateState
  · exact Function.update_of_ne hj (some bytes) s.db.intermediateState

/-- A migration that returned `(nil, nil)` is recorded as applied. -/
theorem Inv.apply (hw : Working s.db p) (hcur : p.current = some (i, received)) (ctx ctx' : Option CtxErr) :
    Inv db (System.apply { s with returned := s.returned ++ [⟨i, none, none, ctx⟩] }
      { p with ctx := ctx' } i) := by
  obtain ⟨hmetadata, hsorted, hbits, hleft, -⟩ := hw
  rw [Process.pending_of_current hcur] at hsorted hbits hleft
  have hi := hbits i mem_cons_self
  refine h.record ⟨i, none, none, ctx⟩ rfl (fun j hj => ?_) (fun hr => absurd hr false_ne_true)
    (fun j hj => ?_) ?_
  · rw [DB.version_of_metadata rfl, SchemaVersion.has_set _ _ _ hi, or_eq_true] at hj
    rw [DB.version_of_metadata hmetadata]
    exact hj.imp_right fun hj => ⟨of_decide_eq_true hj, rfl, rfl⟩
  · exact Function.update_of_ne hj none s.db.intermediateState
  · intro p' hp'
    cases hp'
    refine ⟨rfl, hsorted.tail, fun j hj => hbits j (mem_cons_of_mem _ hj), .inr ?_, fun _ hc => by cases hc⟩
    intro j hj
    rw [SchemaVersion.has_set _ _ _ hi, or_eq_true]
    rcases hleft.resolve_left (cons_ne_nil _ _) j hj with hdone | hmem
    · exact .inl (.inl hdone)
    · rcases mem_cons.mp hmem with rfl | hmem
      · exact .inl (.inr (decide_eq_true rfl))
      · exact .inr hmem

theorem Inv.returns (hp : s.process = some p) (hcur : p.current = some (i, received))
    {state : Option Bytes} {late : Option CtxErr} (hadmits : admitsReturn p state err late = true) :
    Inv db (s.returns p i state err late) := by
  have hw := h.working p hp
  rw [System.returns.eq_def]
  cases err with
  | none =>
    rw [Option.filter_none]
    cases state with
    | none => exact h.apply hw hcur _ _
    | some bytes =>
      cases hctx : cancelCtx p.ctx late with
      | some e => exact h.save _ fun _ hnone => by cases hnone
      | none =>
        have hnil : p.todo = [] := by
          rw [admitsReturn, hctx, Option.isSome_none, Bool.or_false, List.isEmpty_iff] at hadmits
          exact hadmits
        refine h.save _ fun p' hp' => ?_
        cases hp'
        refine ⟨hw.metadata, ?_, ?_, .inl hnil, fun _ hc => by cases hc⟩ <;> simp [Process.pending, hnil]
  | some e =>
    cases hof : e.isOf p.ctx with
    | false =>
      rw [Option.filter_some, hof, if_pos (by rfl)]
      refine h.failed ?_ _
      cases state with
      | none => rfl
      | some bytes =>
        rw [admitsReturn, hof, Bool.or_false, Bool.not_eq_true'] at hadmits
        exact hadmits
    | true =>
      rw [Option.filter_some, hof, if_neg (by decide)]
      cases state with
      | none =>
        rw [admitsReturn, hof] at hadmits
        exact absurd hadmits false_ne_true
      | some bytes =>
        cases hpctx : p.ctx with
        | none =>
          rw [hpctx] at hof
          exact absurd hof false_ne_true
        | some c => exact h.save _ fun _ hnone => by cases hnone

theorem Inv.step {e : Event} (hadmits : s.admits e = true) : Inv db (s.step e) := by
  fun_cases System.step s e
  case case1 registry ctx _ => exact h.launch registry ctx
  case case4 e p hp =>
    refine ⟨h.applied, h.saved, fun p' hp' => ?_⟩
    cases hp'
    exact { h.working p hp with }
  case case5 beforeErr p hp hcur => exact h.next hp hcur beforeErr
  case case8 state err late p hp c hcur =>
    simp only [System.admits, hp, hcur, Option.isNone_some, Bool.false_or] at hadmits
    exact h.returns hp hcur hadmits
  -- an event that cannot happen changes nothing
  all_goals exact h

theorem Inv.run {events : List Event} (hadmits : s.admitsAll events = true) : Inv db (s.run events) := by
  induction events generalizing s with
  | nil => exact h
  | cons e events ih =>
    rw [System.admitsAll, and_eq_true] at hadmits
    exact ih (h.step hadmits.1) hadmits.2

end

theorem inv_init (db : DB) : Inv db (System.init db) :=
  ⟨fun _ h => .inl h, fun _ _ h => (by cases h),
    fun _ h => by cases h⟩

/-- **A migration's bit is set only after it returned `(nil, nil)`, migrations are started in order,
and an interrupted one is resumed with the state it returned**, at every moment of every sequence of
runs whose returns meet the condition. -/
theorem runs_orderly (db : DB) (events : List Event) (h : (System.init db).admitsAll events = true) :
    Orderly db ((System.init db).run events) :=
  ((inv_init db).run h).orderly

/-- A database nothing has been applied to. -/
def freshDB : DB := ⟨none, none, fun _ => none⟩

def twoMigrations : Registry := ⟨3#64, ["", ""]⟩

example : (Registry.new.with).bind Registry.with = some twoMigrations := by decide

/-- The first migration is cancelled with a state, resumed with it and applied, and the second one starts. -/
def resumedEvents : List Event :=
  [.launch twoMigrations none, .next none, .cancel .canceled,
    .returns (some [7]) (some (.ctx .canceled)) none,
    .launch twoMigrations none, .next none, .returns none none none, .next none]

theorem runs_orderly_resumed :
    (System.init freshDB).admitsAll resumedEvents = true ∧
      Orderly freshDB ((System.init freshDB).run resumedEvents) ∧
      ((System.init freshDB).run resumedEvents).db.version = 1#64 := by
  have hadmits : (System.init freshDB).admitsAll resumedEvents = true := by decide
  exact ⟨hadmits, runs_orderly freshDB resumedEvents hadmits, by decide⟩

/-- The first migration is cancelled and gives the context's error and no state. -/
def cancelledEvents : List Event :=
  [.launch twoMigrations none, .next none, .cancel .canceled, .returns none (some (.ctx .canceled)) none]

/-- The first migration gives a state without an error, and its context is not cancelled. -/
def unfinishedEvents : List Event :=
  [.launch twoMigrations none, .next none, .returns (some []) none none, .next none]

/-- The first migration is cancelled with a state, and gives another state with `context.Canceled` while the
context of its second run is live. -/
def droppedEvents : List Event :=
  [.launch twoMigrations none, .next none, .cancel .canceled,
    .returns (some [7]) (some (.ctx .canceled)) none,
    .launch twoMigrations none, .next none, .returns (some [8]) (some (.ctx .canceled)) none,
    .launch twoMigrations none, .next none]

/-- **A cancelled migration is recorded as applied, an unfinished one is overtaken, and a state is dropped**:
in the first run the bit of migration 0 is set although it only returned `(nil, context.Canceled)`; in the
second migration 1 is started while migration 0 has not been applied; in the third `Before` gets the state
`[7]` after `[8]` was returned. -/
theorem cancelled_marked_applied :
    ¬ Orderly freshDB ((System.init freshDB).run cancelledEvents) ∧
      ¬ Orderly freshDB ((System.init freshDB).run unfinishedEvents) ∧
      ¬ Orderly freshDB ((System.init freshDB).run droppedEvents) := by
  refine ⟨fun h => ?_, fun h => ?_, fun h => ?_⟩
  · have hreturned : ((System.init freshDB).run cancelledEvents).returned =
        [⟨0, none, some (.ctx .canceled), some .canceled⟩] := by decide
    rcases h.applied 0 (by decide) with hbit | ⟨r, hr, -, -, herr⟩
    · exact absurd hbit (by decide)
    · rw [hreturned, mem_singleton] at hr
      subst hr
      cases herr
  · have hprocess : ∃ p, ((System.init freshDB).run unfinishedEvents).process = some p ∧
        p.target = 3#64 ∧ p.current = some (1, none) := ⟨_, rfl, rfl, rfl⟩
    obtain ⟨p, hp, htarget, hcur⟩ := hprocess
    have hfirst := h.inOrder p 1 none hp hcur 0 (by omega) (by rw [htarget]; decide)
    exact absurd hfirst (by decide)
  · have hprocess : ∃ p, ((System.init freshDB).run droppedEvents).process = some p ∧
        p.current = some (0, some [7]) :=
      ⟨_, rfl, rfl⟩
    obtain ⟨p, hp, hcur⟩ := hprocess
    have hlast : ((System.init freshDB).run droppedEvents).lastReturn 0 =
        some ⟨0, some [8], some (.ctx .canceled), none⟩ := by decide
    exact absurd (h.resumed p 0 (some [7]) _ hp hcur hlast (by decide)) (by decide)

end Juno.Migration
