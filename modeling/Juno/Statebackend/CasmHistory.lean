import Juno.Statebackend.Overlay

/-!
# The history of compiled class hashes

One row for each class holds its whole history: the block that declared it, the hashes of both
versions, and the block that migrated it. `Store` writes the rows, `RevertHead` takes the writes
back.

## The model

* `Chain`, `run` — blocks stored and heads reverted, in any order; a call that fails changes nothing.
* `casmChange` — what a block says of the hash of a class.
* `Lawful` — what the rows take for granted of a block: it declares no class again, it migrates classes only
  from version 0.14.1 on, and to the hash that was computed when the class was declared.

The main result is `casm_history`.
-/

namespace Juno.Statebackend

open Lib CoreState GoMap Option CasmMetadata

variable {metadata : Metadata} {n : ℕ} {α : Type}

/-! ### Reverts -/

def unmigratedRow (metadata : Metadata) (classHash : Felt) : Except StoreError CasmMetadata :=
  match metadata classHash with
  | none => .error .metadataNotFound
  | some row =>
    match row.unmigrate with
    | .error e => .error (.migrate e)
    | .ok row => .ok row

/-- `revertCasmHashMetadata`; the rows of migrated classes are read before the declared ones are deleted. -/
def revertCasmHashMetadata (metadata : Metadata) (diff : StateDiff) : Except StoreError Metadata :=
  let deleted := (diff.declaredV1Classes.mapVals fun _ _ => none).override metadata
  diff.migratedClasses.entries.foldlM (fun rows e => do
    return Function.update rows e.1 (some (← unmigratedRow metadata e.1))) deleted

structure Chain where
  blocks : List Block
  /-- `ClassCasmHashMetadataBucket`. -/
  metadata : Metadata

inductive ChainCall where
  | store (b : Block)
  | revertHead

/-- The chain after a call, as far as the rows are concerned. -/
def ChainCall.apply (s : Chain) : ChainCall → Chain
  | .store b =>
    if b.header.number ≠ s.blocks.length then s
    else
      match storeCasmHashMetadata s.metadata b with
      | .error _ => s
      | .ok metadata => ⟨s.blocks ++ [b], metadata⟩
  | .revertHead =>
    match s.blocks.getLast? with
    | none => s
    | some b =>
      match revertCasmHashMetadata s.metadata b.diff with
      | .error _ => s
      | .ok metadata => ⟨s.blocks.dropLast, metadata⟩

def Chain.empty : Chain := ⟨[], fun _ => none⟩

def run (s : Chain) (calls : List ChainCall) : Chain := calls.foldl ChainCall.apply s

/-! ### What the blocks say -/

/-- The hash that a block gives to a class: a migration after a declaration. -/
def casmChange (classHash : Felt) (b : Block) : Option Felt :=
  (b.diff.migratedClasses.lookup classHash).or (b.diff.declaredV1Classes.lookup classHash)

/-- What the rows take for granted of a block. -/
structure Lawful (bs : List Block) (b : Block) : Prop where
  fresh : ∀ classHash ∈ b.diff.declaredV1Classes, ∀ d ∈ bs, classHash ∉ d.diff.declaredV1Classes
  version : ∀ ver, b.header.protocolVersion = some ver → isV2Protocol ver = false → b.diff.migratedClasses = ∅
  hashes : ∀ classHash hash, b.diff.migratedClasses.lookup classHash = some hash → ∀ d ∈ bs,
    classHash ∈ d.diff.declaredV1Classes → ∀ bytes casmHashV2,
      d.declaredClasses.lookup classHash = some (.sierra bytes casmHashV2) →
      hash = casmHashV2

def LawfulRun (s : Chain) : List ChainCall → Prop
  | [] => True
  | c :: calls => (∀ b, c = .store b → Lawful s.blocks b) ∧ LawfulRun (c.apply s) calls

/-! ### The history in a row -/

variable {s : Chain} {classHash : Felt} {b : Block} {bs : List Block} {row : CasmMetadata}

/-- The hash that a row gives to its class at a block. -/
def changeAt (row : CasmMetadata) (n : ℕ) : Option Felt :=
  if n = row.declaredAt then some (row.casmHashV1.getD row.casmHashV2)
  else if 0 < row.migratedAt ∧ n = row.migratedAt then some row.casmHashV2
  else none

/-- The row of a class has its history on the chain. -/
structure Describes (bs : List Block) (classHash : Felt) (row : CasmMetadata) : Prop where
  declared : row.declaredAt < bs.length
  /-- It was migrated afterwards, from the hash of version 1. -/
  migrated : 0 < row.migratedAt → row.declaredAt < row.migratedAt ∧ row.migratedAt < bs.length ∧
    row.isDeclaredWithV2 = false
  changes : ∀ n b, bs[n]? = some b → casmChange classHash b = changeAt row n
  declares : ∀ n b, bs[n]? = some b → (classHash ∈ b.diff.declaredV1Classes ↔ n = row.declaredAt)
  definition : row.isDeclaredWithV2 = false → ∃ b ∈ bs, classHash ∈ b.diff.declaredV1Classes ∧
    ∃ bytes, b.declaredClasses.lookup classHash = some (.sierra bytes row.casmHashV2)

def RowInv (bs : List Block) (classHash : Felt) : Option CasmMetadata → Prop
  | none => ∀ b ∈ bs, casmChange classHash b = none
  | some row => Describes bs classHash row

theorem casmChange_eq_none :
    casmChange classHash b = none ↔ classHash ∉ b.diff.migratedClasses ∧
      classHash ∉ b.diff.declaredV1Classes := by
  rw [casmChange, or_eq_none_iff, AList.lookup_eq_none, AList.lookup_eq_none]

theorem RowInv.of_fresh {row : Option CasmMetadata} (h : RowInv bs classHash row)
    (hfresh : ∀ d ∈ bs, classHash ∉ d.diff.declaredV1Classes) : row = none := by
  cases row with
  | none => rfl
  | some row =>
    obtain ⟨b, hb⟩ : ∃ b, bs[row.declaredAt]? = some b := ⟨_, List.getElem?_eq_getElem h.declared⟩
    exact absurd ((h.declares _ b hb).mpr rfl) (hfresh b (List.mem_of_getElem? hb))

theorem getElem?_concat_cases {d : Block} (h : (bs ++ [b])[n]? = some d) :
    n < bs.length ∧ bs[n]? = some d ∨ n = bs.length ∧ d = b := by
  rw [List.getElem?_append] at h
  split_ifs at h with hn
  · exact .inl ⟨hn, h⟩
  · rw [List.getElem?_singleton] at h
    split_ifs at h with hn'
    exact .inr ⟨by omega, (some.inj h).symm⟩

theorem Describes.of_declared {casmHash : Felt} (hnone : RowInv bs classHash none)
    (hdeclared : b.diff.declaredV1Classes.lookup classHash = some casmHash)
    (hmigrated : b.diff.migratedClasses.lookup classHash = none) (hat : row.declaredAt = bs.length)
    (hnot : row.migratedAt = 0) (hhash : row.casmHashV1.getD row.casmHashV2 = casmHash)
    (hdefinition : row.isDeclaredWithV2 = false → ∃ bytes,
      b.declaredClasses.lookup classHash = some (.sierra bytes row.casmHashV2)) :
    Describes (bs ++ [b]) classHash row := by
  have hmem : classHash ∈ b.diff.declaredV1Classes := mem_of_lookup hdeclared
  refine ⟨?_, fun hpos => ?_, fun n d hd => ?_, fun n d hd => ?_, fun hv1 => ?_⟩
  · rw [hat, List.length_append, List.length_singleton]
    exact Nat.lt_succ_self _
  · omega
  · rw [changeAt, hat, hnot]
    rcases getElem?_concat_cases hd with ⟨hn, hd⟩ | ⟨rfl, rfl⟩
    · rw [if_neg hn.ne, if_neg (fun h => absurd h.1 (lt_irrefl 0)), hnone d (List.mem_of_getElem? hd)]
    · rw [if_pos rfl, casmChange, hmigrated, hdeclared, hhash]
      rfl
  · rw [hat]
    rcases getElem?_concat_cases hd with ⟨hn, hd⟩ | ⟨rfl, rfl⟩
    · exact iff_of_false (casmChange_eq_none.mp (hnone d (List.mem_of_getElem? hd))).2 hn.ne
    · exact iff_of_true hmem rfl
  · exact ⟨b, List.mem_append_right _ (List.mem_singleton_self _), hmem, hdefinition hv1⟩

theorem Describes.migrate {hash : Felt} {old : CasmMetadata} (h : Describes bs classHash old)
    (hlawful : Lawful bs b) (hmigrated : b.diff.migratedClasses.lookup classHash = some hash)
    (hv1 : old.isDeclaredWithV2 = false) (hnot : old.migratedAt = 0) :
    Describes (bs ++ [b]) classHash { old with migratedAt := bs.length } := by
  have hlen : (bs ++ [b]).length = bs.length + 1 := by rw [List.length_append, List.length_singleton]
  have hlt := h.declared
  obtain ⟨d, hd, hdeclared, bytes, hclass⟩ := h.definition hv1
  refine ⟨?_, fun _ => ⟨hlt, ?_, hv1⟩, fun n d' hd' => ?_, fun n d' hd' => ?_, fun _ => ?_⟩
  · rw [hlen]
    exact hlt.trans (Nat.lt_succ_self _)
  · rw [hlen]
    exact Nat.lt_succ_self _
  · rcases getElem?_concat_cases hd' with ⟨hn, hd'⟩ | ⟨rfl, rfl⟩
    · rw [h.changes n d' hd']
      simp only [changeAt, hnot, hn.ne, lt_irrefl, false_and, and_false, if_false]
    · rw [casmChange, hmigrated, changeAt, if_neg hlt.ne', if_pos ⟨Nat.zero_lt_of_lt hlt, rfl⟩,
        hlawful.hashes classHash hash hmigrated d hd hdeclared bytes _ hclass]
      rfl
  · rcases getElem?_concat_cases hd' with ⟨-, hd'⟩ | ⟨rfl, rfl⟩
    · exact h.declares n d' hd'
    · exact iff_of_false (fun hmem => hlawful.fresh classHash hmem d hd hdeclared) hlt.ne'
  · exact ⟨d, List.mem_append_left _ hd, hdeclared, bytes, hclass⟩

theorem Describes.keep (h : Describes bs classHash row) (hchange : casmChange classHash b = none) :
    Describes (bs ++ [b]) classHash row := by
  have hlen : (bs ++ [b]).length = bs.length + 1 := by rw [List.length_append, List.length_singleton]
  have hlt := h.declared
  refine ⟨?_, fun hpos => ?_, fun n d hd => ?_, fun n d hd => ?_, fun hv1 => ?_⟩
  · rw [hlen]
    exact hlt.trans (Nat.lt_succ_self _)
  · obtain ⟨hafter, hmigrated, hv1⟩ := h.migrated hpos
    exact ⟨hafter, hlen ▸ hmigrated.trans (Nat.lt_succ_self _), hv1⟩
  · rcases getElem?_concat_cases hd with ⟨-, hd⟩ | ⟨rfl, rfl⟩
    · exact h.changes n d hd
    · rw [hchange, changeAt, if_neg hlt.ne', if_neg (fun hm => absurd hm.2 (h.migrated hm.1).2.1.ne')]
  · rcases getElem?_concat_cases hd with ⟨-, hd⟩ | ⟨rfl, rfl⟩
    · exact h.declares n d hd
    · exact iff_of_false (casmChange_eq_none.mp hchange).2 hlt.ne'
  · obtain ⟨d, hd, hrest⟩ := h.definition hv1
    exact ⟨d, List.mem_append_left _ hd, hrest⟩

/-- **A lawful block keeps the history in the rows.** -/
theorem RowInv.step {row row' : Option CasmMetadata} (h : RowInv bs classHash row) (hlawful : Lawful bs b)
    (hnumber : b.header.number = bs.length) (hupdate : RowUpdate b classHash row row') :
    RowInv (bs ++ [b]) classHash row' := by
  have hmigratedV1 : ∀ ver, b.header.protocolVersion = some ver → isV2Protocol ver = false →
      b.diff.migratedClasses.lookup classHash = none := by
    intro ver hver hv1
    rw [hlawful.version ver hver hv1]
    rfl
  cases hupdate with
  | @migrated ver old hash hver hv2 hmigrated hrow hv1 hafter hnot =>
    subst hrow
    rw [hnumber]
    exact Describes.migrate h hlawful hmigrated hv1 hnot
  | @declaredV2 ver casmHash hver hv2 hmigrated hdeclared =>
    rw [h.of_fresh (hlawful.fresh classHash (mem_of_lookup hdeclared))] at h
    exact .of_declared h hdeclared hmigrated hnumber rfl rfl
      fun hv1 => absurd hv1 (by simp [isDeclaredWithV2, newDeclaredV2])
  | @declaredV1 ver casmHash casmHashV2 bytes hver hv1 hdeclared hclass =>
    rw [h.of_fresh (hlawful.fresh classHash (mem_of_lookup hdeclared))] at h
    exact .of_declared h hdeclared (hmigratedV1 ver hver hv1) hnumber rfl rfl fun _ => ⟨bytes, hclass⟩
  | @same ver hver hmigrated hdeclared =>
    have hchange : casmChange classHash b = none := by
      rw [casmChange, hdeclared, or_none]
      cases hp : isV2Protocol ver with
      | true => exact hmigrated hp
      | false => exact hmigratedV1 ver hver hp
    cases row with
    | none =>
      intro d hd
      rcases List.mem_append.mp hd with hd | hd
      · exact h d hd
      · rwa [List.mem_singleton.mp hd]
    | some row => exact Describes.keep h hchange

/-- The hash in effect before a block, as the row has it. -/
def hashBefore (row : CasmMetadata) : ℕ → Option Felt
  | 0 => none
  | height + 1 => row.casmHashAt height

theorem hashBefore_eq (row : CasmMetadata) (n : ℕ) : hashBefore row n =
    if n ≤ row.declaredAt then none
    else if row.isDeclaredWithV2 = true ∨ 0 < row.migratedAt ∧ row.migratedAt < n then some row.casmHashV2
    else some (row.casmHashV1.getD 0) := by
  cases n with
  | zero => rw [hashBefore, if_pos (Nat.zero_le _)]
  | succ height =>
    simp only [hashBefore, casmHashAt, isMigratedAt, Bool.or_eq_true, Bool.and_eq_true, decide_eq_true_eq,
      Nat.succ_le_iff, Nat.lt_succ_iff, gt_iff_lt]

theorem hashBefore_succ (h : Describes bs classHash row) (n : ℕ) :
    hashBefore row (n + 1) = (changeAt row n).or (hashBefore row n) := by
  have hmigrated := h.migrated
  rw [hashBefore_eq, hashBefore_eq, changeAt]
  rcases Nat.lt_trichotomy n row.declaredAt with hn | rfl | hn
  · -- before the declaration
    have hnext : n + 1 ≤ row.declaredAt := hn
    have hmig : ¬ (0 < row.migratedAt ∧ n = row.migratedAt) := fun hm => by
      have := (hmigrated hm.1).1
      omega
    rw [if_pos hnext, if_neg hn.ne, if_neg hmig, if_pos hn.le]
    rfl
  · -- the block of the declaration
    have hnext : ¬ row.declaredAt + 1 ≤ row.declaredAt := Nat.not_succ_le_self _
    rw [if_neg hnext, if_pos rfl, some_or]
    cases hv1 : row.casmHashV1 with
    | none => rw [if_pos (.inl (by rw [isDeclaredWithV2, hv1]; rfl))]; rfl
    | some casmHash =>
      rw [if_neg]
      · rfl
      · rintro (hv2 | hm)
        · rw [isDeclaredWithV2, hv1] at hv2
          exact Bool.false_ne_true hv2
        · have := (hmigrated hm.1).1
          omega
  · -- afterwards: the block of the migration, or another one
    have hnext : ¬ n + 1 ≤ row.declaredAt := by omega
    rw [if_neg hnext, if_neg hn.ne', if_neg hn.not_ge]
    by_cases hm : 0 < row.migratedAt ∧ n = row.migratedAt
    · have hafter : row.isDeclaredWithV2 = true ∨ 0 < row.migratedAt ∧ row.migratedAt < n + 1 :=
        .inr ⟨hm.1, by omega⟩
      rw [if_pos hm, if_pos hafter, some_or]
    · have hsame : (0 < row.migratedAt ∧ row.migratedAt < n + 1) ↔ 0 < row.migratedAt ∧
          row.migratedAt < n := by omega
      rw [if_neg hm, none_or]
      simp only [hsame]

/-- **The row of a class has the hash in effect after each block.** -/
theorem Describes.latest (h : Describes bs classHash row) (hn : n ≤ bs.length) :
    latest (casmChange classHash) (bs.take n) = hashBefore row n := by
  induction n with
  | zero => rfl
  | succ n ih =>
    have hlt : n < bs.length := hn
    have hget : bs[n]? = some bs[n] := List.getElem?_eq_getElem hlt
    rw [List.take_add_one, hget, toList_some, latest_concat, ih hlt.le, h.changes n _ hget, hashBefore_succ h]

/-! ### Runs -/

inductive Built : List Block → Metadata → Prop
  | nil : Built [] fun _ => none
  | snoc {bs : List Block} {metadata metadata' : Metadata} {b : Block} (h : Built bs metadata)
      (hnumber : b.header.number = bs.length) (hlawful : Lawful bs b)
      (hstore : storeCasmHashMetadata metadata b = .ok metadata') : Built (bs ++ [b]) metadata'

theorem Built.rowInv (h : Built bs metadata) (classHash : Felt) :
    RowInv bs classHash (metadata classHash) := by
  induction h with
  | nil => exact fun b hb => by cases hb
  | snoc h hnumber hlawful hstore ih =>
    exact ih.step hlawful hnumber (storeCasmHashMetadata_update hstore classHash)

/-- **A revert takes back what the store of a lawful block has written.** -/
theorem revert_store {metadata' : Metadata} (h : Built bs metadata) (hlawful : Lawful bs b)
    (hstore : storeCasmHashMetadata metadata b = .ok metadata') :
    revertCasmHashMetadata metadata' b.diff = .ok metadata := by
  have hrow := storeCasmHashMetadata_update hstore
  -- the rows of migrated classes are those of before, with the migration
  have hunmigrated : ∀ classHash hash, b.diff.migratedClasses.lookup classHash = some hash →
      ∃ old, metadata classHash = some old ∧ unmigratedRow metadata' classHash = .ok old := by
    intro classHash hash hmig
    have hupdate := hrow classHash
    generalize hrow' : metadata' classHash = row' at hupdate
    cases hupdate with
    | @migrated ver old hash' hver hv2 hmigrated hold hv1 hafter hnot =>
      refine ⟨old, hold, ?_⟩
      have hpos : 0 < b.header.number := Nat.zero_lt_of_lt hafter
      rw [unmigratedRow, hrow']
      simp only [unmigrate, isMigrated, gt_iff_lt, hpos, decide_true, Bool.not_true, Bool.false_eq_true,
        if_false]
      cases old
      simp only at hnot
      rw [hnot]
    | @declaredV2 ver casmHash hver hv2 hmigrated hdeclared => simp [hmigrated] at hmig
    | @declaredV1 ver casmHash casmHashV2 bytes hver hv1 hdeclared hclass =>
      rw [hlawful.version ver hver hv1] at hmig
      cases hmig
    | @same ver hver hmigrated hdeclared =>
      cases hp : isV2Protocol ver with
      | true => simp [hmigrated hp] at hmig
      | false =>
        rw [hlawful.version ver hver hp] at hmig
        cases hmig
  rw [revertCasmHashMetadata]
  refine (foldlM_rows_iff (g := fun classHash _ => unmigratedRow metadata' classHash)).mpr
    ⟨fun classHash hash hmig => ?_, ?_⟩
  · obtain ⟨old, -, hok⟩ := hunmigrated classHash hash hmig
    exact ⟨old, hok⟩
  · funext classHash
    rw [override, lookup_mapVals, override, lookup_mapVals]
    cases hmig : b.diff.migratedClasses.lookup classHash with
    | some hash =>
      obtain ⟨old, hold, hok⟩ := hunmigrated classHash hash hmig
      rw [map_some, hok, hold]
      rfl
    | none =>
      cases hdecl : b.diff.declaredV1Classes.lookup classHash with
      | some casmHash => exact (h.rowInv classHash).of_fresh (hlawful.fresh classHash (mem_of_lookup hdecl))
      | none =>
        have hupdate := hrow classHash
        generalize hrow' : metadata' classHash = row' at hupdate ⊢
        cases hupdate with
        | migrated hver hv2 hmigrated => simp [hmigrated] at hmig
        | declaredV2 _ _ _ hdeclared | declaredV1 _ _ hdeclared => simp [hdeclared] at hdecl
        | same => rfl

theorem Built.revert (h : Built bs metadata) :
    bs = [] ∨ ∃ bs' b metadata', bs = bs' ++ [b] ∧ Built bs' metadata' ∧
      revertCasmHashMetadata metadata b.diff = .ok metadata' := by
  cases h with
  | nil => exact .inl rfl
  | @snoc bs' metadata' _ b h hnumber hlawful hstore =>
    exact .inr ⟨bs', b, metadata', rfl, h, revert_store h hlawful hstore⟩

/-- What a run keeps: the rows are those of the blocks of the chain. -/
theorem Built.apply (h : Built s.blocks s.metadata) {c : ChainCall}
    (hlawful : ∀ b, c = .store b → Lawful s.blocks b) : Built (c.apply s).blocks (c.apply s).metadata := by
  cases c with
  | store b =>
    rw [ChainCall.apply]
    split_ifs with hnumber
    · exact h
    · cases hstore : storeCasmHashMetadata s.metadata b with
      | error e => exact h
      | ok metadata => exact h.snoc (not_not.mp hnumber) (hlawful b rfl) hstore
  | revertHead =>
    rw [ChainCall.apply]
    rcases h.revert with hnil | ⟨bs', b, metadata', hbs, hbuilt, hrevert⟩
    · have hnone : s.blocks.getLast? = none := by rw [hnil]; rfl
      simp only [hnone]
      exact h
    · simp only [hbs, List.getLast?_concat, hrevert, List.dropLast_concat]
      exact hbuilt

theorem Built.run (h : Built s.blocks s.metadata) {calls : List ChainCall}
    (hlawful : LawfulRun s calls) : Built (run s calls).blocks (run s calls).metadata := by
  induction calls generalizing s with
  | nil => exact h
  | cons c calls ih => exact ih (h.apply hlawful.1) hlawful.2

def casmHashAt (metadata : Metadata) (classHash : Felt) (height : ℕ) : Option Felt :=
  (metadata classHash).bind fun row => row.casmHashAt height

theorem mem_take_iff_getElem? {l : List α} {a : α} : a ∈ l.take n ↔ ∃ i < n, l[i]? = some a := by
  rw [List.mem_iff_getElem?]
  constructor
  · rintro ⟨i, hi⟩
    rw [List.getElem?_take] at hi
    split_ifs at hi with hlt
    exact ⟨i, hlt, hi⟩
  · rintro ⟨i, hlt, hi⟩
    exact ⟨i, by rw [List.getElem?_take, if_pos hlt, hi]⟩

theorem latest_eq_none {f : Block → Option α} (h : ∀ b ∈ bs, f b = none) : latest f bs = none :=
  (latest_eq_none_iff_findSome? f bs).mpr (List.findSome?_eq_none_iff.mpr h)

/-- **The history of compiled class hashes.** After any stores of lawful blocks and any reverts, the rows give
for every class and every height of the chain the hash that the last block up to the height gave to the class,
and nothing exactly if none declared it. -/
theorem casm_history (calls : List ChainCall) (hlawful : LawfulRun Chain.empty calls) (classHash : Felt)
    (height : ℕ) (hheight : height < (run Chain.empty calls).blocks.length) :
    casmHashAt (run Chain.empty calls).metadata classHash height =
        latest (casmChange classHash) ((run Chain.empty calls).blocks.take (height + 1)) ∧
      (casmHashAt (run Chain.empty calls).metadata classHash height = none ↔
        ∀ b ∈ (run Chain.empty calls).blocks.take (height + 1), classHash ∉ b.diff.declaredV1Classes) := by
  have hinv := (Built.nil.run (s := Chain.empty) hlawful).rowInv classHash
  generalize run Chain.empty calls = s at *
  rw [casmHashAt]
  cases hrow : s.metadata classHash with
  | none =>
    rw [hrow] at hinv
    have hnone : ∀ b ∈ s.blocks.take (height + 1), casmChange classHash b = none :=
      fun b hb => hinv b (List.mem_of_mem_take hb)
    refine ⟨(latest_eq_none hnone).symm, iff_of_true rfl fun b hb => ?_⟩
    exact (casmChange_eq_none.mp (hnone b hb)).2
  | some row =>
    rw [hrow] at hinv
    refine ⟨(Describes.latest hinv hheight).symm, ?_⟩
    have hnone : row.casmHashAt height = none ↔ height < row.declaredAt := by
      rw [CasmMetadata.casmHashAt]
      split_ifs <;> simp_all
    rw [bind_some, hnone]
    constructor
    · intro hlt b hb hmem
      obtain ⟨n, hn, hget⟩ := mem_take_iff_getElem?.mp hb
      have := (hinv.declares n b hget).mp hmem
      omega
    · intro hall
      by_contra hle
      have hget : s.blocks[row.declaredAt]? = some s.blocks[row.declaredAt] :=
        List.getElem?_eq_getElem hinv.declared
      exact hall _ (mem_take_iff_getElem?.mpr ⟨row.declaredAt, by omega, hget⟩)
        ((hinv.declares _ _ hget).mpr rfl)

/-! ### A migration -/

/-- A block of version 0.13.0 that declares the class `1` with the hash `10`; the hash of version 2 of the
definition is `20`. -/
def declaringBlock : Block where
  header := ⟨0, some ⟨0, 13, 0⟩⟩
  update := ⟨0, 0, { StateDiff.empty with declaredV1Classes := AList.singleton 1 10 }⟩
  declaredClasses := AList.singleton 1 (.sierra [] 20)

/-- The next block, of version 0.14.1, which migrates the class. -/
def migratingBlock (hash : Felt) : Block where
  header := ⟨1, some ⟨0, 14, 1⟩⟩
  update := ⟨0, 0, { StateDiff.empty with migratedClasses := AList.singleton 1 hash }⟩
  declaredClasses := ∅

theorem lawful_declaring : Lawful [] declaringBlock where
  fresh _ _ _ hd := by cases hd
  version _ _ _ := rfl
  hashes _ _ _ _ hd := by cases hd

theorem lawful_migrating : Lawful [declaringBlock] (migratingBlock 20) where
  fresh classHash hmem := absurd hmem (AList.notMem_empty _)
  version ver hver hv1 := by
    obtain rfl := some.inj hver
    exact absurd hv1 (by decide)
  hashes classHash hash hmigrated d hd _ bytes casmHashV2 hclass := by
    obtain rfl := List.mem_singleton.mp hd
    simp only [migratingBlock, declaringBlock, lookup_singleton] at hmigrated hclass
    split_ifs at hmigrated with hone
    rw [if_pos hone] at hclass
    injection hclass with hclass
    injection hclass with _ hhash
    exact (some.inj hmigrated).symm.trans hhash

/-- The class declared and migrated. -/
theorem casm_history_migrated :
    casmHashAt (run Chain.empty [.store declaringBlock, .store (migratingBlock 20)]).metadata 1 1 =
      latest (casmChange 1)
        ((run Chain.empty [.store declaringBlock, .store (migratingBlock 20)]).blocks.take 2) :=
  (casm_history [.store declaringBlock, .store (migratingBlock 20)]
    ⟨fun b hb =>
      by cases hb; exact lawful_declaring, fun b hb => by cases hb; exact lawful_migrating, trivial⟩ 1 1
      (by decide)).1

/-- **The hash of a migration is not looked at.** The class is migrated to `21`, and the row gives the hash
that was computed when it was declared. -/
theorem migrated_hash_ignored : ∃ (calls : List ChainCall) (classHash : Felt) (height : ℕ),
    height < (run Chain.empty calls).blocks.length ∧
      casmHashAt (run Chain.empty calls).metadata classHash height = some 20 ∧
      latest (casmChange classHash) ((run Chain.empty calls).blocks.take (height + 1)) = some 21 :=
  ⟨[.store declaringBlock, .store (migratingBlock 21)], 1, 1, by decide, by decide, by decide⟩

end Juno.Statebackend
