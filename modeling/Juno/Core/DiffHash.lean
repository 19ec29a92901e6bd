import Juno.Core.StateUpdate
import Juno.Lib.SelfDelimiting
import Mathlib

/-!
# What the hash of a state diff binds

`StateDiff.Hash` and `StateDiff.Commitment` feed a diff to Poseidon section by section: every
section is a count and then the entries of one or two maps, sorted by key.

## The model

* `updatedContractsDigest`, `declaredClassesDigest`, `deprecatedDeclaredClassesDigest`, `storageDiffDigest`,
  `noncesDigest` — the elements that a section gives to the digest, in order. The order of the entries of a
  map is the order of an iteration over it; `slices.SortFunc` is the sorted list.
* `StateDiff.nestedSequences`, `StateDiff.commitmentSequence` — the elements of the four inner digests of
  `Commitment`, and of the outer one, for any function in the place of Poseidon.

`deprecatedDeclaredClassesDigest` also leaves the caller's list sorted, which no reader of a diff sees.
-/

namespace Juno

open Lib AList Option

variable {k : Felt} {l l' keys' keys : List Felt}

/-! ### Sections -/

def feltFromUint64 (n : ℕ) : Felt := Fin.ofNat P (n % 2 ^ 64)

/-- `slices.SortFunc` with `Felt.Cmp`. -/
def sortFelts (l : List Felt) : List Felt := l.insertionSort (· ≤ ·)

def sortedFeltKeys {V : Type} (m : GoMap Felt V) : List Felt := sortFelts m.keys

def updatedContractsDigest (deployedContracts replacedClasses : GoMap Felt Felt) : List Felt :=
  let updatedContracts := ((∅ : GoMap Felt Felt).copyFrom deployedContracts).copyFrom replacedClasses
  feltFromUint64 (deployedContracts.entries.length + replacedClasses.entries.length) ::
    (sortedFeltKeys updatedContracts).flatMap fun hash => [hash, (updatedContracts.lookup hash).getD 0]

def declaredClassesDigest (declaredClasses migratedClasses : GoMap Felt Felt) : List Felt :=
  feltFromUint64 (declaredClasses.entries.length + migratedClasses.entries.length) ::
    (sortFelts (declaredClasses.keys ++ migratedClasses.keys)).flatMap fun classHash =>
      [classHash, ((declaredClasses.lookup classHash).or (migratedClasses.lookup classHash)).getD 0]

def deprecatedDeclaredClassesDigest (declaredV0Classes : List Felt) : List Felt :=
  feltFromUint64 declaredV0Classes.length :: sortFelts declaredV0Classes

def storageDiffDigest (storageDiffs : GoMap Felt (GoMap Felt Felt)) : List Felt :=
  feltFromUint64 storageDiffs.entries.length :: (sortedFeltKeys storageDiffs).flatMap fun addr =>
    let diffs := (storageDiffs.lookup addr).getD ∅
    let sortedDiffKeys := sortedFeltKeys diffs
    addr :: feltFromUint64 sortedDiffKeys.length :: sortedDiffKeys.flatMap
      fun k => [k, (diffs.lookup k).getD 0]

def noncesDigest (nonces : GoMap Felt Felt) : List Felt :=
  feltFromUint64 nonces.entries.length :: (sortedFeltKeys nonces).flatMap
    fun addr => [addr, (nonces.lookup addr).getD 0]

/-- The bytes of `STARKNET_STATE_DIFF0`. -/
def stateDiffVersionBytes : List UInt8 :=
  [83, 84, 65, 82, 75, 78, 69, 84, 95, 83, 84, 65, 84, 69, 95, 68, 73, 70, 70, 48]

def starknetStateDiff0 : Felt := feltFromBytes stateDiffVersionBytes

namespace StateDiff

/-- The elements that `Hash` gives to the digest. -/
def hashSequence (d : StateDiff) : List Felt :=
  starknetStateDiff0 :: (updatedContractsDigest d.deployedContracts d.replacedClasses ++
    (declaredClassesDigest d.declaredV1Classes d.migratedClasses ++
      (deprecatedDeclaredClassesDigest d.declaredV0Classes ++
        ([1, 0] ++ (storageDiffDigest d.storageDiffs ++ noncesDigest d.nonces)))))

/-- The elements that `Commitment` gives to its inner digests: updated contracts, declared classes, old
declared classes and the storage domain. -/
def nestedSequences (d : StateDiff) : List (List Felt) :=
  [updatedContractsDigest d.deployedContracts d.replacedClasses,
    declaredClassesDigest d.declaredV1Classes d.migratedClasses,
    deprecatedDeclaredClassesDigest d.declaredV0Classes,
    storageDiffDigest d.storageDiffs ++ noncesDigest d.nonces]

/-- The elements that `Commitment` gives to the outer digest: the version, the hashes of the first three
sequences, the number of storage domains, and each domain with its index. -/
def commitmentSequence (poseidon : List Felt → Felt) (d : StateDiff) : List Felt :=
  [0, poseidon (updatedContractsDigest d.deployedContracts d.replacedClasses),
    poseidon (declaredClassesDigest d.declaredV1Classes d.migratedClasses),
    poseidon (deprecatedDeclaredClassesDigest d.declaredV0Classes),
    feltFromUint64 1, feltFromUint64 0, poseidon (storageDiffDigest d.storageDiffs ++ noncesDigest d.nonces)]

/-- What the sequencer guarantees, and what holds of every `len` in memory. -/
structure Sequenced (d : StateDiff) : Prop where
  contracts : ∀ addr ∈ d.deployedContracts, addr ∉ d.replacedClasses
  classes : ∀ hash ∈ d.declaredV1Classes, hash ∉ d.migratedClasses
  /-- The sum of two lengths is a number of 64 bits. -/
  contracts_length : d.deployedContracts.entries.length + d.replacedClasses.entries.length < 2 ^ 64
  /-- The sum of two lengths is a number of 64 bits. -/
  classes_length : d.declaredV1Classes.entries.length + d.migratedClasses.entries.length < 2 ^ 64
  deprecated_length : d.declaredV0Classes.length < 2 ^ 64
  storage_length : d.storageDiffs.entries.length < 2 ^ 64
  slots_length : ∀ addr diffs, d.storageDiffs.lookup addr = some diffs → diffs.entries.length < 2 ^ 64
  nonces_length : d.nonces.entries.length < 2 ^ 64

/-- The same diff, with its maps iterated in another order and the deprecated classes in another order. -/
structure Reordered (d d' : StateDiff) : Prop where
  storage : ∀ addr, (d.storageDiffs.lookup addr).map (fun m k => m.lookup k) =
    (d'.storageDiffs.lookup addr).map fun m k => m.lookup k
  nonces : ∀ addr, d.nonces.lookup addr = d'.nonces.lookup addr
  deployed : ∀ addr, d.deployedContracts.lookup addr = d'.deployedContracts.lookup addr
  deprecated : d.declaredV0Classes.Perm d'.declaredV0Classes
  declared : ∀ hash, d.declaredV1Classes.lookup hash = d'.declaredV1Classes.lookup hash
  replaced : ∀ addr, d.replacedClasses.lookup addr = d'.replacedClasses.lookup addr
  migrated : ∀ hash, d.migratedClasses.lookup hash = d'.migratedClasses.lookup hash

/-- What two diffs with the same sequence agree on. -/
structure SameContent (d d' : StateDiff) : Prop where
  storage : ∀ addr key, d.slot addr key = d'.slot addr key
  nonces : ∀ addr, d.nonces.lookup addr = d'.nonces.lookup addr
  deprecated : d.declaredV0Classes.Perm d'.declaredV0Classes
  /-- The same classes declared or migrated, with the same compiled class hashes. -/
  classes : ∀ hash compiled,
    (d.declaredV1Classes.lookup hash = some compiled ∨ d.migratedClasses.lookup hash = some compiled) ↔
      (d'.declaredV1Classes.lookup hash = some compiled ∨ d'.migratedClasses.lookup hash = some compiled)
  /-- The same contracts deployed or replaced, with the same class hashes. -/
  contracts : ∀ addr classHash,
    (d.deployedContracts.lookup addr = some classHash ∨ d.replacedClasses.lookup addr = some classHash) ↔
      (d'.deployedContracts.lookup addr = some classHash ∨ d'.replacedClasses.lookup addr = some classHash)

end StateDiff

/-! ### Sorted keys -/

variable {V : Type}

theorem sortFelts_perm (h : l.Perm l') : sortFelts l = sortFelts l' := by
  refine List.Perm.eq_of_pairwise' (r := (· ≤ ·)) ?_ ?_ ?_
  · exact List.pairwise_insertionSort _ l
  · exact List.pairwise_insertionSort _ l'
  · exact (List.perm_insertionSort _ l).trans (h.trans (List.perm_insertionSort _ l').symm)

theorem perm_of_sortFelts (h : sortFelts l = sortFelts l') : l.Perm l' := by
  have hl : (sortFelts l).Perm l := List.perm_insertionSort _ l
  have hl' : (sortFelts l').Perm l' := List.perm_insertionSort _ l'
  rw [h] at hl
  exact hl.symm.trans hl'

@[simp] theorem length_sortFelts (l : List Felt) : (sortFelts l).length = l.length :=
  List.length_insertionSort _ l

@[simp] theorem mem_sortFelts : k ∈ sortFelts l ↔ k ∈ l := List.mem_insertionSort _

/-- The keys in order, each with what a function gives for it. -/
def sortedEntries (zero : V) (keys : List Felt) (g : Felt → Option V) : List (Felt × V) :=
  (sortFelts keys).map fun k => (k, (g k).getD zero)

/-- The sorted entries determine the function, if the keys are those it has a value for. -/
theorem sortedEntries_inj {zero : V} {g g' : Felt → Option V} (hkeys : ∀ k, k ∈ keys ↔ (g k).isSome)
    (hkeys' : ∀ k, k ∈ keys' ↔ (g' k).isSome)
    (h : sortedEntries zero keys g = sortedEntries zero keys' g') (k : Felt) : g k = g' k := by
  have hsorted : sortFelts keys = sortFelts keys' := by
    have hfst := congrArg (List.map Prod.fst) h
    simpa only [sortedEntries, List.map_map, Function.comp_def, List.map_id'] using hfst
  have hmem : k ∈ keys ↔ k ∈ keys' := (perm_of_sortFelts hsorted).mem_iff
  by_cases hk : k ∈ keys
  · rw [sortedEntries, sortedEntries, hsorted, List.map_inj_left] at h
    have hval : (g k).getD zero = (g' k).getD zero :=
      (Prod.ext_iff.mp (h k (mem_sortFelts.mpr (hmem.mp hk)))).2
    obtain ⟨v, hv⟩ := isSome_iff_exists.mp ((hkeys k).mp hk)
    obtain ⟨v', hv'⟩ := isSome_iff_exists.mp ((hkeys' k).mp (hmem.mp hk))
    rw [hv, hv', getD_some, getD_some] at hval
    rw [hv, hv', hval]
  · have hnone : g k = none := by
      rw [← not_isSome_iff_eq_none, ← hkeys]
      exact hk
    have hnone' : g' k = none := by
      rw [← not_isSome_iff_eq_none, ← hkeys', ← hmem]
      exact hk
    rw [hnone, hnone']

theorem sortedEntries_congr {zero : V} {g g' : Felt → Option V} (hkeys : keys.Perm keys')
    (h : ∀ k, g k = g' k) : sortedEntries zero keys g = sortedEntries zero keys' g' := by
  rw [sortedEntries, sortedEntries, sortFelts_perm hkeys, funext h]

theorem mem_keys_iff {m : GoMap Felt V} : k ∈ m.keys ↔ (m.lookup k).isSome := by
  rw [lookup_isSome, mem_keys]

theorem length_keys (m : GoMap Felt V) : m.keys.length = m.entries.length := List.length_map _

theorem keys_perm {m m' : GoMap Felt V} (h : ∀ k, (m.lookup k).isSome = (m'.lookup k).isSome) :
    m.keys.Perm m'.keys := by
  refine (List.perm_ext_iff_of_nodup m.nodupKeys m'.nodupKeys).mpr fun k => ?_
  have hk : k ∈ m.keys ↔ k ∈ m'.keys := by rw [mem_keys_iff, mem_keys_iff, h k]
  exact hk

/-! ### The sections as codes -/

theorem feltFromUint64_injOn : Set.InjOn feltFromUint64 {n | n < 2 ^ 64} := by
  intro n hn m hm h
  have hlt : ∀ x : ℕ, x < 2 ^ 64 → x % 2 ^ 64 % P = x := by
    intro x hx
    rw [Nat.mod_eq_of_lt hx, Nat.mod_eq_of_lt (hx.trans (by decide))]
  have hval := congrArg Fin.val h
  rw [feltFromUint64, feltFromUint64, Fin.val_ofNat, Fin.val_ofNat, hlt n hn, hlt m hm] at hval
  exact hval

/-- A section of keys and values: their number, then each key with its value. -/
def pairsSection (l : List (Felt × Felt)) : List Felt :=
  feltFromUint64 l.length :: l.flatMap fun p => [p.1, p.2]

/-- The section of the storage writes: the number of contracts, then each one with its own section. -/
def storageSection (l : List (Felt × List (Felt × Felt))) : List Felt :=
  feltFromUint64 l.length :: l.flatMap fun e => e.1 :: pairsSection e.2

theorem pairsSection_selfDelimiting : SelfDelimiting {l | l.length < 2 ^ 64} pairsSection := by
  have hpair : SelfDelimiting Set.univ fun p : Felt × Felt => [p.1, p.2] := by
    intro p q s t _ _ h
    simp only [List.cons_append, List.nil_append, List.cons.injEq] at h
    exact ⟨Prod.ext h.1 h.2.1, h.2.2⟩
  intro l l' s t hl hl' h
  exact hpair.counted feltFromUint64_injOn l l' s t ⟨hl, fun _ _ => trivial⟩ ⟨hl', fun _ _ => trivial⟩ h

theorem storageSection_selfDelimiting :
    SelfDelimiting {l | l.length < 2 ^ 64 ∧ ∀ e ∈ l, e.2.length < 2 ^ 64} storageSection := by
  have hentry : SelfDelimiting {e : Felt × List (Felt × Felt) | e.2.length < 2 ^ 64}
      fun e => e.1 :: pairsSection e.2 := by
    intro p q s t hp hq h
    rw [List.cons_append, List.cons_append, List.cons.injEq] at h
    obtain ⟨h₂, hst⟩ := pairsSection_selfDelimiting p.2 q.2 s t hp hq h.2
    exact ⟨Prod.ext h.1 h₂, hst⟩
  exact hentry.counted feltFromUint64_injOn

theorem deprecatedDeclaredClassesDigest_inj {s t : List Felt} (hl : l.length < 2 ^ 64)
    (hl' : l'.length < 2 ^ 64)
    (h : deprecatedDeclaredClassesDigest l ++ s = deprecatedDeclaredClassesDigest l' ++ t) :
    l.Perm l' ∧ s = t := by
  rw [deprecatedDeclaredClassesDigest, deprecatedDeclaredClassesDigest, List.cons_append, List.cons_append,
    List.cons.injEq] at h
  have hlen : l.length = l'.length := feltFromUint64_injOn hl hl' h.1
  obtain ⟨hsorted, hst⟩ := List.append_inj h.2 (by simp [hlen])
  exact ⟨perm_of_sortFelts hsorted, hst⟩

/-! ### What the sections hold -/

/-- What a pair of maps gives to a key: the first map comes first, as the replaced classes and the declared
ones do. -/
def eitherClass (a b : GoMap Felt Felt) (k : Felt) : Option Felt := (a.lookup k).or (b.lookup k)

def mapEntries (m : GoMap Felt Felt) : List (Felt × Felt) := sortedEntries 0 m.keys fun k => m.lookup k

variable (m : GoMap Felt (GoMap Felt Felt))

/-- The sorted entries of the storage writes, with their own sorted. -/
def storageEntries : List (Felt × List (Felt × Felt)) :=
  sortedEntries [] m.keys fun addr => (m.lookup addr).map mapEntries

theorem flatMap_sortedEntries (keys : List Felt) (g : Felt → Option Felt) :
    (sortedEntries 0 keys g).flatMap (fun p => [p.1, p.2]) = (sortFelts keys).flatMap
      fun k => [k, (g k).getD 0] := by
  rw [sortedEntries, List.flatMap_map]

theorem length_sortedEntries (zero : V) (keys : List Felt) (g : Felt → Option V) :
    (sortedEntries zero keys g).length = keys.length := by
  rw [sortedEntries, List.length_map, length_sortFelts]

theorem mem_keys_append {a b : GoMap Felt Felt} : k ∈ a.keys ++ b.keys ↔ (eitherClass a b k).isSome := by
  rw [List.mem_append, mem_keys_iff, mem_keys_iff, eitherClass, isSome_or, Bool.or_eq_true]

theorem lookup_updated (deployed replaced : GoMap Felt Felt) (k : Felt) :
    (((∅ : GoMap Felt Felt).copyFrom deployed).copyFrom replaced).lookup k =
      eitherClass replaced deployed k := by
  rw [GoMap.lookup_copyFrom, GoMap.lookup_copyFrom, lookup_empty, or_none, eitherClass]

theorem updatedContractsDigest_eq {deployed replaced : GoMap Felt Felt} (h : ∀ k ∈ deployed, k ∉ replaced) :
    updatedContractsDigest deployed replaced =
      pairsSection (sortedEntries 0 (replaced.keys ++ deployed.keys) (eitherClass replaced deployed)) := by
  have hkeys :
      (((∅ : GoMap Felt Felt).copyFrom deployed).copyFrom replaced).keys.Perm
      (replaced.keys ++ deployed.keys) := by
    refine (List.perm_ext_iff_of_nodup (nodupKeys _) ?_).mpr fun k => ?_
    · exact List.Nodup.append replaced.nodupKeys deployed.nodupKeys fun k hk hk' => h k hk' hk
    · rw [mem_keys_append, ← lookup_updated]
      exact mem_keys_iff
  simp only [updatedContractsDigest, pairsSection, flatMap_sortedEntries, length_sortedEntries,
    List.length_append,
    length_keys, sortedFeltKeys, sortFelts_perm hkeys, lookup_updated]
  rw [Nat.add_comm]

theorem declaredClassesDigest_eq (declared migrated : GoMap Felt Felt) :
    declaredClassesDigest declared migrated =
    pairsSection (sortedEntries 0 (declared.keys ++ migrated.keys) (eitherClass declared migrated)) := by
  rw [declaredClassesDigest, pairsSection, flatMap_sortedEntries, length_sortedEntries,
    List.length_append, length_keys,
    length_keys]
  rfl

theorem noncesDigest_eq (nonces : GoMap Felt Felt) :
    noncesDigest nonces = pairsSection (mapEntries nonces) := by
  rw [noncesDigest, pairsSection, mapEntries, flatMap_sortedEntries, length_sortedEntries, length_keys]
  rfl

theorem storageDiffDigest_eq : storageDiffDigest m = storageSection (storageEntries m) := by
  rw [storageDiffDigest, storageSection, storageEntries, length_sortedEntries, length_keys, sortedEntries,
    List.flatMap_map]
  refine congrArg _ (List.flatMap_congr fun addr haddr => ?_)
  obtain ⟨diffs, hdiffs⟩ := isSome_iff_exists.mp (mem_keys_iff.mp (mem_sortFelts.mp haddr))
  simp only [hdiffs, map_some, getD_some, pairsSection, mapEntries, flatMap_sortedEntries,
    length_sortedEntries, sortedFeltKeys, length_sortFelts]

/-! ### Sections that are equal -/

variable {a b a' b' : GoMap Felt Felt} {s t : List Felt}

/-- Sections with the same beginning hold the same entries. -/
theorem pairsSection_inj {g g' : Felt → Option Felt} (hkeys : ∀ k, k ∈ keys ↔ (g k).isSome)
    (hkeys' : ∀ k, k ∈ keys' ↔ (g' k).isSome) (hlen : keys.length < 2 ^ 64) (hlen' : keys'.length < 2 ^ 64)
    (heq : pairsSection (sortedEntries 0 keys g) ++ s = pairsSection (sortedEntries 0 keys' g') ++ t) :
    (∀ k, g k = g' k) ∧ s = t := by
  rw [← length_sortedEntries 0 _ g] at hlen
  rw [← length_sortedEntries 0 _ g'] at hlen'
  obtain ⟨hentries, hst⟩ := pairsSection_selfDelimiting _ _ s t hlen hlen' heq
  exact ⟨sortedEntries_inj hkeys hkeys' hentries, hst⟩

/-- Two maps without a common key have an entry when either does. -/
theorem or_eq_some_iff (h : ∀ k ∈ a, k ∉ b) (k v : Felt) :
    (a.lookup k = some v ∨ b.lookup k = some v) ↔ eitherClass a b k = some v := by
  rw [eitherClass]
  cases ha : a.lookup k with
  | none => simp
  | some w =>
    have hb : b.lookup k = none := lookup_eq_none.mpr (h k (GoMap.mem_of_lookup ha))
    simp [hb]

theorem declaredClassesDigest_inj (h : ∀ k ∈ a, k ∉ b) (h' : ∀ k ∈ a', k ∉ b')
    (hlen : a.entries.length + b.entries.length < 2 ^ 64)
    (hlen' : a'.entries.length + b'.entries.length < 2 ^ 64)
    (heq : declaredClassesDigest a b ++ s = declaredClassesDigest a' b' ++ t) :
    (∀ k v, (a.lookup k = some v ∨ b.lookup k = some v) ↔ (a'.lookup k = some v ∨ b'.lookup k = some v)) ∧
      s = t := by
  rw [declaredClassesDigest_eq, declaredClassesDigest_eq] at heq
  rw [← length_keys, ← length_keys, ← List.length_append] at hlen hlen'
  obtain ⟨hclass, hst⟩ :=
    pairsSection_inj (fun _ => mem_keys_append) (fun _ => mem_keys_append) hlen hlen' heq
  refine ⟨fun k v => ?_, hst⟩
  rw [or_eq_some_iff h, or_eq_some_iff h', hclass]

theorem updatedContractsDigest_inj (h : ∀ k ∈ a, k ∉ b) (h' : ∀ k ∈ a', k ∉ b')
    (hlen : a.entries.length + b.entries.length < 2 ^ 64)
    (hlen' : a'.entries.length + b'.entries.length < 2 ^ 64)
    (heq : updatedContractsDigest a b ++ s = updatedContractsDigest a' b' ++ t) :
    (∀ k v, (a.lookup k = some v ∨ b.lookup k = some v) ↔ (a'.lookup k = some v ∨ b'.lookup k = some v)) ∧
      s = t := by
  rw [updatedContractsDigest_eq h, updatedContractsDigest_eq h', ← declaredClassesDigest_eq,
    ← declaredClassesDigest_eq] at heq
  obtain ⟨hclass, hst⟩ := declaredClassesDigest_inj (fun k hb ha => h k ha hb) (fun k hb ha => h' k ha hb)
    (by omega) (by omega) heq
  exact ⟨fun k v => by rw [or_comm, hclass, or_comm], hst⟩

theorem mapEntries_iff {m m' : GoMap Felt Felt} :
    mapEntries m = mapEntries m' ↔ ∀ k, m.lookup k = m'.lookup k :=
  ⟨sortedEntries_inj (fun _ => mem_keys_iff) (fun _ => mem_keys_iff),
    fun h => sortedEntries_congr (keys_perm fun k => by rw [h k]) h⟩

theorem map_mapEntries_iff {o o' : Option (GoMap Felt Felt)} : o.map mapEntries = o'.map mapEntries ↔
    o.map (fun m k => m.lookup k) = o'.map fun m k => m.lookup k := by
  cases o <;> cases o' <;> simp [mapEntries_iff, funext_iff]

theorem noncesDigest_inj {m m' : GoMap Felt Felt} (hlen : m.entries.length < 2 ^ 64)
    (hlen' : m'.entries.length < 2 ^ 64) (heq : noncesDigest m ++ s = noncesDigest m' ++ t) :
    (∀ k, m.lookup k = m'.lookup k) ∧ s = t := by
  rw [noncesDigest_eq, noncesDigest_eq] at heq
  rw [← length_keys] at hlen hlen'
  exact pairsSection_inj (fun _ => mem_keys_iff) (fun _ => mem_keys_iff) hlen hlen' heq

/-- The entries of the storage writes of a diff have lengths of 64 bits. -/
theorem storageEntries_mem {m : GoMap Felt (GoMap Felt Felt)} (hlen : m.entries.length < 2 ^ 64)
    (hslots : ∀ addr diffs, m.lookup addr = some diffs → diffs.entries.length < 2 ^ 64) :
    storageEntries m ∈ {l : List (Felt × List (Felt × Felt)) | l.length < 2 ^ 64 ∧ ∀ e ∈ l,
      e.2.length < 2 ^ 64} := by
  refine ⟨?_, fun e he => ?_⟩
  · rw [storageEntries, length_sortedEntries, length_keys]
    exact hlen
  · obtain ⟨addr, haddr, rfl⟩ := List.mem_map.mp he
    obtain ⟨diffs, hdiffs⟩ := isSome_iff_exists.mp (mem_keys_iff.mp (mem_sortFelts.mp haddr))
    simp only [hdiffs, map_some, getD_some, mapEntries, length_sortedEntries, length_keys]
    exact hslots addr diffs hdiffs

theorem storageDiffDigest_inj {m m' : GoMap Felt (GoMap Felt Felt)} (hlen : m.entries.length < 2 ^ 64)
    (hlen' : m'.entries.length < 2 ^ 64)
    (hslots : ∀ addr diffs, m.lookup addr = some diffs → diffs.entries.length < 2 ^ 64)
    (hslots' : ∀ addr diffs, m'.lookup addr = some diffs → diffs.entries.length < 2 ^ 64)
    (heq : storageDiffDigest m ++ s = storageDiffDigest m' ++ t) :
    (∀ addr key, (m.lookup addr).bind (·.lookup key) = (m'.lookup addr).bind (·.lookup key)) ∧ s = t := by
  rw [storageDiffDigest_eq, storageDiffDigest_eq] at heq
  obtain ⟨hentries, hst⟩ := storageSection_selfDelimiting _ _ s t (storageEntries_mem hlen hslots)
    (storageEntries_mem hlen' hslots') heq
  have hkeys : ∀ (x : GoMap Felt (GoMap Felt Felt)) (k : Felt), k ∈ x.keys ↔
      ((x.lookup k).map mapEntries).isSome := by
    intro x k
    rw [isSome_map, mem_keys_iff]
  refine ⟨fun addr key => ?_, hst⟩
  have haddr := map_mapEntries_iff.mp (sortedEntries_inj (hkeys m) (hkeys m') hentries addr)
  have hslot := congrArg (Option.bind · (· key)) haddr
  rwa [Option.bind_map, Option.bind_map] at hslot

/-! ### Binding -/

namespace StateDiff

variable {d d' : StateDiff}

theorem hashSequence_injective (hd : d.Sequenced) (hd' : d'.Sequenced)
    (h : d.hashSequence = d'.hashSequence) :
    d.SameContent d' := by
  rw [hashSequence, hashSequence, List.cons.injEq] at h
  -- the sections end by themselves, so they are peeled off from the left
  obtain ⟨hcontracts, h⟩ :=
    updatedContractsDigest_inj hd.contracts hd'.contracts hd.contracts_length hd'.contracts_length h.2
  obtain ⟨hclasses, h⟩ :=
    declaredClassesDigest_inj hd.classes hd'.classes hd.classes_length hd'.classes_length h
  obtain ⟨hdeprecated, h⟩ := deprecatedDeclaredClassesDigest_inj hd.deprecated_length hd'.deprecated_length h
  obtain ⟨hstorage, h⟩ :=
    storageDiffDigest_inj hd.storage_length hd'.storage_length hd.slots_length hd'.slots_length
    (List.append_cancel_left h)
  rw [← List.append_nil (noncesDigest d.nonces), ← List.append_nil (noncesDigest d'.nonces)] at h
  obtain ⟨hnonces, -⟩ := noncesDigest_inj hd.nonces_length hd'.nonces_length h
  exact ⟨hstorage, hnonces, hdeprecated, hclasses, hcontracts⟩

/-- **The inner sequences of `Commitment` bind the diff.** -/
theorem nestedSequences_injective (hd : d.Sequenced) (hd' : d'.Sequenced)
    (h : d.nestedSequences = d'.nestedSequences) : d.SameContent d' := by
  refine hashSequence_injective hd hd' ?_
  simp only [nestedSequences, List.cons.injEq, and_true] at h
  obtain ⟨hcontracts, hclasses, hdeprecated, hdomain⟩ := h
  rw [hashSequence, hashSequence, hcontracts, hclasses, hdeprecated, hdomain]

/-- If no two of the inner sequences collide, the outer sequence determines them. -/
theorem nestedSequences_of_commitmentSequence {poseidon : List Felt → Felt}
    (hinj : Set.InjOn poseidon {s | s ∈ d.nestedSequences ∨ s ∈ d'.nestedSequences})
    (h : d.commitmentSequence poseidon = d'.commitmentSequence poseidon) :
    d.nestedSequences = d'.nestedSequences := by
  simp only [commitmentSequence, List.cons.injEq, and_true, true_and] at h
  obtain ⟨hcontracts, hclasses, hdeprecated, hdomain⟩ := h
  rw [nestedSequences, nestedSequences,
    hinj (.inl (by simp [nestedSequences])) (.inr (by simp [nestedSequences])) hcontracts,
    hinj (.inl (by simp [nestedSequences])) (.inr (by simp [nestedSequences])) hclasses,
    hinj (.inl (by simp [nestedSequences])) (.inr (by simp [nestedSequences])) hdeprecated,
    hinj (.inl (by simp [nestedSequences])) (.inr (by simp [nestedSequences])) hdomain]

/-! ### Order -/

theorem length_eq_of_lookup {m m' : GoMap Felt V} (h : ∀ k, (m.lookup k).isSome = (m'.lookup k).isSome) :
    m.entries.length = m'.entries.length := by
  rw [← length_keys, ← length_keys]
  exact (keys_perm h).length_eq

theorem updatedContractsDigest_congr (ha : ∀ k, a.lookup k = a'.lookup k)
    (hb : ∀ k, b.lookup k = b'.lookup k) :
    updatedContractsDigest a b = updatedContractsDigest a' b' := by
  have hlookup : ∀ k, (((∅ : GoMap Felt Felt).copyFrom a).copyFrom b).lookup k =
      (((∅ : GoMap Felt Felt).copyFrom a').copyFrom b').lookup k := by
    intro k
    rw [lookup_updated, lookup_updated, eitherClass, eitherClass, ha k, hb k]
  have hkeys :
      (((∅ : GoMap Felt Felt).copyFrom a).copyFrom b).keys.Perm
      (((∅ : GoMap Felt Felt).copyFrom a').copyFrom b').keys :=
    keys_perm fun k => by rw [hlookup k]
  have hlen : a.entries.length = a'.entries.length := length_eq_of_lookup fun k => by rw [ha k]
  have hlen' : b.entries.length = b'.entries.length := length_eq_of_lookup fun k => by rw [hb k]
  simp only [updatedContractsDigest, sortedFeltKeys, hlookup, hlen, hlen', sortFelts_perm hkeys]

theorem declaredClassesDigest_congr (ha : ∀ k, a.lookup k = a'.lookup k)
    (hb : ∀ k, b.lookup k = b'.lookup k) :
    declaredClassesDigest a b = declaredClassesDigest a' b' := by
  have hkeys : (a.keys ++ b.keys).Perm (a'.keys ++ b'.keys) :=
    (keys_perm fun k => by rw [ha k]).append (keys_perm fun k => by rw [hb k])
  have hlookup : ∀ k, eitherClass a b k = eitherClass a' b' k := by
    intro k
    rw [eitherClass, eitherClass, ha k, hb k]
  rw [declaredClassesDigest_eq, declaredClassesDigest_eq, sortedEntries_congr hkeys hlookup]

theorem storageDiffDigest_congr {m m' : GoMap Felt (GoMap Felt Felt)}
    (h : ∀ addr, (m.lookup addr).map (fun m k => m.lookup k) = (m'.lookup addr).map fun m k => m.lookup k) :
    storageDiffDigest m = storageDiffDigest m' := by
  have hkeys : m.keys.Perm m'.keys := by
    refine keys_perm fun k => ?_
    have hk := congrArg isSome (h k)
    rwa [isSome_map, isSome_map] at hk
  rw [storageDiffDigest_eq, storageDiffDigest_eq, storageEntries, storageEntries,
    sortedEntries_congr hkeys fun addr => map_mapEntries_iff.mpr (h addr)]

/-- The order of iterations and of the deprecated classes does not change the inner sequences of
`Commitment`. -/
theorem nestedSequences_reordered (h : d.Reordered d') : d.nestedSequences = d'.nestedSequences := by
  rw [nestedSequences, nestedSequences, updatedContractsDigest_congr h.deployed h.replaced,
    declaredClassesDigest_congr h.declared h.migrated, deprecatedDeclaredClassesDigest,
      deprecatedDeclaredClassesDigest,
    h.deprecated.length_eq, sortFelts_perm h.deprecated, storageDiffDigest_congr h.storage, noncesDigest_eq,
    noncesDigest_eq, mapEntries_iff.mpr h.nonces]

theorem hashSequence_reordered (h : d.Reordered d') : d.hashSequence = d'.hashSequence := by
  have hnested := nestedSequences_reordered h
  simp only [nestedSequences, List.cons.injEq, and_true] at hnested
  obtain ⟨hcontracts, hclasses, hdeprecated, hdomain⟩ := hnested
  rw [hashSequence, hashSequence, hcontracts, hclasses, hdeprecated, hdomain]

/-- **State diffs are bound by their hashes**: for diffs that the sequencer makes, the sequences that `Hash`
and `Commitment` give to Poseidon do not depend on the order of maps or of the deprecated classes, and two
diffs with the same sequence have the same content; for `Commitment` if Poseidon does not collide on the inner
sequences. -/
theorem stateDiff_bound (poseidon : List Felt → Felt) (d d' : StateDiff) (hd : d.Sequenced)
    (hd' : d'.Sequenced) :
    (d.Reordered d' → d.hashSequence = d'.hashSequence ∧ d.nestedSequences = d'.nestedSequences ∧
      d.commitmentSequence poseidon = d'.commitmentSequence poseidon) ∧
    (d.hashSequence = d'.hashSequence → d.SameContent d') ∧
    (Set.InjOn poseidon {s | s ∈ d.nestedSequences ∨ s ∈ d'.nestedSequences} →
      d.commitmentSequence poseidon = d'.commitmentSequence poseidon → d.SameContent d') := by
  refine ⟨fun h => ?_, hashSequence_injective hd hd', fun hinj h => ?_⟩
  · have hnested := nestedSequences_reordered h
    refine ⟨hashSequence_reordered h, hnested, ?_⟩
    simp only [nestedSequences, List.cons.injEq, and_true] at hnested
    obtain ⟨hcontracts, hclasses, hdeprecated, hdomain⟩ := hnested
    rw [commitmentSequence, commitmentSequence, hcontracts, hclasses, hdeprecated, hdomain]
  · exact nestedSequences_injective hd hd' (nestedSequences_of_commitmentSequence hinj h)

def ordered : StateDiff where
  storageDiffs := singleton 1 ((singleton 2 3).insert 1 5)
  nonces := (singleton 7 1).insert 8 2
  deployedContracts := singleton 9 4
  declaredV0Classes := [6, 5]
  declaredV1Classes := singleton 3 1
  replacedClasses := singleton 8 5
  migratedClasses := singleton 4 2

def shuffled : StateDiff :=
  { ordered with
    storageDiffs := singleton 1 ((singleton 1 5).insert 2 3)
    nonces := (singleton 8 2).insert 7 1
    declaredV0Classes := [5, 6] }

/-- A function that tells a few sequences apart. -/
def foldHash (l : List Felt) : Felt := l.foldl (fun h x => 31 * h + x + 1) 7

/-- Both sequences of the two diffs are equal, and the theorem gives that their contents are. -/
theorem stateDiff_bound_shuffled :
    (ordered.hashSequence = shuffled.hashSequence ∧ ordered.SameContent shuffled) ∧
      ordered.commitmentSequence foldHash = shuffled.commitmentSequence foldHash ∧
        ordered.SameContent shuffled := by
  have hapart : ∀ {a b v w : Felt}, a ≠ b → ∀ k ∈ (singleton a v : GoMap Felt Felt),
      k ∉ (singleton b w : GoMap Felt Felt) := by
    intro a b v w hne k hk hk'
    exact hne ((GoMap.mem_singleton.mp hk).symm.trans (GoMap.mem_singleton.mp hk'))
  have hone : ∀ {writes : GoMap Felt Felt}, writes.entries.length < 2 ^ 64 → ∀ addr diffs,
      (singleton 1 writes : GoMap Felt (GoMap Felt Felt)).lookup addr = some diffs →
        diffs.entries.length < 2 ^ 64 := by
    intro writes hlen addr diffs h
    rw [GoMap.lookup_singleton] at h
    split_ifs at h with haddr
    · rwa [← some.inj h]
  have hd : ordered.Sequenced :=
    ⟨hapart (by decide), hapart (by decide),
      by decide, by decide, by decide, by decide, hone (by decide), by decide⟩
  have hd' : shuffled.Sequenced :=
    ⟨hapart (by decide), hapart (by decide),
      by decide, by decide, by decide, by decide, hone (by decide), by decide⟩
  have hinj : Set.InjOn foldHash {s | s ∈ ordered.nestedSequences ∨ s ∈ shuffled.nestedSequences} := by
    have hall : ∀ s ∈ ordered.nestedSequences ++ shuffled.nestedSequences,
        ∀ t ∈ ordered.nestedSequences ++ shuffled.nestedSequences, foldHash s = foldHash t → s = t := by
      decide +kernel
    intro s hs t ht
    exact hall s (List.mem_append.mpr hs) t (List.mem_append.mpr ht)
  have hhash : ordered.hashSequence = shuffled.hashSequence := by decide +kernel
  have hcommitment : ordered.commitmentSequence foldHash = shuffled.commitmentSequence foldHash := by
    decide +kernel
  obtain ⟨-, hbound, hbound'⟩ := stateDiff_bound foldHash ordered shuffled hd hd'
  exact ⟨⟨hhash, hbound hhash⟩, hcommitment, hbound' hinj hcommitment⟩

end StateDiff

end Juno
