import Juno.Core.StateUpdate

/-!
# State diffs as functions

What a state diff says, apart from how its maps are stored: for every contract and slot
the value written, if any. `StateDiff.Merge` writes one diff over another; on these values it is
a monoid, which is why blocks of diffs may be merged in any grouping.
-/

namespace Juno

open Lib

@[ext] structure DiffValue where
  /-- The storage writes of the contracts that have any. -/
  storage : Felt → Option (Felt → Option Felt)
  nonces : Felt → Option Felt
  /-- The class hashes of new contracts. -/
  deployed : Felt → Option Felt
  /-- The classes of version 0, in order. -/
  declaredV0 : List Felt
  /-- The compiled class hashes of new classes. -/
  declaredV1 : Felt → Option Felt
  /-- The new class hashes of contracts. -/
  replaced : Felt → Option Felt
  /-- The new compiled class hashes of classes. -/
  migrated : Felt → Option Felt

def DiffValue.empty : DiffValue :=
  ⟨fun _ => none, fun _ => none, fun _ => none, [], fun _ => none, fun _ => none, fun _ => none⟩

/-- One map of writes over another. -/
def overlay (old new : Felt → Option Felt) (k : Felt) : Option Felt := (new k).or (old k)

/-- The writes to a contract over older ones. -/
def overlayStorage (old : Option (Felt → Option Felt)) :
    Option (Felt → Option Felt) → Option (Felt → Option Felt)
  | none => old
  | some new => some (overlay (fun k => old.bind (· k)) new)

/-- `StateDiff.Merge`, on values. -/
def DiffValue.merge (d incoming : DiffValue) : DiffValue where
  storage addr := overlayStorage (d.storage addr) (incoming.storage addr)
  nonces := overlay d.nonces incoming.nonces
  deployed := overlay d.deployed incoming.deployed
  declaredV0 := d.declaredV0 ++ incoming.declaredV0
  declaredV1 := overlay d.declaredV1 incoming.declaredV1
  replaced := overlay d.replaced incoming.replaced
  migrated := overlay d.migrated incoming.migrated

theorem overlay_assoc (a b c : Felt → Option Felt) : overlay (overlay a b) c = overlay a (overlay b c) := by
  funext k
  exact (Option.or_assoc).symm

theorem overlay_none_left (a : Felt → Option Felt) : overlay (fun _ => none) a = a := by
  funext k
  exact Option.or_none

theorem overlayStorage_assoc (a b c : Option (Felt → Option Felt)) :
    overlayStorage (overlayStorage a b) c = overlayStorage a (overlayStorage b c) := by
  cases c with
  | none => rfl
  | some c =>
    cases b with
    | none =>
      refine congrArg some ?_
      rw [show (fun k => (none : Option (Felt → Option Felt)).bind (· k)) = fun _ => none from rfl,
        overlay_none_left]
      rfl
    | some b => exact congrArg some (overlay_assoc _ b c)

theorem overlayStorage_none_left (a : Option (Felt → Option Felt)) : overlayStorage none a = a := by
  cases a with
  | none => rfl
  | some a => exact congrArg some (overlay_none_left a)

theorem DiffValue.merge_assoc (a b c : DiffValue) : (a.merge b).merge c = a.merge (b.merge c) := by
  ext1
  · funext addr
    exact overlayStorage_assoc _ _ _
  · exact overlay_assoc _ _ _
  · exact overlay_assoc _ _ _
  · exact List.append_assoc _ _ _
  · exact overlay_assoc _ _ _
  · exact overlay_assoc _ _ _
  · exact overlay_assoc _ _ _

theorem DiffValue.empty_merge (a : DiffValue) : DiffValue.empty.merge a = a := by
  ext1
  · funext addr
    exact overlayStorage_none_left _
  · exact overlay_none_left _
  · exact overlay_none_left _
  · rfl
  · exact overlay_none_left _
  · exact overlay_none_left _
  · exact overlay_none_left _

theorem DiffValue.merge_empty (a : DiffValue) : a.merge DiffValue.empty = a := by
  ext1
  · rfl
  · rfl
  · rfl
  · exact List.append_nil _
  · rfl
  · rfl
  · rfl

def DiffValue.mergeAll (ds : List DiffValue) : DiffValue := ds.foldl DiffValue.merge .empty

open DiffValue

theorem DiffValue.foldl_merge (d : DiffValue) (ds : List DiffValue) :
    ds.foldl DiffValue.merge d = d.merge (DiffValue.mergeAll ds) := by
  induction ds generalizing d with
  | nil => exact d.merge_empty.symm
  | cons e ds ih =>
    have hcons : mergeAll (e :: ds) = e.merge (mergeAll ds) := by
      rw [mergeAll, List.foldl_cons, ih, empty_merge]
    rw [List.foldl_cons, ih, hcons, merge_assoc]

theorem DiffValue.mergeAll_cons (d : DiffValue) (ds : List DiffValue) :
    DiffValue.mergeAll (d :: ds) = d.merge (DiffValue.mergeAll ds) := by
  rw [mergeAll, List.foldl_cons, foldl_merge, empty_merge]

theorem DiffValue.mergeAll_append (ds es : List DiffValue) :
    DiffValue.mergeAll (ds ++ es) = (DiffValue.mergeAll ds).merge (DiffValue.mergeAll es) := by
  rw [mergeAll, List.foldl_append]
  exact foldl_merge _ es

def StateDiff.value (d : StateDiff) : DiffValue where
  storage addr := (d.storageDiffs.lookup addr).map fun s k => s.lookup k
  nonces := fun k => d.nonces.lookup k
  deployed := fun k => d.deployedContracts.lookup k
  declaredV0 := d.declaredV0Classes
  declaredV1 := fun k => d.declaredV1Classes.lookup k
  replaced := fun k => d.replacedClasses.lookup k
  migrated := fun k => d.migratedClasses.lookup k

end Juno
