import Fabric.Ledger.Statedb

/-! # The privacy enabled state -/

namespace Fabric.Ledger

open Lib List

variable {pubUpdates : Updates CompositeKey} {hashUpdates : Updates CollKey} {vv : VersionedValue}

structure PrivacyUpdateBatch where
  pubUpdates : UpdateBatch
  hashUpdates : Updates CollKey
  pvtUpdates : Updates CollKey

def filterNamespacesThatHasMetadata (pubUpdates : Updates CompositeKey) (hashUpdates : Updates CollKey) :
    Finset Bytes :=
  ((pubUpdates.toList.filter (·.2.metadata.isSome)).map (·.1.ns)).toFinset ∪
    ((hashUpdates.toList.filter (·.2.metadata.isSome)).map (·.1.ns)).toFinset

/-- The state database of a channel. A namespace without the metadata hint stores no metadata. -/
structure DB where
  pub : State CompositeKey
  hashed : State CollKey
  pvt : State CollKey
  metadataHint : Finset Bytes
  pubHint : ∀ k vv, pub.getState k = some vv → vv.metadata.isSome → k.ns ∈ metadataHint
  hashedHint : ∀ k vv, hashed.getState k = some vv → vv.metadata.isSome → k.ns ∈ metadataHint
  savepoint : Option Height

def DB.empty : DB where
  pub := .empty
  hashed := .empty
  pvt := .empty
  metadataHint := ∅
  pubHint k vv found := by simp [State.empty, State.getState] at found
  hashedHint k vv found := by simp [State.empty, State.getState] at found
  savepoint := none

theorem mem_pub_hint {k : CompositeKey} (found : pubUpdates[k]? = some vv) (metadata : vv.metadata.isSome) :
    k.ns ∈ filterNamespacesThatHasMetadata pubUpdates hashUpdates := by
  simp only [filterNamespacesThatHasMetadata, Finset.mem_union, mem_toFinset, mem_map, mem_filter]
  exact .inl ⟨(k, vv), ⟨mem_toList_iff_getElem?_eq_some.mpr found, metadata⟩, rfl⟩

theorem mem_hashed_hint {k : CollKey} (found : hashUpdates[k]? = some vv) (metadata : vv.metadata.isSome) :
    k.ns ∈ filterNamespacesThatHasMetadata pubUpdates hashUpdates := by
  simp only [filterNamespacesThatHasMetadata, Finset.mem_union, mem_toFinset, mem_map, mem_filter]
  exact .inr ⟨(k, vv), ⟨mem_toList_iff_getElem?_eq_some.mpr found, metadata⟩, rfl⟩

/-- The batch is applied and the hint is extended; without a height the savepoint stays. -/
def DB.applyPrivacyAwareUpdates (db : DB) (updates : PrivacyUpdateBatch) (height : Option Height) : DB where
  pub := db.pub.applyUpdates updates.pubUpdates.updates
  hashed := db.hashed.applyUpdates updates.hashUpdates
  pvt := db.pvt.applyUpdates updates.pvtUpdates
  metadataHint :=
    db.metadataHint ∪ filterNamespacesThatHasMetadata updates.pubUpdates.updates updates.hashUpdates
  pubHint k vv found metadata := by
    refine Finset.mem_union.mpr ?_
    rcases State.getState_applyUpdates_cases found with ⟨written, _⟩ | ⟨_, kept⟩
    · exact .inr (mem_pub_hint written metadata)
    · exact .inl (db.pubHint k vv kept metadata)
  hashedHint k vv found metadata := by
    refine Finset.mem_union.mpr ?_
    rcases State.getState_applyUpdates_cases found with ⟨written, _⟩ | ⟨_, kept⟩
    · exact .inr (mem_hashed_hint written metadata)
    · exact .inl (db.hashedHint k vv kept metadata)
  savepoint := height.or db.savepoint

def DB.getStateMetadata (db : DB) (k : CompositeKey) : Option Bytes :=
  if k.ns ∈ db.metadataHint then (db.pub.getState k).bind (·.metadata) else none

def DB.getPrivateDataMetadataByHash (db : DB) (k : CollKey) : Option Bytes :=
  if k.ns ∈ db.metadataHint then (db.hashed.getState k).bind (·.metadata) else none

private theorem metadata_of_hint {K : Type} [Ord K] [Std.TransOrd K] {s : State K} {ns : K → Bytes}
    {hint : Finset Bytes} (sound : ∀ k vv, s.getState k = some vv → vv.metadata.isSome → ns k ∈ hint) (k : K) :
    (if ns k ∈ hint then (s.getState k).bind (·.metadata) else none) = (s.getState k).bind (·.metadata) := by
  split
  · rfl
  · rename_i unhinted
    cases found : s.getState k with
    | none => rfl
    | some vv =>
      have bare : ¬ vv.metadata.isSome := fun metadata => unhinted (sound k vv found metadata)
      simp only [Option.bind_some]
      exact (Option.not_isSome_iff_eq_none.mp bare).symm

theorem DB.getStateMetadata_eq (db : DB) (k : CompositeKey) : db.getStateMetadata k = (db.pub.getState k).bind (·.metadata) :=
  metadata_of_hint db.pubHint k

theorem DB.getPrivateDataMetadataByHash_eq (db : DB) (k : CollKey) :
    db.getPrivateDataMetadataByHash k = (db.hashed.getState k).bind (·.metadata) :=
  metadata_of_hint db.hashedHint k

end Fabric.Ledger
