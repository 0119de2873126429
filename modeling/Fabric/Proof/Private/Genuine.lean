import Fabric.Ledger.KvLedger
import Fabric.Ledger.RwsetBuilder
import Fabric.Proof.Validation.BatchRefinement

/-! # Genuine transactions -/

namespace Fabric.Proof.Private

open Fabric.Ledger Fabric.Ledger.Validation List

structure Covers (codec : Codec) (hashed : HashedRWSet) (s : PvtKVRWSet) : Prop where
  writes : hashed.hashedWrites.map ({ · with isPurge := false }) =
    s.writes.map fun w => newPvtKVWriteHash codec w.key w.value
  metadataWrites : hashed.metadataWrites.map (·.keyHash) = s.metadataWrites.map fun w => codec.computeHash w.key
  deletes : ∀ w ∈ s.writes, w.isDelete = w.value.isEmpty

theorem mem_of_retrieveHashedColl {rwset : TxRwSet} {ns coll : Bytes} {c : CollHashedRwSet}
    (found : retrieveHashedColl rwset ns coll = some c) :
    ∃ nsRwSet ∈ rwset.nsRwSets, c ∈ nsRwSet.collHashedRwSets ∧ nsRwSet.nameSpace = ns ∧ c.collectionName = coll := by
  obtain ⟨nsRwSet, ofNs, found⟩ := exists_of_findSome?_eq_some found
  obtain ⟨ofNs, named⟩ := mem_filter.mp ofNs
  exact ⟨nsRwSet, ofNs, mem_of_find?_eq_some found, by simpa using named, by simpa using find?_some found⟩

end Fabric.Proof.Private
