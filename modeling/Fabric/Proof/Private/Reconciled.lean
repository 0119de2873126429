import Fabric.Proof.Private.Genuine

/-! # Reconciled private data -/

namespace Fabric.Proof.Private

open Lib Fabric.Ledger Fabric.Ledger.PvtdataStorage List Option

variable {codec : Codec} {kvHashes : KVHashes} {s : Store} {ns : Bytes} {ht : Height}

theorem mem_of_matchKeys {kvs final : List KVWrite} {leftover : KVHashes}
    (run : matchKeys codec kvs kvHashes = some (final, leftover)) {w : KVWrite} (mem : w ∈ final) :
    w ∈ kvs ∧ kvHashes[codec.computeHash w.key]? = some (codec.computeHash w.value) := by
  induction kvs generalizing kvHashes final with
  | nil =>
    simp only [matchKeys, some.injEq, Prod.mk.injEq] at run
    simp [← run.1] at mem
  | cons kv kvs ih =>
    simp only [matchKeys] at run
    split at run
    · obtain ⟨later, found⟩ := ih run mem
      exact ⟨mem_cons_of_mem _ later, found⟩
    · rename_i expected found
      split at run
      · rename_i same
        obtain ⟨⟨final', leftover'⟩, matching, result⟩ := map_eq_some_iff.mp run
        obtain ⟨rfl, rfl⟩ := Prod.mk.inj result
        rcases mem_cons.mp mem with rfl | later
        · exact ⟨mem_cons_self, by rw [found, same]⟩
        · obtain ⟨inKvs, found⟩ := ih matching later
          refine ⟨mem_cons_of_mem _ inKvs, ?_⟩
          rw [getElem?_erase] at found
          split at found
          · simp at found
          · exact found
      · simp at run

theorem validateAndRemovePurgedKeys_cases {c c' : CollPvtRwSet} {hash : Option Bytes}
    (run : validateAndRemovePurgedKeys codec s c kvHashes hash ns ht = some c') :
    let trimmed := s.removeAppInitiatedPurgesUsingReconMarker kvHashes ns c.collectionName ht
    trimmed.isEmpty ∧ c' = ⟨c.collectionName, ⟨[], []⟩⟩ ∨ trimmed.size = kvHashes.size ∧ c.kvRwSet.writes.length = kvHashes.size ∧
        hash = some (codec.computeHash (codec.marshalKVRWSet c.kvRwSet)) ∧ c' = c ∨
      ∃ final leftover, matchKeys codec c.kvRwSet.writes trimmed = some (final, leftover) ∧ leftover.isEmpty ∧
        c' = ⟨c.collectionName, ⟨final, []⟩⟩ := by
  intro trimmed
  unfold validateAndRemovePurgedKeys at run
  simp only at run
  split at run
  · rename_i empty
    exact .inl ⟨empty, (some.inj run).symm⟩
  · split at run
    · rename_i whole
      simp only [Bool.and_eq_true, beq_iff_eq] at whole
      split at run
      · rename_i same
        obtain ⟨h, rfl⟩ := isSome_iff_exists.mp whole.1.1
        have committed : codec.computeHash (codec.marshalKVRWSet c.kvRwSet) = h := by simpa using same
        exact .inr (.inl ⟨whole.1.2, whole.2, by rw [committed], (some.inj run).symm⟩)
      · simp at run
    · split at run
      · simp at run
      · split at run
        · simp at run
        · rename_i final leftover matching
          split at run
          · rename_i nothingLeft
            exact .inr (.inr ⟨final, leftover, matching, nothingLeft, (some.inj run).symm⟩)
          · simp at run

theorem get_removeAppInitiatedPurges {coll keyHash valueHash : Bytes} :
    (s.removeAppInitiatedPurgesUsingReconMarker kvHashes ns coll ht)[keyHash]? = some valueHash ↔
      kvHashes[keyHash]? = some valueHash ∧ markedForPurge s.purgeMarkersForRecon ⟨ns, coll, keyHash⟩ ht = false := by
  rw [Store.removeAppInitiatedPurgesUsingReconMarker, Std.ExtTreeMap.getElem?_filter', filter_eq_some_iff, Bool.not_eq_true']

end Fabric.Proof.Private
