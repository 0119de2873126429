import Fabric.Proof.Private.Reconciled

/-! # Write-sets from honest senders -/

namespace Fabric.Proof.Private

open Lib Fabric.Ledger Fabric.Ledger.Validation Fabric.Ledger.PvtdataStorage List KVWrite Codec

variable {keyHash : Bytes} {keep : Bytes → Bool}

def purgedOnReceiver (codec : Codec) (s : Store) (ns coll : Bytes) (ht : Height) (w : KVWrite) : Bool :=
  markedForPurge s.purgeMarkersForRecon ⟨ns, coll, codec.computeHash w.key⟩ ht

def unpurgedWrites (codec : Codec) (s : Store) (ns coll : Bytes) (ht : Height) (orig : PvtKVRWSet) : List KVWrite :=
  orig.writes.filter fun w => !purgedOnReceiver codec s ns coll ht w

def trimKeys (keep : Bytes → Bool) (orig : PvtKVRWSet) : PvtKVRWSet :=
  { orig with writes := orig.writes.filter fun w => keep w.key }

/-- The sender left out only keys that are purged on the receiver too. -/
def HonestlyTrimmed (codec : Codec) (s : Store) (ns coll : Bytes) (ht : Height) (orig supplied : PvtKVRWSet) : Prop :=
  ∃ keep, (∀ w ∈ orig.writes, keep w.key = false → purgedOnReceiver codec s ns coll ht w) ∧
    supplied = trimKeys keep orig

theorem honestlyTrimmed_of_sender {codec : Codec} {sender s : Store} {k : DataKey} {orig : PvtKVRWSet}
    (behind : ∀ w ∈ orig.writes, markedForPurge sender.purgeMarkers ⟨k.ns, k.coll, codec.computeHash w.key⟩ k.height →
        purgedOnReceiver codec s k.ns k.coll k.height w) :
    HonestlyTrimmed codec s k.ns k.coll k.height orig (sender.removePurgedDataFromCollPvtRWset codec k orig) := by
  unfold Store.removePurgedDataFromCollPvtRWset
  split
  · refine ⟨fun key => !markedForPurge sender.purgeMarkers ⟨k.ns, k.coll, codec.computeHash key⟩ k.height, ?_, rfl⟩
    intro w mem dropped
    exact behind w mem (by simpa using dropped)
  · exact ⟨fun _ => true, by simp, by simp [trimKeys]⟩

def writeHashes (codec : Codec) (w : KVWrite) : Bytes × Bytes :=
  (codec.computeHash w.key, if w.value.isEmpty then [] else codec.computeHash w.value)

section

variable {codec : Codec} {hashed : HashedRWSet} {orig : PvtKVRWSet} {valueHash : Bytes}

theorem Covers.map_writeHashes (covers : Covers codec hashed orig) :
    hashed.hashedWrites.map (fun h => (h.keyHash, h.valueHash)) = orig.writes.map (writeHashes codec) := by
  have pairs := congrArg (List.map fun h : KVWriteHash => (h.keyHash, h.valueHash)) covers.writes
  have hashes : (fun w : KVWrite => writeHashes codec w) = fun w =>
      (codec.computeHash w.key, if w.value.isEmpty then [] else codec.computeHash w.value) := rfl
  simpa [Function.comp_def, hashes, newPvtKVWriteHash] using pairs

theorem retrieveCollKVHashes_of_covers {rwset : TxRwSet} {ns coll : Bytes} {c : CollHashedRwSet}
    (found : retrieveHashedColl rwset ns coll = some c) (covers : Covers codec c.hashedRwSet orig) :
    retrieveCollKVHashes rwset ns coll = putAll ∅ (orig.writes.map (writeHashes codec)) := by
  rw [retrieveCollKVHashes, found, ← covers.map_writeHashes]

theorem mem_expected : keyHash ∈ putAll (∅ : KVHashes) (orig.writes.map (writeHashes codec)) ↔
      keyHash ∈ orig.writes.map fun w => codec.computeHash w.key := by
  constructor
  · intro mem
    obtain absent | ⟨e, listed, rfl⟩ := mem_of_mem_putAll mem
    · simp at absent
    · obtain ⟨w, inSet, rfl⟩ := mem_map.mp listed
      exact mem_map.mpr ⟨w, inSet, rfl⟩
  · intro mem
    obtain ⟨w, inSet, rfl⟩ := mem_map.mp mem
    exact mem_putAll_of_listed (mem_map_of_mem inSet)

theorem get_expected (found : (putAll (∅ : KVHashes) (orig.writes.map (writeHashes codec)))[keyHash]? = some valueHash) :
    ∃ w ∈ orig.writes, writeHashes codec w = (keyHash, valueHash) := by
  rw [get_putAll] at found
  exact mem_map.mp (mem_of_lastFor (by simpa using found))

variable {s : Store} {ns coll : Bytes} {ht : Height}

def expectedHashes (codec : Codec) (s : Store) (ns coll : Bytes) (ht : Height) (orig : PvtKVRWSet) : KVHashes :=
  s.removeAppInitiatedPurgesUsingReconMarker (putAll ∅ (orig.writes.map (writeHashes codec))) ns coll ht

theorem mem_expectedHashes : keyHash ∈ expectedHashes codec s ns coll ht orig ↔
      keyHash ∈ (unpurgedWrites codec s ns coll ht orig).map fun w => codec.computeHash w.key := by
  have split : keyHash ∈ expectedHashes codec s ns coll ht orig ↔ keyHash ∈ putAll (∅ : KVHashes) (orig.writes.map (writeHashes codec)) ∧
        markedForPurge s.purgeMarkersForRecon ⟨ns, coll, keyHash⟩ ht = false := by
    simp only [mem_iff_isSome_getElem?, Option.isSome_iff_exists, expectedHashes, get_removeAppInitiatedPurges, exists_and_right]
  rw [split, mem_expected]
  simp only [unpurgedWrites, mem_map, mem_filter, purgedOnReceiver, Bool.not_eq_true']
  constructor
  · rintro ⟨⟨w, mem, same⟩, unmarked⟩
    exact ⟨w, ⟨mem, by rw [same, unmarked]⟩, same⟩
  · rintro ⟨w, ⟨mem, unmarked⟩, same⟩
    exact ⟨⟨w, mem, same⟩, by rw [← same, unmarked]⟩

theorem get_expectedHashes (found : (expectedHashes codec s ns coll ht orig)[keyHash]? = some valueHash) :
    ∃ w ∈ unpurgedWrites codec s ns coll ht orig, writeHashes codec w = (keyHash, valueHash) := by
  obtain ⟨expected, unmarked⟩ := get_removeAppInitiatedPurges.mp found
  obtain ⟨w, mem, same⟩ := get_expected expected
  have keyHashes : codec.computeHash w.key = keyHash := (Prod.mk.inj same).1
  exact ⟨w, mem_filter.mpr ⟨mem, by simp [purgedOnReceiver, keyHashes, unmarked]⟩, same⟩

theorem expectedHashes_isEmpty : (expectedHashes codec s ns coll ht orig).isEmpty ↔ unpurgedWrites codec s ns coll ht orig = [] := by
  rw [Std.ExtTreeMap.isEmpty_iff]
  constructor
  · intro empty
    apply eq_nil_iff_forall_not_mem.mpr
    intro w mem
    have listed := mem_expectedHashes.mpr (mem_map_of_mem (f := fun w => codec.computeHash w.key) mem)
    simp [empty] at listed
  · intro nothing
    apply Std.ExtTreeMap.eq_empty_iff_forall_not_mem.mpr
    intro keyHash mem
    simpa [nothing] using mem_expectedHashes.mp mem

theorem expectedHashes_size : (expectedHashes codec s ns coll ht orig).size =
        (putAll (∅ : KVHashes) (orig.writes.map (writeHashes codec))).size ↔
      ∀ w ∈ orig.writes, purgedOnReceiver codec s ns coll ht w = false := by
  rw [expectedHashes, Store.removeAppInitiatedPurgesUsingReconMarker, Std.ExtTreeMap.size_filter_eq_size_iff]
  simp only [Std.ExtTreeMap.getKey_eq, Bool.not_eq_true']
  constructor
  · intro unmarked w mem
    exact unmarked _ (mem_expected.mpr (mem_map_of_mem mem))
  · intro unpurged keyHash mem
    obtain ⟨w, inSet, rfl⟩ := mem_map.mp (mem_expected.mp mem)
    exact unpurged w inSet

theorem unpurgedWrites_eq_self (unpurged : ∀ w ∈ orig.writes, purgedOnReceiver codec s ns coll ht w = false) :
    unpurgedWrites codec s ns coll ht orig = orig.writes := by
  apply filter_eq_self.mpr
  intro w mem
  simp [unpurged w mem]

theorem trimKeys_eq_self (honest : ∀ w ∈ orig.writes, keep w.key = false → purgedOnReceiver codec s ns coll ht w)
    (unpurged : ∀ w ∈ orig.writes, purgedOnReceiver codec s ns coll ht w = false) : trimKeys keep orig = orig := by
  have all : orig.writes.filter (fun w => keep w.key) = orig.writes := by
    apply filter_eq_self.mpr
    intro w mem
    by_contra dropped
    have purged := honest w mem (by simpa using dropped)
    simp [unpurged w mem] at purged
  simp [trimKeys, all]

end

section

variable {codec : Codec} {kvHashes : KVHashes} {kvs : List KVWrite}

-- A matched hash is erased, so no key matches twice.
theorem nodup_of_matchKeys {final : List KVWrite} {leftover : KVHashes}
    (run : matchKeys codec kvs kvHashes = some (final, leftover)) : (final.map fun w => codec.computeHash w.key).Nodup := by
  induction kvs generalizing kvHashes final with
  | nil =>
    simp only [matchKeys, Option.some.injEq, Prod.mk.injEq] at run
    simp [← run.1]
  | cons kv kvs ih =>
    simp only [matchKeys] at run
    split at run
    · exact ih run
    · split at run
      · obtain ⟨⟨later, leftover'⟩, matching, result⟩ := Option.map_eq_some_iff.mp run
        obtain ⟨rfl, rfl⟩ := Prod.mk.inj result
        rw [map_cons, nodup_cons]
        constructor
        · intro again
          obtain ⟨w, mem, same⟩ := mem_map.mp again
          have found := (mem_of_matchKeys matching mem).2
          simp [same] at found
        · exact ih matching
      · simp at run

theorem matchKeys_of_hashes
    (uniq : ((kvs.filter fun w => codec.computeHash w.key ∈ kvHashes).map fun w => codec.computeHash w.key).Nodup)
    (values : ∀ w ∈ kvs, ∀ v, kvHashes[codec.computeHash w.key]? = some v → v = codec.computeHash w.value)
    (listed : ∀ keyHash ∈ kvHashes, keyHash ∈ kvs.map fun w => codec.computeHash w.key) :
    matchKeys codec kvs kvHashes = some (kvs.filter fun w => codec.computeHash w.key ∈ kvHashes, ∅) := by
  induction kvs generalizing kvHashes with
  | nil =>
    have empty : kvHashes = ∅ := Std.ExtTreeMap.eq_empty_iff_forall_not_mem.mpr fun k mem => by
      simpa using listed k mem
    simp [matchKeys, empty]
  | cons kv kvs ih =>
    obtain ⟨valueHere, valuesLater⟩ := forall_mem_cons.mp values
    cases found : kvHashes[codec.computeHash kv.key]? with
    | none =>
      have absent : codec.computeHash kv.key ∉ kvHashes := by
        simp [mem_iff_isSome_getElem?, found]
      simp only [matchKeys, found, filter_cons, absent, decide_false] at uniq ⊢
      apply ih uniq valuesLater
      intro keyHash mem
      rcases mem_cons.mp (listed keyHash mem) with rfl | later
      · exact absurd mem absent
      · exact later
    | some v =>
      have present : codec.computeHash kv.key ∈ kvHashes := by
        simp [mem_iff_isSome_getElem?, found]
      simp only [filter_cons, present, decide_true, if_true, map_cons, nodup_cons] at uniq
      -- The later writes of expected keys have other keys, so erasing this one changes nothing for them.
      have others : ∀ w ∈ kvs, codec.computeHash w.key ∈ kvHashes → codec.computeHash kv.key ≠ codec.computeHash w.key := by
        intro w mem expected same
        exact uniq.1 (mem_map.mpr ⟨w, mem_filter.mpr ⟨mem, by simpa using expected⟩, same.symm⟩)
      have kept : kvs.filter (fun w => codec.computeHash w.key ∈ kvHashes.erase (codec.computeHash kv.key)) =
          kvs.filter fun w => codec.computeHash w.key ∈ kvHashes := by
        apply filter_congr
        intro w mem
        rw [decide_eq_decide, mem_erase]
        constructor
        · exact fun erased => erased.2
        · intro expected
          exact ⟨by simpa using others w mem expected, expected⟩
      have later : matchKeys codec kvs (kvHashes.erase (codec.computeHash kv.key)) =
          some (kvs.filter fun w => codec.computeHash w.key ∈ kvHashes, ∅) := by
        rw [← kept]
        apply ih
        · rw [kept]
          exact uniq.2
        · intro w mem v' found'
          apply valuesLater w mem v'
          rw [getElem?_erase] at found'
          split at found'
          · simp at found'
          · exact found'
        · intro keyHash mem
          obtain ⟨different, expected⟩ := mem_erase.mp mem
          rcases mem_cons.mp (listed keyHash expected) with rfl | inLater
          · simp at different
          · exact inLater
      simp only [matchKeys, found, valueHere v found, if_true, later, Option.map_some, filter_cons, present, decide_true]

end

section

variable {codec : Codec} (free : codec.CollisionFree) {rwset : TxRwSet} {ns coll : Bytes} {c : CollHashedRwSet}
  {orig : PvtKVRWSet} {hash : Option Bytes} {s : Store} {ht : Height}

/-- Every honest sender's data is accepted, and what is stored are the writes that the receiver has not purged. -/
def AcceptsHonest (codec : Codec) (s : Store) (rwset : TxRwSet) (ns coll : Bytes) (hash : Option Bytes) (ht : Height)
    (orig : PvtKVRWSet) : Prop :=
  ∀ supplied, HonestlyTrimmed codec s ns coll ht orig supplied →
    ∃ c', validateAndRemovePurgedKeys codec s ⟨coll, supplied⟩ (retrieveCollKVHashes rwset ns coll) hash ns ht = some c' ∧
      c'.kvRwSet.writes = unpurgedWrites codec s ns coll ht orig

def HashesInBlock (codec : Codec) (hashed : HashedRWSet) (w : KVWrite) : Prop :=
  ∃ h ∈ hashed.hashedWrites, h.keyHash = codec.computeHash w.key ∧
    (h.valueHash = codec.computeHash w.value ∨ w.isKVWriteDelete ∧ h.valueHash = [])

def AcceptsOnlyHashed (codec : Codec) (s : Store) (rwset : TxRwSet) (ns coll : Bytes) (hash : Option Bytes) (ht : Height)
    (hashed : HashedRWSet) : Prop :=
  ∀ supplied c', validateAndRemovePurgedKeys codec s ⟨coll, supplied⟩ (retrieveCollKVHashes rwset ns coll) hash ns ht = some c' →
    ∀ w ∈ c'.kvRwSet.writes, HashesInBlock codec hashed w ∧ purgedOnReceiver codec s ns coll ht w = false

/-- The receiver has purged all keys of the write-set; or it has purged none of them and it has the block, and no
key is written twice; or the writes that are left are puts of distinct keys. -/
def Reconcilable (codec : Codec) (s : Store) (ns coll : Bytes) (ht : Height) (hash : Option Bytes)
    (orig : PvtKVRWSet) : Prop :=
  unpurgedWrites codec s ns coll ht orig = [] ∨
    hash.isSome ∧ (∀ w ∈ orig.writes, purgedOnReceiver codec s ns coll ht w = false) ∧
      (orig.writes.map key).Nodup ∨
    (∀ w ∈ unpurgedWrites codec s ns coll ht orig, w.isKVWriteDelete = false) ∧
      ((unpurgedWrites codec s ns coll ht orig).map key).Nodup

include free

theorem nodup_keyHashes_iff {ws : List KVWrite} : (ws.map fun w => codec.computeHash w.key).Nodup ↔ (ws.map key).Nodup := by
  have composed : (ws.map fun w => codec.computeHash w.key) = (ws.map key).map codec.computeHash := by
    rw [map_map]
    rfl
  rw [composed, nodup_map_iff free.hash_injective]

theorem nodup_of_size (full : orig.writes.length =
    (putAll (∅ : KVHashes) (orig.writes.map (writeHashes codec))).size) : (orig.writes.map key).Nodup := by
  apply (nodup_keyHashes_iff free).mp
  apply (length_eq_size_iff (fun _ => mem_expected)).mp
  rw [length_map]
  exact full

theorem acceptsOnlyHashed (found : retrieveHashedColl rwset ns coll = some c) (covers : Covers codec c.hashedRwSet orig)
    (committed : ∀ h, hash = some h → h = codec.computeHash (codec.marshalKVRWSet orig)) :
    AcceptsOnlyHashed codec s rwset ns coll hash ht c.hashedRwSet := by
  intro supplied c' run w mem
  have hashes : ∀ w ∈ orig.writes, ∃ h ∈ c.hashedRwSet.hashedWrites, (h.keyHash, h.valueHash) = writeHashes codec w := by
    intro w mem
    apply mem_map.mp
    rw [covers.map_writeHashes]
    exact mem_map_of_mem mem
  rw [retrieveCollKVHashes_of_covers found covers] at run
  obtain ⟨_, rfl⟩ | ⟨full, _, isHash, rfl⟩ | ⟨final, leftover, matching, _, rfl⟩ :=
    validateAndRemovePurgedKeys_cases run
  · simp at mem
  · -- The whole write-set has the hash of the original one.
    obtain rfl : supplied = orig :=
      free.marshal_injective (free.hash_injective (committed _ isHash))
    refine ⟨?_, expectedHashes_size.mp full w mem⟩
    obtain ⟨h, inBlock, same⟩ := hashes w mem
    obtain ⟨sameKey, sameValue⟩ := Prod.mk.inj same
    refine ⟨h, inBlock, sameKey, ?_⟩
    cases empty : w.value.isEmpty with
    | true => exact .inr ⟨by simp [isKVWriteDelete, empty], by simp [sameValue, empty]⟩
    | false => exact .inl (by simp [sameValue, empty])
  · have expected := (mem_of_matchKeys matching mem).2
    obtain ⟨_, unmarked⟩ := get_removeAppInitiatedPurges.mp expected
    obtain ⟨w', mem', same⟩ := get_expectedHashes expected
    obtain ⟨h, inBlock, sameHashes⟩ := hashes w' (mem_filter.mp mem').1
    obtain ⟨sameKey, sameValue⟩ := Prod.mk.inj (sameHashes.trans same)
    exact ⟨⟨h, inBlock, sameKey, .inl sameValue⟩, unmarked⟩

theorem cases_of_acceptsHonest (found : retrieveHashedColl rwset ns coll = some c)
    (covers : Covers codec c.hashedRwSet orig) (accepts : AcceptsHonest codec s rwset ns coll hash ht orig) :
    Reconcilable codec s ns coll ht hash orig := by
  have untrimmed : HonestlyTrimmed codec s ns coll ht orig orig :=
    ⟨fun _ => true, by simp, by simp [trimKeys]⟩
  obtain ⟨c', run, writes⟩ := accepts orig untrimmed
  rw [retrieveCollKVHashes_of_covers found covers] at run
  obtain ⟨empty, _⟩ | ⟨full, all, isHash, _⟩ | ⟨final, leftover, matching, _, rfl⟩ :=
    validateAndRemovePurgedKeys_cases run
  · exact .inl (expectedHashes_isEmpty.mp empty)
  · exact .inr (.inl ⟨by simp [isHash], expectedHashes_size.mp full, nodup_of_size free all⟩)
  · obtain rfl : final = unpurgedWrites codec s ns coll ht orig := writes
    have uniq := (nodup_keyHashes_iff free).mp (nodup_of_matchKeys matching)
    refine .inr (.inr ⟨?_, uniq⟩)
    intro w mem
    obtain ⟨w', mem', same⟩ := get_expectedHashes (mem_of_matchKeys matching mem).2
    obtain ⟨sameKey, sameValue⟩ := Prod.mk.inj same
    obtain rfl : w' = w := inj_on_of_nodup_map uniq mem' mem (free.hash_injective sameKey)
    have nonempty : w'.value.isEmpty = false := by
      cases empty : w'.value.isEmpty with
      | false => rfl
      | true =>
        rw [empty, if_pos rfl] at sameValue
        exact absurd sameValue.symm (free.hash_nonempty _)
    rw [isKVWriteDelete, covers.deletes w' (mem_filter.mp mem').1, nonempty, Bool.or_self]

omit free in
theorem filter_expected (honest : ∀ w ∈ orig.writes, keep w.key = false → purgedOnReceiver codec s ns coll ht w) :
    ((trimKeys keep orig).writes.filter fun w => codec.computeHash w.key ∈ expectedHashes codec s ns coll ht orig) =
      unpurgedWrites codec s ns coll ht orig := by
  rw [trimKeys, filter_filter]
  apply filter_congr
  intro w mem
  cases purged : purgedOnReceiver codec s ns coll ht w with
  | true =>
    have gone : codec.computeHash w.key ∉ expectedHashes codec s ns coll ht orig := by
      intro expected
      obtain ⟨w', mem', same⟩ := mem_map.mp (mem_expectedHashes.mp expected)
      have unpurged := (mem_filter.mp mem').2
      rw [purgedOnReceiver, same] at unpurged
      rw [purgedOnReceiver] at purged
      simp [purged] at unpurged
    simp [gone]
  | false =>
    have kept : keep w.key = true := by
      by_contra dropped
      have purged' := honest w mem (by simpa using dropped)
      simp [purged] at purged'
    have expected : codec.computeHash w.key ∈ expectedHashes codec s ns coll ht orig :=
      mem_expectedHashes.mpr (mem_map.mpr ⟨w, mem_filter.mpr ⟨mem, by simp [purged]⟩, rfl⟩)
    simp [kept, expected]

theorem matchKeys_of_puts (honest : ∀ w ∈ orig.writes, keep w.key = false → purgedOnReceiver codec s ns coll ht w)
    (puts : ∀ w ∈ unpurgedWrites codec s ns coll ht orig, w.isKVWriteDelete = false)
    (uniq : ((unpurgedWrites codec s ns coll ht orig).map key).Nodup) :
    matchKeys codec (trimKeys keep orig).writes (expectedHashes codec s ns coll ht orig) =
      some (unpurgedWrites codec s ns coll ht orig, ∅) := by
  have unpurged := filter_expected honest
  rw [← unpurged]
  apply matchKeys_of_hashes
  · rw [unpurged]
    exact (nodup_keyHashes_iff free).mpr uniq
  · intro w mem v found
    obtain ⟨w', mem', same⟩ := get_expectedHashes found
    have expected : w ∈ unpurgedWrites codec s ns coll ht orig := by
      rw [← unpurged]
      exact mem_filter.mpr ⟨mem, by simp [mem_iff_isSome_getElem?, found]⟩
    obtain ⟨sameKey, sameValue⟩ := Prod.mk.inj same
    obtain rfl : w' = w := inj_on_of_nodup_map uniq mem' expected (free.hash_injective sameKey)
    have put := puts w' mem'
    simp only [isKVWriteDelete, Bool.or_eq_false_iff] at put
    rw [← sameValue, put.2]
    rfl
  · intro keyHash mem
    obtain ⟨w, expected, rfl⟩ := mem_map.mp (mem_expectedHashes.mp mem)
    rw [← unpurged] at expected
    exact mem_map_of_mem (mem_filter.mp expected).1

theorem acceptsHonest_of_cases (found : retrieveHashedColl rwset ns coll = some c) (covers : Covers codec c.hashedRwSet orig)
    (committed : ∀ h, hash = some h → h = codec.computeHash (codec.marshalKVRWSet orig))
    (cases : Reconcilable codec s ns coll ht hash orig) : AcceptsHonest codec s rwset ns coll hash ht orig := by
  intro supplied ⟨keep, honest, trimmed⟩
  subst trimmed
  rw [retrieveCollKVHashes_of_covers found covers]
  unfold validateAndRemovePurgedKeys
  simp only
  rw [← expectedHashes]
  split
  · rename_i empty
    exact ⟨_, rfl, (expectedHashes_isEmpty.mp empty).symm⟩
  · rename_i nonempty
    rw [expectedHashes_isEmpty] at nonempty
    split
    · -- Nothing is purged, so that the sender's data is the original write-set.
      rename_i whole
      simp only [Bool.and_eq_true, beq_iff_eq] at whole
      have unpurged := expectedHashes_size.mp whole.1.2
      rw [trimKeys_eq_self honest unpurged]
      obtain ⟨h, rfl⟩ := Option.isSome_iff_exists.mp whole.1.1
      refine ⟨_, if_pos (committed h rfl).symm, (unpurgedWrites_eq_self unpurged).symm⟩
    · rename_i notWhole
      rcases cases with nothing | ⟨isSome, unpurged, uniq⟩ | ⟨puts, uniq⟩
      · exact absurd nothing nonempty
      · apply absurd _ notWhole
        rw [trimKeys_eq_self honest unpurged]
        have full : orig.writes.length = (putAll (∅ : KVHashes) (orig.writes.map (writeHashes codec))).size := by
          have sizes := (length_eq_size_iff fun _ => mem_expected).mpr ((nodup_keyHashes_iff free).mpr uniq)
          rwa [length_map] at sizes
        simp only [Bool.and_eq_true, beq_iff_eq]
        exact ⟨⟨isSome, expectedHashes_size.mpr unpurged⟩, full⟩
      · have enough : (expectedHashes codec s ns coll ht orig).size ≤ (trimKeys keep orig).writes.length := by
          have few : (expectedHashes codec s ns coll ht orig).size ≤
              ((unpurgedWrites codec s ns coll ht orig).map fun w => codec.computeHash w.key).length :=
            size_le_length fun k mem => mem_expectedHashes.mp mem
          rw [length_map, ← filter_expected honest] at few
          exact few.trans (length_filter_le _ _)
        rw [if_neg (Nat.not_lt.mpr enough), matchKeys_of_puts free honest puts uniq]
        exact ⟨_, rfl, rfl⟩

theorem reconciledColl_exact_iff (found : retrieveHashedColl rwset ns coll = some c)
    (covers : Covers codec c.hashedRwSet orig)
    (committed : ∀ h, hash = some h → h = codec.computeHash (codec.marshalKVRWSet orig)) :
    AcceptsHonest codec s rwset ns coll hash ht orig ∧
        AcceptsOnlyHashed codec s rwset ns coll hash ht c.hashedRwSet ↔
      Reconcilable codec s ns coll ht hash orig := by
  constructor
  · intro ⟨accepts, _⟩
    exact cases_of_acceptsHonest free found covers accepts
  · intro cases
    exact ⟨acceptsHonest_of_cases free found covers committed cases, acceptsOnlyHashed free found covers committed⟩

end

def putAndDelete : PvtKVRWSet := ⟨[⟨[1], false, [7]⟩, ⟨[2], true, []⟩], []⟩

def putAndDeleteColl : CollHashedRwSet where
  collectionName := [99]
  pvtRwSetHash := some (plain.computeHash (plain.marshalKVRWSet putAndDelete))
  hashedRwSet :=
    { hashedReads := []
      hashedWrites := putAndDelete.writes.map fun w => newPvtKVWriteHash plain w.key w.value
      metadataWrites := [] }

def putAndDeleteTx : TxRwSet := ⟨[⟨[110], ⟨[], [], [], []⟩, [putAndDeleteColl]⟩]⟩

def purgedInStore (key : Bytes) : Store :=
  { Store.empty with
    purgeMarkersForRecon := (∅ : Map CollKey Height).insert ⟨[110], [99], plain.computeHash key⟩ ⟨3, 0⟩ }

theorem putAndDelete_covers : Covers plain putAndDeleteColl.hashedRwSet putAndDelete where
  writes := by decide
  metadataWrites := rfl
  deletes := by decide

theorem putAndDelete_found : retrieveHashedColl putAndDeleteTx [110] [99] = some putAndDeleteColl := by
  decide

theorem putAndDelete_rejected : HonestlyTrimmed Codec.plain (purgedInStore [1]) [110] [99] ⟨1, 0⟩ putAndDelete putAndDelete ∧
      validateAndRemovePurgedKeys Codec.plain (purgedInStore [1]) ⟨[99], putAndDelete⟩
        (retrieveCollKVHashes putAndDeleteTx [110] [99]) (getPvtDataHash putAndDeleteTx [110] [99]) [110] ⟨1, 0⟩ = none ∧
      unpurgedWrites Codec.plain (purgedInStore [1]) [110] [99] ⟨1, 0⟩ putAndDelete = [⟨[2], true, []⟩] := by
  refine ⟨⟨fun _ => true, by simp, by simp [trimKeys]⟩, ?_, ?_⟩
  · decide +kernel
  · decide +kernel

theorem putAndDelete_reconciled : AcceptsHonest Codec.plain (purgedInStore [2]) putAndDeleteTx [110] [99]
        (getPvtDataHash putAndDeleteTx [110] [99]) ⟨1, 0⟩ putAndDelete ∧
      AcceptsOnlyHashed Codec.plain (purgedInStore [2]) putAndDeleteTx [110] [99]
        (getPvtDataHash putAndDeleteTx [110] [99]) ⟨1, 0⟩ putAndDeleteColl.hashedRwSet := by
  apply (reconciledColl_exact_iff plain_collisionFree putAndDelete_found putAndDelete_covers ?_).mpr
  · have left : unpurgedWrites plain (purgedInStore [2]) [110] [99] ⟨1, 0⟩ putAndDelete = [⟨[1], false, [7]⟩] := by
      decide +kernel
    refine .inr (.inr ?_)
    rw [left]
    decide
  · intro h isHash
    exact (Option.some.inj isHash).symm

end Fabric.Proof.Private
