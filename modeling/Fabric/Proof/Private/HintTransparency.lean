import Fabric.Ledger.MetadataHint

/-! # The metadata hint is transparent

Whatever an open database stores with metadata is in a flagged namespace: the flags are written before the state of a
block. -/

namespace Fabric.Proof.Private

open Lib Fabric.Ledger Fabric.Ledger.PrivacyEnabledState Option
open List hiding getElem?_insert

variable {hint : Finset Bytes} {vdb : Map CompositeKey VersionedValue} {ns : Bytes} {encode : Bytes → Bytes}
  {db : ChannelDB} {hint' : Finset Bytes} {e : CompositeKey × VersionedValue} {updates : PrivacyUpdateBatch}
  {vv : VersionedValue}

def ChaincodeName (ns : Bytes) : Prop := 36 ∉ ns

/-- The chaincode namespaces under which an entry of the state database can be read are flagged. -/
def Flagged (hint : Finset Bytes) (stored : Bytes) : Prop :=
  ∀ ns, ChaincodeName ns → (stored = ns ∨ ∃ coll, stored = deriveHashedDataNs ns coll) → ns ∈ hint

def HintSound (hint : Finset Bytes) (vdb : Map CompositeKey VersionedValue) : Prop :=
  ∀ (k : CompositeKey) (vv : VersionedValue), vdb[k]? = some vv → vv.metadata.isSome → Flagged hint k.ns

theorem Flagged.mono {stored : Bytes} (flagged : Flagged hint stored) (grown : hint ⊆ hint') : Flagged hint' stored :=
  fun ns name readable => grown (flagged ns name readable)

theorem HintSound.mono (sound : HintSound hint vdb) (grown : hint ⊆ hint') : HintSound hint' vdb :=
  fun k vv found metadata => (sound k vv found metadata).mono grown

theorem HintSound.empty (hint : Finset Bytes) : HintSound hint ∅ := by
  intro k vv found
  simp at found

theorem HintSound.entry (sound : HintSound hint vdb) (flagged : (storedValue e.2).metadata.isSome → Flagged hint e.1.ns) :
    HintSound hint (applyEntry vdb e) := by
  intro k vv found metadata
  unfold applyEntry at found
  split at found
  · rw [getElem?_erase] at found
    split at found
    · cases found
    · exact sound k vv found metadata
  · rw [getElem?_insert] at found
    split at found
    · rename_i same
      obtain rfl := Std.compare_eq_iff_eq.mp same
      obtain rfl := some.inj found
      exact flagged metadata
    · exact sound k vv found metadata

theorem HintSound.entries {entries : List (CompositeKey × VersionedValue)}
    (flagged : ∀ e ∈ entries, (storedValue e.2).metadata.isSome → Flagged hint e.1.ns) (sound : HintSound hint vdb)
    : HintSound hint (entries.foldl applyEntry vdb) := by
  induction entries generalizing vdb with
  | nil => exact sound
  | cons e entries ih =>
    apply ih fun e mem => flagged e (mem_cons_of_mem _ mem)
    exact sound.entry (flagged e mem_cons_self)

theorem joined_inj {ns' rest rest' : Bytes} (name : ChaincodeName ns) (name' : ChaincodeName ns')
    (same : ns ++ 36 :: rest = ns' ++ 36 :: rest') : ns = ns' ∧ rest = rest' := by
  have first (ns rest : Bytes) (name : ChaincodeName ns) : (ns ++ 36 :: rest).takeWhile (· != 36) = ns := by
    rw [takeWhile_append_of_pos, takeWhile_cons_of_neg (by simp), append_nil]
    intro b mem
    simpa using fun isSep : b = 36 => name (isSep ▸ mem)
  have sameNs : ns = ns' := by rw [← first ns rest name, same, first ns' rest' name']
  subst sameNs
  exact ⟨rfl, by simpa using same⟩

theorem not_chaincodeName_joined (ns rest : Bytes) : ¬ ChaincodeName (ns ++ 36 :: rest) := by
  simp [ChaincodeName]

theorem flagged_pub (name : ChaincodeName ns) (mem : ns ∈ hint) : Flagged hint ns := by
  intro ns' _ readable
  rcases readable with rfl | ⟨coll, rfl⟩
  · exact mem
  · exact absurd name (by simp [deriveHashedDataNs, nsJoiner, ChaincodeName])

theorem flagged_pvt (hint : Finset Bytes) (name : ChaincodeName ns) (coll : Bytes) : Flagged hint (derivePvtDataNs ns coll) := by
  intro ns' name' readable
  simp only [derivePvtDataNs, deriveHashedDataNs, nsJoiner, pvtDataPrefix, hashDataPrefix, append_assoc, cons_append, nil_append] at readable
  rcases readable with rfl | ⟨coll', same⟩
  · exact absurd name' (not_chaincodeName_joined _ _)
  · have differ := (joined_inj name name' same).2
    simp at differ

theorem flagged_hashed (name : ChaincodeName ns) (mem : ns ∈ hint) (coll : Bytes) : Flagged hint (deriveHashedDataNs ns coll) := by
  intro ns' name' readable
  simp only [deriveHashedDataNs, nsJoiner, hashDataPrefix, append_assoc, cons_append, nil_append] at readable
  rcases readable with rfl | ⟨coll', same⟩
  · exact absurd name' (not_chaincodeName_joined _ _)
  · exact (joined_inj name name' same).1 ▸ mem

def NamesUpdates (updates : PrivacyUpdateBatch) : Prop :=
  (∀ k ∈ updates.pubUpdates.updates, ChaincodeName k.ns) ∧ (∀ k ∈ updates.pvtUpdates, ChaincodeName k.ns) ∧
    ∀ k ∈ updates.hashUpdates, ChaincodeName k.ns

theorem mem_of_addUpdates {derive : Bytes → Bytes → Bytes} {encodeKey : Bytes → Bytes}
    {combined : Updates CompositeKey} {updates : Updates CollKey} {k : CompositeKey}
    (found : (addUpdates derive encodeKey combined updates)[k]? = some vv) :
    (∃ key : CollKey, updates[key]? = some vv ∧ k.ns = derive key.ns key.coll) ∨ combined[k]? = some vv := by
  rw [addUpdates, get_putAll, or_eq_some_iff] at found
  rcases found with listed | ⟨_, kept⟩
  · obtain ⟨e, mem, same⟩ := List.mem_map.mp (mem_of_lastFor listed)
    obtain ⟨rfl, rfl⟩ := Prod.mk.inj same
    exact Or.inl ⟨e.1, mem_toList_iff_getElem?_eq_some.mp mem, rfl⟩
  · exact Or.inr kept

theorem flagged_of_update (names : NamesUpdates updates) (mem : e ∈ (combinedUpdates encode updates).toList)
    (metadata : (storedValue e.2).metadata.isSome) : Flagged (namespacesToFlag encode updates) e.1.ns := by
  have found := mem_toList_iff_getElem?_eq_some.mp mem
  have carried : e.2.metadata.isSome := by
    cases given : e.2.metadata <;> simp_all [storedValue]
  have inPub : e.1.ns ∈ namespacesToFlag encode updates := mem_pub_hint found carried
  rcases mem_of_addUpdates found with ⟨key, hashed, isNs⟩ | found
  · rw [isNs]
    exact flagged_hashed (names.2.2 key (mem_of_get hashed)) (mem_hashed_hint hashed carried) _
  · rcases mem_of_addUpdates found with ⟨key, pvt, isNs⟩ | pub
    · rw [isNs]
      exact flagged_pvt _ (names.2.1 key (mem_of_get pvt)) _
    · exact flagged_pub (names.1 _ (mem_of_get pub)) inPub

theorem cut_append (name : ChaincodeName ns) (rest : Bytes) : cut (nsJoiner ++ hashDataPrefix) (ns ++ rest) =
      (cut (nsJoiner ++ hashDataPrefix) rest).map fun parts => (ns ++ parts.1, parts.2) := by
  induction ns with
  | nil => simp
  | cons b ns ih =>
    simp only [ChaincodeName, mem_cons, not_or] at name
    have notHere : ¬ (nsJoiner ++ hashDataPrefix).isPrefixOf (b :: (ns ++ rest)) := by
      simp [nsJoiner, hashDataPrefix, List.isPrefixOf, name.1]
    rw [cons_append, cut, if_neg notHere, ih name.2, Option.map_map]
    rfl

def NamedRecord : SnapshotEntry → Prop
  | .pubState ns _ => ChaincodeName ns
  | .pvtStateHash _ _ => True

theorem flagged_of_next {entry : SnapshotEntry} (named : NamedRecord entry) {kv : ImportedKV}
    (read : entry.next encode = .ok kv) (mem : kv.ns ∈ hint) : Flagged hint kv.key.ns := by
  cases entry with
  | pubState ns r =>
    cases read
    exact flagged_pub named mem
  | pvtStateHash hashedDataNs r =>
    obtain ⟨⟨ns, coll⟩, decoded, result⟩ := bind_eq_ok.mp read
    cases result
    unfold decodeHashedDataNsColl at decoded
    intro ns' name readable
    rcases readable with rfl | ⟨coll', rfl⟩
    · have whole := cut_append name []
      simp only [append_nil, cut, map_none] at whole
      simp [whole] at decoded
    · have parts : cut (nsJoiner ++ hashDataPrefix) (deriveHashedDataNs ns' coll') = some (ns', coll') := by
        simp only [deriveHashedDataNs, append_assoc]
        rw [cut_append name]
        simp [nsJoiner, hashDataPrefix, cut, List.isPrefixOf]
      simp only [parts] at decoded
      split at decoded
      · cases decoded
      · cases decoded
        exact mem

theorem flagged_of_import {snapshot : List SnapshotEntry} (named : ∀ e ∈ snapshot, NamedRecord e)
    {kvs : List ImportedKV} (read : snapshot.mapM (SnapshotEntry.next encode) = .ok kvs) :
    ∀ kv ∈ kvs, (storedValue kv.value).metadata.isSome → Flagged (namespacesThatUseMetadata kvs) kv.key.ns := by
  intro kv mem metadata
  obtain ⟨e, isEntry, next⟩ := exists_left_of_mem (mapM_eq_ok.mp read) mem
  apply flagged_of_next (named e isEntry) next
  simp only [namespacesThatUseMetadata, List.mem_toFinset, List.mem_map, mem_filter]
  exact ⟨kv, ⟨mem, metadata⟩, rfl⟩

def NamesOf : ChannelDB → Event → Prop
  | _, .applyPrivacyAwareUpdates updates | _, .interruptedUpdates updates _ => NamesUpdates updates
  | _, .createFromSnapshot snapshot => ∀ e ∈ snapshot, NamedRecord e
  | _, _ => True

structure HintInv (db : ChannelDB) : Prop where
  sound : db.status ≠ .underConstruction ∨ db.cache.isSome → HintSound db.bookkeeper db.vdb
  cached : ∀ cache ∈ db.cache, cache = db.bookkeeper

theorem HintInv.getDBHandle (sound : HintSound db.bookkeeper db.vdb) : HintInv db.getDBHandle where
  sound _ := sound
  cached _ isCache := (some.inj isCache).symm

theorem HintInv.updated (inv : HintInv db) {cache : Finset Bytes} (isCache : db.cache = some cache)
    (names : NamesUpdates updates) {written : List (CompositeKey × VersionedValue)}
    (entries : ∀ e ∈ written, e ∈ (combinedUpdates encode updates).toList) :
    HintInv ((db.setMetadataUsedFlag cache (namespacesToFlag encode updates)).applyUpdates written) := by
  obtain rfl := inv.cached cache isCache
  have whole : db.bookkeeper ∪ (namespacesToFlag encode updates \ db.bookkeeper) =
      db.bookkeeper ∪ namespacesToFlag encode updates := Finset.union_sdiff_self_eq_union
  constructor
  · intro _
    apply HintSound.entries
    · intro e mem metadata
      apply (flagged_of_update names (entries e mem) metadata).mono
      exact Finset.subset_union_right.trans whole.ge
    · exact (inv.sound (Or.inr (by simp [isCache]))).mono Finset.subset_union_left
  · intro cache isCache
    rw [← some.inj isCache]
    exact whole.symm

theorem HintInv.closed (inv : HintInv db) : HintInv { db with cache := none } where
  sound opened := inv.sound (Or.inl (by simpa using opened))
  cached := nofun

theorem HintInv.step {after : ChannelDB} {event : Event} (inv : HintInv db) (names : NamesOf db event)
    (taken : db.step encode event = some after) : HintInv after := by
  cases event with
  | createFromGenesisBlock =>
    obtain ⟨isAbsent, made⟩ := ite_none_right_eq_some.mp taken
    exact some.inj made ▸ HintInv.getDBHandle (inv.sound (Or.inl (by simp [isAbsent])))
  | createFromSnapshot snapshot =>
    simp only [ChannelDB.step] at taken
    split at taken
    · rename_i kvs isAbsent read
      obtain rfl := some.inj taken
      apply HintInv.getDBHandle
      apply HintSound.entries
      · intro e mem metadata
        obtain ⟨kv, isKv, rfl⟩ := List.mem_map.mp mem
        exact (flagged_of_import names read kv isKv metadata).mono Finset.subset_union_right
      · exact (inv.sound (Or.inl (by simp [isAbsent]))).mono Finset.subset_union_left
    · cases taken
  | interruptedImport imported =>
    simp only [ChannelDB.step] at taken
    split at taken
    · obtain rfl := some.inj taken
      exact ⟨by simp, nofun⟩
    · cases taken
  | updateLedgerStatus =>
    obtain ⟨⟨_, opened⟩, made⟩ := ite_none_right_eq_some.mp taken
    exact some.inj made ▸ ⟨fun _ => inv.sound (Or.inr opened), inv.cached⟩
  | openLedger =>
    obtain ⟨⟨isActive, _⟩, made⟩ := ite_none_right_eq_some.mp taken
    exact some.inj made ▸ HintInv.getDBHandle (inv.sound (Or.inl (by simp [isActive])))
  | applyPrivacyAwareUpdates updates =>
    obtain ⟨cache, isCache, rfl⟩ := map_eq_some_iff.mp taken
    exact inv.updated isCache names fun _ mem => mem
  | interruptedUpdates updates written =>
    obtain ⟨entries, taken⟩ := ite_none_right_eq_some.mp taken
    obtain ⟨cache, isCache, rfl⟩ := map_eq_some_iff.mp taken
    exact (inv.updated isCache names entries).closed
  | close =>
    obtain rfl := some.inj taken
    exact inv.closed
  | interruptedCleanup =>
    obtain ⟨_, made⟩ := ite_none_right_eq_some.mp taken
    exact some.inj made ▸ ⟨fun _ => .empty _, nofun⟩
  | runCleanup =>
    obtain ⟨_, made⟩ := ite_none_right_eq_some.mp taken
    exact some.inj made ▸ ⟨fun _ => .empty _, nofun⟩

theorem metadata_of_sound (sound : HintSound hint vdb) (name : ChaincodeName ns) (k : CompositeKey)
    (readable : k.ns = ns ∨ ∃ coll, k.ns = deriveHashedDataNs ns coll) :
    (if ns ∈ hint then vdb[k]?.bind (·.metadata) else none) = vdb[k]?.bind (·.metadata) := by
  by_cases flagged : ns ∈ hint
  · rw [if_pos flagged]
  · rw [if_neg flagged]
    cases found : vdb[k]? with
    | none => rfl
    | some vv =>
      cases metadata : vv.metadata with
      | none => exact metadata.symm
      | some _ => exact absurd (sound k vv found (by simp [metadata]) ns name readable) flagged

theorem metadataHint_transparent (encode : Bytes → Bytes) (events : List Event) (db : ChannelDB) (cache : Finset Bytes)
    (run : Reaches (ChannelDB.step encode) NamesOf .empty events db) (isOpen : db.cache = some cache) (ns : Bytes)
    (name : ChaincodeName ns) :
    (∀ key, db.getStateMetadata cache ns key = db.vdb[(⟨ns, key⟩ : CompositeKey)]?.bind (·.metadata)) ∧
    ∀ coll keyHash, db.getPrivateDataMetadataByHash encode cache ns coll keyHash =
      db.vdb[(⟨deriveHashedDataNs ns coll, encode keyHash⟩ : CompositeKey)]?.bind (·.metadata) := by
  have inv : HintInv db := by
    apply run.invariant fun _ db => HintInv db
    · exact ⟨fun _ => .empty _, nofun⟩
    · intro _ db event after inv names taken
      exact inv.step names taken
  obtain rfl := inv.cached cache isOpen
  have sound := inv.sound (Or.inr (by simp [isOpen]))
  constructor
  · intro key
    exact metadata_of_sound sound name ⟨ns, key⟩ (Or.inl rfl)
  · intro coll keyHash
    exact metadata_of_sound sound name ⟨_, _⟩ (Or.inr ⟨coll, rfl⟩)

def hashWithMetadata : SnapshotEntry := .pvtStateHash (deriveHashedDataNs [1] [2]) ⟨[3], [4], [9], ⟨5, 0⟩⟩

theorem importedMetadata_read : ∃ db, Reaches (ChannelDB.step id) NamesOf .empty
    [.createFromSnapshot [hashWithMetadata], .updateLedgerStatus, .close, .openLedger] db ∧
      db.getPrivateDataMetadataByHash id {[1]} [1] [2] [3] = some [9] := by
  have run : Reaches (ChannelDB.step id) NamesOf .empty
      [.createFromSnapshot [hashWithMetadata], .updateLedgerStatus, .close, .openLedger]
      ⟨importState ∅ [⟨[1], ⟨deriveHashedDataNs [1] [2], [3]⟩, ⟨some [4], some [9], ⟨5, 0⟩⟩⟩], {[1]}, .active, some {[1]}⟩ := by
    refine .next (.next (.next (.next .start ?_ rfl) trivial rfl) trivial rfl) trivial rfl
    simp [NamesOf, hashWithMetadata, NamedRecord]
  refine ⟨_, run, ?_⟩
  rw [(metadataHint_transparent id _ _ {[1]} run rfl [1] (by simp [ChaincodeName])).2]
  decide +kernel

end Fabric.Proof.Private
