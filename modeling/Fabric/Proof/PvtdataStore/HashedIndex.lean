import Fabric.Proof.PvtdataStore.StoreOps

/-! # The index of key hashes -/

namespace Fabric.Proof.PvtdataStore

open Lib Fabric.Ledger Fabric.Ledger.Validation Fabric.Ledger.PurgeMgmt Fabric.Ledger.PvtdataStorage Option PurgeUpdatesProcessor PvtdataStore
open List hiding ext_getElem? getElem?_insert mem_union_iff

variable {e : HashedIndexKey × Bytes} {store base : Store} {marks : List (CollKey × Height)}
  {sp : Store × BatchedProcessor}
  {entries : List (DataKey × PvtKVRWSet)} {w : KVWrite} {purger : Option Purger} {marker : CollKey × Height}
  {q : BatchedProcessor}

def DistinctKeyHashes (codec : Codec) (ws : PvtKVRWSet) : Prop :=
  (ws.writes.map fun w => codec.computeHash w.key).Nodup

instance (codec : Codec) (ws : PvtKVRWSet) : Decidable (DistinctKeyHashes codec ws) :=
  inferInstanceAs (Decidable (List.Nodup _))

def Indexed (codec : Codec) (s : Store) (k : HashedIndexKey) (key : Bytes) : Prop :=
  ∃ ws, s.dataEntries[k.dataKey]? = some ws ∧ (∃ w ∈ ws.writes, w.key = key) ∧ codec.computeHash key = k.pvtkeyHash

def IndexExact (codec : Codec) (s : Store) : Prop :=
  ∀ (k : HashedIndexKey) (key : Bytes), s.hashedIndexEntries[k]? = some key ↔ Indexed codec s k key

structure IndexInv (codec : Codec) (s : Store) : Prop where
  exact : IndexExact codec s
  distinct : ∀ (k : DataKey) (ws : PvtKVRWSet), s.dataEntries[k]? = some ws → DistinctKeyHashes codec ws

section

variable {codec : Codec} {s s' : Store}

theorem mem_prepareHashedIndexEntries_iff {k : HashedIndexKey} {key : Bytes} : (k, key) ∈ prepareHashedIndexEntries codec entries ↔
      ∃ ws, (k.dataKey, ws) ∈ entries ∧ (∃ w ∈ ws.writes, w.key = key) ∧ codec.computeHash key = k.pvtkeyHash := by
  simp only [prepareHashedIndexEntries, mem_flatMap, List.mem_map, hashedIndexEntry, Prod.mk.injEq]
  constructor
  · rintro ⟨⟨d, ws⟩, mem, w, written, rfl, rfl⟩
    exact ⟨ws, mem, ⟨w, written, rfl⟩, rfl⟩
  · rintro ⟨ws, mem, ⟨w, written, rfl⟩, hash⟩
    refine ⟨(k.dataKey, ws), mem, w, written, ?_, rfl⟩
    rw [hash]
    rfl

theorem key_eq_of_hash {ws : PvtKVRWSet} (distinct : DistinctKeyHashes codec ws) {w' : KVWrite} (mem : w ∈ ws.writes)
    (mem' : w' ∈ ws.writes) (same : codec.computeHash w.key = codec.computeHash w'.key) : w = w' :=
  inj_on_of_nodup_map distinct mem mem' same

theorem IndexInv.add (inv : IndexInv codec s) (entries : List (DataKey × PvtKVRWSet)) (data : s'.dataEntries = putAll s.dataEntries entries)
    (index : s'.hashedIndexEntries = putAll s.hashedIndexEntries (prepareHashedIndexEntries codec entries))
    (keys : (entries.map (·.1)).Nodup) (fresh : ∀ d ∈ entries, d.1 ∉ s.dataEntries)
    (distinct : ∀ d ∈ entries, DistinctKeyHashes codec d.2) : IndexInv codec s' := by
  have stored : ∀ k : DataKey, s'.dataEntries[k]? = (lastFor k entries).or s.dataEntries[k]? := by
    intro k
    rw [data, get_putAll]
  constructor
  · intro k key
    rw [index, get_putAll]
    by_cases new : ∃ ws, (k.dataKey, ws) ∈ entries
    · obtain ⟨ws, mem⟩ := new
      have absent : s.hashedIndexEntries[k]? = none := by
        refine eq_none_iff_forall_ne_some.mpr fun key' found => ?_
        obtain ⟨ws', before, _⟩ := (inv.exact k key').mp found
        exact fresh _ mem (mem_of_get before)
      have functional : ∀ v v', (k, v) ∈ prepareHashedIndexEntries codec entries →
          (k, v') ∈ prepareHashedIndexEntries codec entries → v = v' := by
        intro v v' left right
        obtain ⟨ws₁, mem₁, ⟨w, written, rfl⟩, hash⟩ := mem_prepareHashedIndexEntries_iff.mp left
        obtain ⟨ws₂, mem₂, ⟨w', written', rfl⟩, hash'⟩ := mem_prepareHashedIndexEntries_iff.mp right
        obtain rfl : ws₁ = ws₂ := by
          have := inj_on_of_nodup_map keys mem₁ mem₂ rfl
          exact (Prod.mk.inj this).2
        rw [key_eq_of_hash (distinct _ mem₁) written written' (hash.trans hash'.symm)]
      rw [absent, or_none, lastFor_eq_some_iff functional, mem_prepareHashedIndexEntries_iff]
      simp only [Indexed, stored, lastFor_of_mem keys mem, some_or, some.injEq]
      constructor
      · rintro ⟨ws', mem', written⟩
        have := inj_on_of_nodup_map keys mem' mem rfl
        exact ⟨ws', (Prod.mk.inj this).2.symm, written⟩
      · rintro ⟨_, rfl, written⟩
        exact ⟨ws, mem, written⟩
    · have noIndex : lastFor k (prepareHashedIndexEntries codec entries) = none := by
        refine lastFor_eq_none.mpr fun v mem => new ?_
        obtain ⟨ws, listed, _⟩ := mem_prepareHashedIndexEntries_iff.mp mem
        exact ⟨ws, listed⟩
      have noData : lastFor k.dataKey entries = none := lastFor_eq_none.mpr fun ws mem => new ⟨ws, mem⟩
      simp only [noIndex, none_or, Indexed, stored, noData]
      exact inv.exact k key
  · intro k ws found
    rw [stored] at found
    rcases or_eq_some_iff.mp found with added | ⟨_, before⟩
    · exact distinct _ (mem_of_lastFor added)
    · exact inv.distinct k ws before

theorem IndexInv.purgeExpiryEntry (inv : IndexInv codec s) (e : ExpiryInfoKey × ExpiryData) :
    IndexInv codec (s.purgeExpiryEntry codec e) := by
  have stored : ∀ k : DataKey, (s.purgeExpiryEntry codec e).dataEntries[k]? =
      if k ∈ e.2.dataKeys e.1.committingBlk then none else s.dataEntries[k]? := fun k => get_eraseAll _ _ k
  constructor
  · intro k key
    have erased : k ∈ (prepareHashedIndexEntries codec (s.retrieveDataEntries (e.2.dataKeys e.1.committingBlk))).map (·.1) ↔
        k.dataKey ∈ e.2.dataKeys e.1.committingBlk ∧ ∃ key, (∃ w ∈ (s.dataEntries[k.dataKey]?.getD ⟨[], []⟩).writes,
          w.key = key) ∧ codec.computeHash key = k.pvtkeyHash := by
      simp only [List.mem_map, Prod.exists, exists_and_right, exists_eq_right, mem_prepareHashedIndexEntries_iff,
        Store.retrieveDataEntries, Prod.mk.injEq]
      constructor
      · rintro ⟨key, _, ⟨k', listed, rfl, rfl⟩, written⟩
        exact ⟨listed, key, written⟩
      · rintro ⟨listed, key, written⟩
        exact ⟨key, _, ⟨k.dataKey, listed, rfl, rfl⟩, written⟩
    have index : (s.purgeExpiryEntry codec e).hashedIndexEntries[k]? =
        if k ∈ (prepareHashedIndexEntries codec (s.retrieveDataEntries (e.2.dataKeys e.1.committingBlk))).map (·.1) then none
        else s.hashedIndexEntries[k]? := get_eraseAll _ _ k
    rw [index]
    simp only [Indexed, stored]
    by_cases listed : k.dataKey ∈ e.2.dataKeys e.1.committingBlk
    · simp only [listed, ↓reduceIte, reduceCtorEq, false_and, exists_false, iff_false]
      intro found
      split at found
      · cases found
      · rename_i kept
        obtain ⟨ws, data, written⟩ := (inv.exact k key).mp found
        exact kept (erased.mpr ⟨listed, key, by simpa [data] using written⟩)
    · rw [if_neg fun mem => listed (erased.mp mem).1]
      simpa [listed, Indexed] using inv.exact k key
  · intro k ws found
    rw [stored] at found
    split at found
    · cases found
    · exact inv.distinct k ws found

def purgeIndexEntry (s : Store) (e : HashedIndexKey × Bytes) : Store :=
  let collWS := s.dataEntries[e.1.dataKey]?.getD ⟨[], []⟩
  { s with
    dataEntries := s.dataEntries.insert e.1.dataKey { collWS with writes := collWS.writes.eraseP (·.key == e.2) }
    hashedIndexEntries := s.hashedIndexEntries.erase e.1 }

theorem eraseP_eq_filter {writes : List KVWrite} (distinct : (writes.map fun w => codec.computeHash w.key).Nodup) (mem : w ∈ writes) :
    writes.eraseP (·.key == w.key) = writes.filter fun x => codec.computeHash x.key ≠ codec.computeHash w.key := by
  induction writes with
  | nil => cases mem
  | cons a rest ih =>
    obtain ⟨fresh, distinct⟩ := nodup_cons.mp distinct
    by_cases same : a.key = w.key
    · rw [eraseP_cons_of_pos (by simp [same]), filter_cons_of_neg (by simp [same])]
      refine (filter_eq_self.mpr fun x later => ?_).symm
      rw [← same]
      simp only [ne_eq, decide_not, Bool.not_eq_eq_eq_not, Bool.not_true, decide_eq_false_iff_not]
      exact fun hash => fresh (List.mem_map.mpr ⟨x, later, hash⟩)
    · have inRest : w ∈ rest := by
        rcases mem_cons.mp mem with rfl | later
        · exact absurd rfl same
        · exact later
      have different : codec.computeHash a.key ≠ codec.computeHash w.key :=
        fun hash => fresh (List.mem_map.mpr ⟨w, inRest, hash.symm⟩)
      rw [eraseP_cons_of_neg (by simp [same]), filter_cons_of_pos (by simp [different]), ih distinct inRest]

theorem IndexInv.purgeIndexEntry (inv : IndexInv codec s) (found : s.hashedIndexEntries[e.1]? = some e.2)
    : IndexInv codec (purgeIndexEntry s e) := by
  obtain ⟨k, key⟩ := e
  obtain ⟨ws, data, ⟨w, written, rfl⟩, hash⟩ := (inv.exact k key).mp found
  have distinct := inv.distinct _ ws data
  have trimmed : (purgeIndexEntry s (k, w.key)).dataEntries = s.dataEntries.insert k.dataKey
      { ws with writes := ws.writes.filter fun x => codec.computeHash x.key ≠ codec.computeHash w.key } := by
    simp [purgeIndexEntry, data, eraseP_eq_filter distinct written]
  have stored : ∀ d : DataKey, (purgeIndexEntry s (k, w.key)).dataEntries[d]? = if k.dataKey = d then
      some { ws with writes := ws.writes.filter fun x => codec.computeHash x.key ≠ codec.computeHash w.key }
      else s.dataEntries[d]? := by
    intro d
    rw [trimmed]
    simp [get_insert]
  constructor
  · intro k' key'
    have index : (purgeIndexEntry s (k, w.key)).hashedIndexEntries[k']? = if k = k' then none else s.hashedIndexEntries[k']? := by
      simp [purgeIndexEntry, get_erase]
    rw [index]
    simp only [Indexed, stored]
    by_cases sameData : k.dataKey = k'.dataKey
    · have before := inv.exact k' key'
      simp only [Indexed, ← sameData, data, some.injEq, exists_eq_left'] at before
      simp only [sameData, ↓reduceIte, some.injEq, exists_eq_left', mem_filter, decide_eq_true_eq]
      by_cases same : k = k'
      · subst same
        simp only [↓reduceIte, reduceCtorEq, false_iff]
        rintro ⟨⟨x, ⟨_, different⟩, rfl⟩, hash'⟩
        exact different (hash'.trans hash.symm)
      · rw [if_neg same, before]
        constructor
        · rintro ⟨⟨x, mem, rfl⟩, hash'⟩
          refine ⟨⟨x, ⟨mem, fun hashes => same ?_⟩, rfl⟩, hash'⟩
          have hashes : k.pvtkeyHash = k'.pvtkeyHash := by rw [← hash, ← hash', hashes]
          cases k
          cases k'
          simp_all [HashedIndexKey.dataKey]
        · rintro ⟨⟨x, ⟨mem, _⟩, rfl⟩, hash'⟩
          exact ⟨⟨x, mem, rfl⟩, hash'⟩
    · have different : k ≠ k' := fun same => sameData (by rw [same])
      rw [if_neg different, if_neg sameData]
      exact inv.exact k' key'
  · intro d ws' after
    rw [stored] at after
    split at after
    · obtain rfl := some.inj after
      exact distinct.sublist (List.Sublist.map _ filter_sublist)
    · exact inv.distinct d ws' after

end

section

variable {codec : Codec} {s s' : Store} {u : PurgeUpdatesProcessor}

theorem commitPendingChanges_new (s : Store) : newPurgeUpdatesProcessor.commitPendingChanges s = s := by
  have data : s.dataEntries ∪ ∅ = s.dataEntries :=
    ext_getElem? fun k => by simp [getElem?_union]
  simp [commitPendingChanges, newPurgeUpdatesProcessor, eraseAll, data]

theorem commitPendingChanges_process (u : PurgeUpdatesProcessor) (s : Store) (e : HashedIndexKey × Bytes) :
    (u.process s e).commitPendingChanges s = purgeIndexEntry (u.commitPendingChanges s) e := by
  have found : (s.dataEntries ∪ u.pvtWrites)[e.1.dataKey]? = u.pvtWrites[e.1.dataKey]?.or s.dataEntries[e.1.dataKey]? :=
    getElem?_union
  have data : ∀ ws, s.dataEntries ∪ u.pvtWrites.insert e.1.dataKey ws = (s.dataEntries ∪ u.pvtWrites).insert e.1.dataKey ws := by
    intro ws
    refine ext_getElem? fun k => ?_
    simp only [getElem?_union, getElem?_insert]
    split <;> simp
  simp [commitPendingChanges, process, purgeIndexEntry, data, found, eraseAll]

theorem commitPendingChanges_addProcessed (u : PurgeUpdatesProcessor) (s : Store) (k : CollKey) :
    (u.addProcessedPurgeMarkerForDeletion k).commitPendingChanges s =
      { u.commitPendingChanges s with purgeMarkers := (u.commitPendingChanges s).purgeMarkers.erase k } := by
  simp [commitPendingChanges, addProcessedPurgeMarkerForDeletion, eraseAll]

theorem pending_putAll {n : Nat} (below : BatchBelow n u) {index : List (HashedIndexKey × Bytes)}
    (newData : ∀ d ∈ entries, n ≤ d.1.blkNum) (newIndex : ∀ e ∈ index, n ≤ e.1.blkNum)
    (data : s'.dataEntries = putAll s.dataEntries entries) (indexed : s'.hashedIndexEntries = putAll s.hashedIndexEntries index) :
    (u.commitPendingChanges s').dataEntries = putAll (u.commitPendingChanges s).dataEntries entries ∧
      (u.commitPendingChanges s').hashedIndexEntries = putAll (u.commitPendingChanges s).hashedIndexEntries index := by
  constructor
  · refine ext_getElem? fun k => ?_
    simp only [commitPendingChanges, data, get_putAll, getElem?_union]
    cases new : lastFor k entries with
    | none => simp
    | some ws =>
      have absent : u.pvtWrites[k]? = none := by
        refine eq_none_iff_forall_ne_some.mpr fun ws' found => ?_
        have old := below.written k (mem_of_get found)
        exact absurd (newData _ (mem_of_lastFor new)) (Nat.not_le.mpr old)
      simp [absent]
  · refine ext_getElem? fun k => ?_
    simp only [commitPendingChanges, indexed, get_putAll, get_eraseAll]
    cases new : lastFor k index with
    | none => simp
    | some key =>
      have kept : k ∉ u.hashedIndexDeletions := by
        intro deleted
        have old := below.deleted k deleted
        exact absurd (newIndex _ (mem_of_lastFor new)) (Nat.not_le.mpr old)
      simp [kept]

end

def collKey (k : HashedIndexKey) : CollKey := ⟨k.ns, k.coll, k.pvtkeyHash⟩

structure PendingKept (codec : Codec) (s : Store) (marks : List (CollKey × Height))
    (current : Option ((CollKey × Height) × List (HashedIndexKey × Bytes))) (q : BatchedProcessor) : Prop where
  index : IndexInv codec (q.updates.commitPendingChanges s)
  written : ∀ k ∈ q.updates.pvtWrites, k ∈ s.dataEntries
  distinct : (marks.map (·.1)).Nodup
  deleted : ∀ k ∈ q.updates.hashedIndexDeletions, collKey k ∉ marks.map (·.1)
  scanned : ∀ m entries, current = some (m, entries) → m.1 ∉ marks.map (·.1) ∧ (entries.map (·.1)).Nodup ∧
    ∀ e ∈ entries, (q.updates.commitPendingChanges s).hashedIndexEntries[e.1]? = some e.2 ∧ collKey e.1 = m.1

structure IndexKept (codec : Codec) (t : Threads) : Prop where
  stored : IndexInv codec t.store
  pending : ∀ marks current q, t.purger = some (.marking marks current q) → PendingKept codec t.store marks current q

section

variable {conf : StoreConf} {t t' : Threads}

theorem IndexKept.writeBatch (kept : IndexKept conf.codec t) (p : ElgProc) : IndexKept conf.codec (t.writeBatch p) where
  stored := { kept.stored with }
  pending marks current q running :=
    have before := kept.pending marks current q running
    { before with index := { before.index with } }

theorem IndexKept.ofStored (stored : IndexInv conf.codec store) (idle : ∀ marks current q, purger ≠ some (.marking marks current q)) :
    IndexKept conf.codec { t with store := store, purger := purger } :=
  ⟨stored, fun marks current q running => absurd running (idle marks current q)⟩

theorem PendingKept.process {codec : Codec} {s : Store} {entries : List (HashedIndexKey × Bytes)}
    (kept : PendingKept codec s marks (some (marker, e :: entries)) q) (conf : StoreConf) :
    PendingKept codec s marks (some (marker, entries)) (q.process conf s e) := by
  obtain ⟨notListed, distinct, found⟩ := kept.scanned _ _ rfl
  obtain ⟨here, later⟩ := forall_mem_cons.mp found
  obtain ⟨fresh, distinct⟩ := nodup_cons.mp distinct
  have effect : (q.process conf s e).updates.commitPendingChanges s = purgeIndexEntry (q.updates.commitPendingChanges s) e :=
    commitPendingChanges_process _ _ _
  refine ⟨?_, ?_, kept.distinct, ?_, ?_⟩
  · rw [effect]
    exact kept.index.purgeIndexEntry here.1
  · intro k mem
    rcases mem_insert.mp mem with same | before
    · obtain ⟨ws, found, _⟩ := (kept.index.exact e.1 e.2).mp here.1
      rw [← Std.LawfulEqCmp.eq_of_compare same]
      rcases mem_union_iff.mp (mem_of_get found) with stored | pending
      · exact stored
      · exact kept.written _ pending
    · exact kept.written k before
  · intro k mem
    rcases mem_append.mp mem with before | last
    · exact kept.deleted k before
    · rw [mem_singleton.mp last, here.2]
      exact notListed
  · rintro _ _ ⟨⟩
    refine ⟨notListed, distinct, fun x mem => ⟨?_, (later x mem).2⟩⟩
    have different : e.1 ≠ x.1 := fun same => fresh (List.mem_map.mpr ⟨x, mem, same.symm⟩)
    rw [effect]
    simp only [purgeIndexEntry, get_erase, different, ↓reduceIte]
    exact (later x mem).1

theorem PendingKept.flush {codec : Codec} {s : Store} {current : Option ((CollKey × Height) × List (HashedIndexKey × Bytes))}
    (kept : PendingKept codec s marks current q) : PendingKept codec (q.updates.commitPendingChanges s) marks current q.written := by
  have effect : q.written.updates.commitPendingChanges (q.updates.commitPendingChanges s) = q.updates.commitPendingChanges s :=
    commitPendingChanges_new _
  refine ⟨?_, by simp [BatchedProcessor.written, newPurgeUpdatesProcessor], kept.distinct, ?_, ?_⟩
  · rw [effect]
    exact kept.index
  · intro k mem
    simp [BatchedProcessor.written, newPurgeUpdatesProcessor] at mem
  · rw [effect]
    exact kept.scanned

theorem IndexKept.purgerStepped (kept : IndexKept conf.codec t) {p : Purger} (running : t.purger = some p)
    (moved : PurgerMoved conf t.store p store purger) : IndexKept conf.codec { t with store := store, purger := purger } := by
  cases moved with
  | expired => exact .ofStored (kept.stored.purgeExpiryEntry _) (by rintro _ _ _ ⟨⟩)
  | opened =>
    refine ⟨kept.stored, ?_⟩
    rintro _ _ _ ⟨⟩
    refine ⟨?_, by simp [newBatchedProcessor, newPurgeUpdatesProcessor], nodup_keys _,
      by simp [newBatchedProcessor, newPurgeUpdatesProcessor], by rintro _ _ ⟨⟩⟩
    rw [newBatchedProcessor, commitPendingChanges_new]
    exact kept.stored
  | @scanned marker marks q =>
    refine ⟨kept.stored, ?_⟩
    rintro _ _ _ ⟨⟩
    have before := kept.pending _ _ _ running
    obtain ⟨fresh, distinct⟩ := nodup_cons.mp before.distinct
    refine ⟨before.index, before.written, distinct, fun k mem listed => before.deleted k mem (mem_cons_of_mem _ listed), ?_⟩
    rintro _ _ ⟨⟩
    refine ⟨fresh, ?_, fun e mem => ?_⟩
    · exact (nodup_keys t.store.hashedIndexEntries).sublist (List.Sublist.map _ filter_sublist)
    · obtain ⟨found, isMarker, _⟩ := mem_hashedIndexRange mem
      refine ⟨?_, isMarker⟩
      have notDeleted : e.1 ∉ q.updates.hashedIndexDeletions := by
        intro deleted
        refine before.deleted _ deleted ?_
        rw [show collKey e.1 = marker.1 from isMarker]
        exact mem_cons_self
      simp only [commitPendingChanges, get_eraseAll, notDeleted, ↓reduceIte]
      exact found
  | processed =>
    refine ⟨kept.stored, ?_⟩
    rintro _ _ _ ⟨⟩
    exact (kept.pending _ _ _ running).process conf
  | flushed =>
    have after := ((kept.pending _ _ _ running).process conf).flush
    refine ⟨?_, ?_⟩
    · exact ((kept.pending _ _ _ running).process conf).index
    · rintro _ _ _ ⟨⟩
      exact after
  | @markerDone marker marks q =>
    refine ⟨kept.stored, ?_⟩
    rintro _ _ _ ⟨⟩
    have before := kept.pending _ _ _ running
    refine ⟨?_, before.written, before.distinct, before.deleted, by rintro _ _ ⟨⟩⟩
    rw [commitPendingChanges_addProcessed]
    exact { before.index with }
  | finished => exact .ofStored (kept.pending _ _ _ running).index (by rintro _ _ _ ⟨⟩)

theorem IndexKept.committed (kept : IndexKept conf.codec t) (below : Below t) {pvtData : List TxPvtData}
    {missing : TxMissingPvtData} {marks : List PurgeMarker} {scheduled : List Nat}
    (committed : Committed conf.codec conf.btlPolicy t.store pvtData missing marks store)
    (keys : ((prepareDataEntries t.store.nextBlockNum pvtData).map (·.1)).Nodup)
    (distinct : ∀ d ∈ prepareDataEntries t.store.nextBlockNum pvtData, DistinctKeyHashes conf.codec d.2) :
    IndexKept conf.codec { t with store := store, validated := false, scheduledPurges := scheduled } := by
  have newData : ∀ d ∈ prepareDataEntries t.store.nextBlockNum pvtData, t.store.nextBlockNum ≤ d.1.blkNum :=
    fun d mem => (blkNum_of_mem_prepareDataEntries mem).ge
  have newIndex : ∀ e ∈ prepareHashedIndexEntries conf.codec (prepareDataEntries t.store.nextBlockNum pvtData),
      t.store.nextBlockNum ≤ e.1.blkNum := by
    intro e mem
    obtain ⟨ws, listed, _⟩ := mem_prepareHashedIndexEntries_iff.mp mem
    exact newData _ listed
  have fresh : ∀ {m : Map DataKey PvtKVRWSet}, (∀ k ∈ m, k.blkNum < t.store.nextBlockNum) →
      ∀ d ∈ prepareDataEntries t.store.nextBlockNum pvtData, d.1 ∉ m :=
    fun bounded d mem stored => absurd (newData d mem) (Nat.not_le.mpr (bounded _ stored))
  refine ⟨kept.stored.add _ committed.dataEntries committed.hashedIndexEntries keys (fresh below.data) distinct, ?_⟩
  intro ms current q running
  have before := kept.pending ms current q running
  have bounds := (below.purger _ running).pending _ _ _ rfl
  obtain ⟨data, index⟩ := pending_putAll bounds newData newIndex committed.dataEntries committed.hashedIndexEntries
  refine ⟨before.index.add _ data index keys (fresh (commitPendingChanges_below bounds.written below.data)) distinct,
    fun k mem => ?_, before.distinct, before.deleted, fun m entries isCurrent => ?_⟩
  · rw [committed.dataEntries]
    exact mem_putAll_of_mem (before.written k mem)
  obtain ⟨notListed, nodup, found⟩ := before.scanned m entries isCurrent
  subst isCurrent
  refine ⟨notListed, nodup, fun e mem => ⟨?_, (found e mem).2⟩⟩
  have old := (below.purger _ running).scanned _ _ _ _ rfl e mem
  have noNew : lastFor e.1 (prepareHashedIndexEntries conf.codec (prepareDataEntries t.store.nextBlockNum pvtData)) = none :=
    lastFor_eq_none.mpr fun v listed => absurd (newIndex _ listed) (Nat.not_le.mpr old)
  rw [index, get_putAll, noNew, none_or]
  exact (found e mem).1

theorem IndexKept.reconciled (kept : IndexKept conf.codec t) (free : t.locked = false) {data : BlocksPvtData}
    (unreconciled : List (NsCollBlk × Nat)) (fresh : ∀ k ∈ data.dataKeys, k ∉ t.store.dataEntries)
    (distinct : ∀ d ∈ data.toList.flatMap fun b => prepareDataEntries b.1 b.2, DistinctKeyHashes conf.codec d.2) :
    IndexKept conf.codec { t with
      store := t.store.commitPvtDataOfOldBlocks conf.btlPolicy conf.codec data unreconciled
      requested := [] } := by
  rw [commitPvtDataOfOldBlocks_eq]
  refine ⟨kept.stored.add _ (putAll_toList _ _).symm rfl (nodup_keys _) ?_ ?_, ?_⟩
  · intro d mem
    have stored : d.1 ∈ (reconciledEntries conf.btlPolicy t.store data).dataEntries :=
      mem_of_mem_toList mem
    exact fresh _ (dataKey_of_mem_reconciledEntries stored)
  · intro d mem
    exact distinct d (mem_reconciledEntries (mem_toList_iff_getElem?_eq_some.mp mem))
  · intro marks current q running
    simp [purger_of_free free] at running

def suppliedData (t : Threads) : StoreStep → List (DataKey × PvtKVRWSet)
  | .commit pvtData _ _ => prepareDataEntries t.store.nextBlockNum pvtData.toList
  | .reconcile _ data => data.toList.flatMap fun b => prepareDataEntries b.1 b.2
  | _ => []

def reconciledKeys : StoreStep → List DataKey
  | .reconcile _ data => data.dataKeys
  | _ => []

/-- A collection of a transaction is supplied once, its write-set writes a key once, and reconciled data
is not stored yet. -/
structure KeepsIndex (conf : StoreConf) (t : Threads) (l : StoreStep) : Prop where
  keys : ((suppliedData t l).map (·.1)).Nodup
  distinct : ∀ d ∈ suppliedData t l, DistinctKeyHashes conf.codec d.2
  fresh : ∀ k ∈ reconciledKeys l, k ∉ t.store.dataEntries

instance (conf : StoreConf) (t : Threads) (l : StoreStep) : Decidable (KeepsIndex conf t l) :=
  decidable_of_iff
    (((suppliedData t l).map (·.1)).Nodup ∧ (∀ d ∈ suppliedData t l, DistinctKeyHashes conf.codec d.2) ∧
      ∀ k ∈ reconciledKeys l, k ∉ t.store.dataEntries)
    ⟨fun ⟨keys, distinct, fresh⟩ => ⟨keys, distinct, fresh⟩, fun meets => ⟨meets.keys, meets.distinct, meets.fresh⟩⟩

theorem IndexKept.step (kept : IndexKept conf.codec t) (below : Below t) {l : StoreStep} (meets : KeepsIndex conf t l)
    (moved : Moved conf t l t') : IndexKept conf.codec t' := by
  cases moved with
  | committed ready stored purges => exact kept.committed below (committed_of_commit stored) meets.keys meets.distinct
  | purgerStarted free scheduled => exact .ofStored (t := t.startPurger _) kept.stored (by rintro _ _ _ ⟨⟩)
  | purgerStepped running moved => exact kept.purgerStepped running moved
  | converted running awake next =>
    rcases convertEntry_cases with ⟨q, isQ, result⟩ | result
    · rw [result]
      exact { kept.writeBatch q with }
    · rw [result]
      exact { kept with }
  | reconciled free asked received => exact kept.reconciled free _ meets.fresh meets.distinct
  | elgFinished running awake noEntries noEvents => exact { kept.writeBatch _ with }
  | restarted => exact .ofStored (t := .opened t.store t.collElgEvents) kept.stored (by rintro _ _ _ ⟨⟩)
  | _ => exact { kept with }

end

section

variable {conf : StoreConf} {s : Store}

def purgeMarker (base s : Store) (marker : CollKey × Height) : Store :=
  let after := (base.hashedIndexRange marker).foldl purgeIndexEntry s
  { after with purgeMarkers := after.purgeMarkers.erase marker.1 }

theorem foldl_process (entries : List (HashedIndexKey × Bytes)) (u : PurgeUpdatesProcessor) :
    (entries.foldl (fun u e => u.process s e) u).commitPendingChanges s = entries.foldl purgeIndexEntry (u.commitPendingChanges s) := by
  induction entries generalizing u with
  | nil => rfl
  | cons e entries ih => rw [foldl_cons, foldl_cons, ih, commitPendingChanges_process]

theorem deleteDataMarkedForPurge_eq (s : Store) : s.deleteDataMarkedForPurge = s.purgeMarkers.toList.foldl (purgeMarker s) s := by
  have general : ∀ (marks : List (CollKey × Height)) (u : PurgeUpdatesProcessor),
      (marks.foldl (fun u marker => ((s.hashedIndexRange marker).foldl (fun u e =>
        u.process s e) u).addProcessedPurgeMarkerForDeletion marker.1) u).commitPendingChanges s =
      marks.foldl (purgeMarker s) (u.commitPendingChanges s) := by
    intro marks
    induction marks with
    | nil => exact fun _ => rfl
    | cons marker marks ih =>
      intro u
      rw [foldl_cons, foldl_cons, ih, commitPendingChanges_addProcessed, foldl_process, purgeMarker]
  rw [Store.deleteDataMarkedForPurge, general, commitPendingChanges_new]

def effective (sp : Store × BatchedProcessor) : Store := sp.2.updates.commitPendingChanges sp.1

structure Untouched (base : Store) (marks : List (CollKey × Height)) (sp : Store × BatchedProcessor) : Prop where
  index : ∀ k : HashedIndexKey, collKey k ∈ marks.map (·.1) → sp.1.hashedIndexEntries[k]? = base.hashedIndexEntries[k]?
  deleted : ∀ k ∈ sp.2.updates.hashedIndexDeletions, collKey k ∉ marks.map (·.1)

theorem processIndexEntry_spec (conf : StoreConf) (untouched : Untouched base marks sp) (other : collKey e.1 ∉ marks.map (·.1)) :
    effective (processIndexEntry conf sp.1 sp.2 e) = purgeIndexEntry (effective sp) e ∧
      Untouched base marks (processIndexEntry conf sp.1 sp.2 e) := by
  have deleted : ∀ k ∈ (sp.2.process conf sp.1 e).updates.hashedIndexDeletions, collKey k ∉ marks.map (·.1) := by
    intro k mem
    rcases mem_append.mp mem with before | last
    · exact untouched.deleted k before
    · rw [mem_singleton.mp last]
      exact other
  have effect : (sp.2.process conf sp.1 e).updates.commitPendingChanges sp.1 = purgeIndexEntry (effective sp) e :=
    commitPendingChanges_process _ _ _
  simp only [processIndexEntry]
  split
  · refine ⟨?_, fun k listed => ?_, by simp [BatchedProcessor.written, newPurgeUpdatesProcessor]⟩
    · simp only [effective, BatchedProcessor.written, commitPendingChanges_new]
      exact effect
    · have kept : k ∉ (sp.2.process conf sp.1 e).updates.hashedIndexDeletions := fun mem => deleted k mem listed
      simp only [commitPendingChanges, get_eraseAll, kept, ↓reduceIte]
      exact untouched.index k listed
  · exact ⟨effect, untouched.index, deleted⟩

theorem foldl_processIndexEntry (conf : StoreConf) {entries : List (HashedIndexKey × Bytes)}
    (untouched : Untouched base marks sp) (other : ∀ e ∈ entries, collKey e.1 ∉ marks.map (·.1)) :
    effective (entries.foldl (fun sp e => processIndexEntry conf sp.1 sp.2 e) sp) = entries.foldl purgeIndexEntry (effective sp) ∧
      Untouched base marks (entries.foldl (fun sp e => processIndexEntry conf sp.1 sp.2 e) sp) := by
  induction entries generalizing sp with
  | nil => exact ⟨rfl, untouched⟩
  | cons e entries ih =>
    obtain ⟨here, later⟩ := forall_mem_cons.mp other
    obtain ⟨effect, after⟩ := processIndexEntry_spec conf untouched here
    obtain ⟨effects, rest⟩ := ih after later
    rw [foldl_cons, foldl_cons, effects, effect]
    exact ⟨rfl, rest⟩

theorem hashedIndexRange_congr {s : Store}
    (same : ∀ k : HashedIndexKey, collKey k = marker.1 → s.hashedIndexEntries[k]? = base.hashedIndexEntries[k]?) :
    s.hashedIndexRange marker = base.hashedIndexRange marker := by
  refine KeySorted.eq_of_mem_iff ((KeySorted.toList _).filter _) ((KeySorted.toList _).filter _) fun ⟨k, key⟩ => ?_
  simp only [Store.hashedIndexRange, mem_filter, mem_toList_iff_getElem?_eq_some, Bool.and_eq_true, beq_iff_eq]
  constructor
  · rintro ⟨found, isMarker, range⟩
    exact ⟨same k isMarker ▸ found, isMarker, range⟩
  · rintro ⟨found, isMarker, range⟩
    exact ⟨(same k isMarker).symm ▸ found, isMarker, range⟩

theorem foldl_processPurgeMarker (untouched : Untouched base marks sp) (distinct : (marks.map (·.1)).Nodup) :
    effective (marks.foldl (processPurgeMarker conf) sp) = marks.foldl (purgeMarker base) (effective sp) := by
  induction marks generalizing sp with
  | nil => rfl
  | cons marker marks ih =>
    obtain ⟨fresh, distinct⟩ := nodup_cons.mp distinct
    have range : sp.1.hashedIndexRange marker = base.hashedIndexRange marker :=
      hashedIndexRange_congr fun k isMarker => untouched.index k (isMarker ▸ mem_cons_self)
    have later : Untouched base marks sp :=
      ⟨fun k listed => untouched.index k (mem_cons_of_mem _ listed), fun k mem listed => untouched.deleted k mem (mem_cons_of_mem _ listed)⟩
    have other : ∀ e ∈ sp.1.hashedIndexRange marker, collKey e.1 ∉ marks.map (·.1) := by
      intro e mem
      rw [show collKey e.1 = marker.1 from (mem_hashedIndexRange mem).2.1]
      exact fresh
    obtain ⟨effect, after⟩ := foldl_processIndexEntry conf later other
    have next : Untouched base marks (processPurgeMarker conf sp marker) := ⟨after.index, after.deleted⟩
    have written : effective (processPurgeMarker conf sp marker) = purgeMarker base (effective sp) marker := by
      refine (commitPendingChanges_addProcessed _ _ _).trans ?_
      simp only [purgeMarker, ← range, ← effect]
      rfl
    rw [foldl_cons, foldl_cons, ih next distinct, written]

theorem deleteDataMarkedForPurgeInBatches_eq (conf : StoreConf) (s : Store) :
    s.deleteDataMarkedForPurgeInBatches conf = s.deleteDataMarkedForPurge := by
  have untouched : Untouched s s.purgeMarkers.toList (s, newBatchedProcessor) :=
    ⟨fun _ _ => rfl, by simp [newBatchedProcessor, newPurgeUpdatesProcessor]⟩
  rw [deleteDataMarkedForPurge_eq]
  refine (foldl_processPurgeMarker untouched (nodup_keys _)).trans ?_
  rw [effective, newBatchedProcessor, commitPendingChanges_new]

end

def convertedData (old : OldStore) : List (DataKey × PvtKVRWSet) :=
  old.v11Data.flatMap fun b => prepareDataEntries b.1 [b.2]

/-- What a store of the previous format holds: data of committed blocks, each write-set once, and no index. -/
structure PreviousFormat (codec : Codec) (old : OldStore) : Prop where
  noIndex : old.store.hashedIndexEntries = ∅
  keys : ((convertedData old).map (·.1)).Nodup
  fresh : ∀ d ∈ convertedData old, d.1 ∉ old.store.dataEntries
  distinct : ∀ d ∈ old.store.dataEntries.toList ++ convertedData old, DistinctKeyHashes codec d.2
  data : ∀ d ∈ old.store.dataEntries.toList ++ convertedData old, d.1.blkNum < old.store.nextBlockNum
  missing : ∀ k, k ∈ old.store.elgPrioMissing ∨ k ∈ old.store.elgDeprioMissing ∨ k ∈ old.store.inelgMissing →
    k.blkNum < old.store.nextBlockNum

section

variable {codec : Codec} {old : OldStore}

theorem PreviousFormat.index (format : PreviousFormat codec old) : IndexInv codec (constructHashedIndexFor codec old) := by
  have empty : IndexInv codec { old.store with dataEntries := ∅, hashedIndexEntries := ∅ } :=
    ⟨fun k key => by simp [Indexed], by simp⟩
  have whole : putAll ∅ old.store.dataEntries.toList = old.store.dataEntries := by
    rw [putAll_toList]
    exact ext_getElem? fun k => by simp [getElem?_union]
  refine empty.add (old.store.dataEntries.toList ++ convertedData old) ?_ ?_ ?_ (by simp) format.distinct
  · simp only [constructHashedIndexFor, putAll, foldl_append] at whole ⊢
    rw [whole]
    rfl
  · simp only [constructHashedIndexFor, format.noIndex]
    rfl
  · rw [map_append]
    refine nodup_append.mpr ⟨nodup_keys _, format.keys, ?_⟩
    rintro a stored b converted rfl
    obtain ⟨x, listed, rfl⟩ := List.mem_map.mp stored
    obtain ⟨d, mem, same⟩ := List.mem_map.mp converted
    refine format.fresh d mem ?_
    rw [same]
    exact mem_of_mem_toList listed

theorem PreviousFormat.below (format : PreviousFormat codec old) : Below (.opened (constructHashedIndexFor codec old) ∅) := by
  have next : (constructHashedIndexFor codec old).nextBlockNum = old.store.nextBlockNum := rfl
  refine ⟨?_, ?_, ?_, ?_, ?_, by rintro _ ⟨⟩, by rintro _ ⟨⟩, by rintro _ ⟨⟩⟩ <;> simp [Threads.opened, next]
  · intro k mem
    rcases mem_of_mem_putAll mem with stored | ⟨d, converted, rfl⟩
    · obtain ⟨ws, found⟩ := mem_iff_get.mp stored
      exact format.data (k, ws) (mem_append_left _ (mem_toList_iff_getElem?_eq_some.mpr found))
    · exact format.data d (mem_append_right _ converted)
  · intro k mem
    rcases mem_of_mem_putAll mem with stored | ⟨e, added, rfl⟩
    · simp [format.noIndex] at stored
    · exact blkNum_of_mem_prepareHashedIndexEntries format.data added
  · exact fun k mem => format.missing k (.inl mem)
  · exact fun k mem => format.missing k (.inr (.inl mem))
  · exact fun k mem => format.missing k (.inr (.inr mem))

end

/-- In every run from an upgraded store the index stays exact, and the outcome of a purge of marked data
does not depend on the size of its batches. -/
theorem hashedIndex_exact {conf : StoreConf} {old : OldStore} (format : PreviousFormat conf.codec old)
    {steps : List StoreStep} {t : Threads}
    (run : Reaches (Threads.step conf) (KeepsIndex conf) (.opened (constructHashedIndexFor conf.codec old) ∅) steps t) :
    IndexExact conf.codec t.store ∧
      ∀ maxPurgeBatchSize : Nat, t.store.deleteDataMarkedForPurgeInBatches
          { conf with maxPurgeBatchSize := maxPurgeBatchSize } = t.store.deleteDataMarkedForPurgeInBatches conf := by
  have start : IndexKept conf.codec (.opened (constructHashedIndexFor conf.codec old) ∅) :=
    ⟨format.index, by rintro _ _ _ ⟨⟩⟩
  have kept : Below t ∧ IndexKept conf.codec t := by
    refine run.invariant (fun _ t => Below t ∧ IndexKept conf.codec t) ⟨format.below, start⟩ ?_
    intro _ t l u before meets taken
    have moved := moved_of_step taken
    exact ⟨before.1.step moved, before.2.step before.1 meets moved⟩
  refine ⟨kept.2.stored.exact, fun maxPurgeBatchSize => ?_⟩
  rw [deleteDataMarkedForPurgeInBatches_eq, deleteDataMarkedForPurgeInBatches_eq]

def plainConf (enabledColls : Nat → List NsColl) : StoreConf where
  codec := .plain
  btlPolicy := ⟨fun _ _ => 0, fun _ _ => Nat.zero_le _⟩
  purgeInterval := 1
  maxBatchSize := 6
  maxPurgeBatchSize := 4 * 1024 * 1024
  sizes := ⟨fun _ _ => 1, fun _ => 1, fun _ => 1⟩
  enabledColls := enabledColls

def oneWriteSet (writes : List KVWrite) : TxPvtRwSet := ⟨[⟨[110], [⟨[99], ⟨writes, []⟩⟩]⟩]⟩

def purgeOfKey : List StoreStep :=
  [.validate, .commit ∅ ∅ ((∅ : PvtdataPurgeTracker).insert ⟨[110], [99], Codec.plain.computeHash [1]⟩ ⟨1, 0⟩),
    .startPurger 1, .purgerStep, .purgerStep, .purgerStep, .purgerStep, .purgerStep]

def purgeRun (writes : List KVWrite) : List StoreStep :=
  .validate :: .commit ((∅ : TxPvtDataMap).insert 0 (oneWriteSet writes)) ∅ ∅ :: purgeOfKey

/-- Of two writes of the purged key in one write-set the purger removes the first and the index entry. -/
theorem duplicateWrites_unindexed : ∃ t, Reaches (Threads.step (plainConf fun _ => [])) (fun _ _ => True) (.opened .empty ∅)
        (purgeRun [⟨[1], false, [7]⟩, ⟨[1], false, [8]⟩]) t ∧ ¬ IndexExact Codec.plain t.store := by
  refine exists_reaches (fun t =>
    t.store.hashedIndexEntries[(⟨[110], [99], Codec.plain.computeHash [1], 0, 0⟩ : HashedIndexKey)]? = none ∧
    t.store.dataEntries[(⟨0, 0, [110], [99]⟩ : DataKey)]? = some ⟨[⟨[1], false, [8]⟩], []⟩) (by decide +kernel)
    fun t _ ⟨index, data⟩ exact => ?_
  have indexed := (exact ⟨[110], [99], Codec.plain.computeHash [1], 0, 0⟩ [1]).mpr
    ⟨_, data, ⟨_, mem_cons_self, rfl⟩, rfl⟩
  rw [index] at indexed
  cases indexed

/-- Block 0 was committed in the format of a key for each transaction. -/
def oldBlock : OldStore :=
  ⟨[(0, 0, oneWriteSet [⟨[1], false, [7]⟩, ⟨[2], false, [8]⟩])], { Store.empty with lastCommittedBlock := some 0 }⟩

theorem twoKeys_indexed : ∃ t, Reaches (Threads.step (plainConf fun _ => [])) (KeepsIndex (plainConf fun _ => []))
        (.opened (constructHashedIndexFor Codec.plain oldBlock) ∅) purgeOfKey t ∧
      t.store.dataEntries[(⟨0, 0, [110], [99]⟩ : DataKey)]? = some ⟨[⟨[2], false, [8]⟩], []⟩ ∧
      IndexExact Codec.plain t.store := by
  have format : PreviousFormat Codec.plain oldBlock := by
    constructor <;> simp [Store.empty, oldBlock, convertedData, prepareDataEntries, oneWriteSet, DistinctKeyHashes, Codec.plain,
      Store.nextBlockNum]
  exact exists_reaches (fun t => t.store.dataEntries[(⟨0, 0, [110], [99]⟩ : DataKey)]? = some ⟨[⟨[2], false, [8]⟩], []⟩)
    (by decide +kernel) fun t run data => ⟨data, (hashedIndex_exact format run).1⟩

end Fabric.Proof.PvtdataStore
