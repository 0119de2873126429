import Fabric.Proof.PvtdataStore.Steps

/-! # What the operations of the store write -/

namespace Fabric.Proof.PvtdataStore

open Lib Fabric.Ledger Fabric.Ledger.PvtdataStorage Option
open List hiding getElem?_insert mem_keys mem_union_iff

variable {codec : Codec} {pvtData : List TxPvtData} {missing : TxMissingPvtData} {markers : List PurgeMarker}
  {blockNum txNum n : Nat} {e : HashedIndexKey × Bytes} {entries : MissingEntries} {K : NsCollBlk} {eligible : Bool}
  {data : BlocksPvtData} {s' store : Store} {m : MissingEntries} {k : DataKey} {p : ElgProc}

structure Committed (codec : Codec) (btl : BTLPolicy) (s : Store) (pvtData : List TxPvtData)
    (missing : TxMissingPvtData) (markers : List PurgeMarker) (s' : Store) : Prop where
  lastCommittedBlock : s'.lastCommittedBlock = some s.nextBlockNum
  dataEntries : s'.dataEntries = putAll s.dataEntries (prepareDataEntries s.nextBlockNum pvtData)
  hashedIndexEntries : s'.hashedIndexEntries = putAll s.hashedIndexEntries
    (prepareHashedIndexEntries codec (prepareDataEntries s.nextBlockNum pvtData))
  purgeMarkers : s'.purgeMarkers = putAll s.purgeMarkers (preparePurgeMarkerEntries s.nextBlockNum markers)
  purgeMarkersForRecon :
    s'.purgeMarkersForRecon = putAll s.purgeMarkersForRecon (preparePurgeMarkerEntries s.nextBlockNum markers)
  purgeMarkerColls :
    s'.purgeMarkerColls = s.purgeMarkerColls ∪ preparePurgeMarkerCollEntries s.nextBlockNum markers
  expiryEntries : s'.expiryEntries = s.expiryEntries ∪ prepareExpiryEntries btl
    ((prepareDataEntries s.nextBlockNum pvtData).map (·.1))
    ((prepareMissingDataEntries s.nextBlockNum missing true).keys ++
      (prepareMissingDataEntries s.nextBlockNum missing false).keys)
  elgPrioMissing : s'.elgPrioMissing = s.elgPrioMissing ∪ prepareMissingDataEntries s.nextBlockNum missing true
  elgDeprioMissing : s'.elgDeprioMissing = s.elgDeprioMissing
  inelgMissing : s'.inelgMissing = s.inelgMissing ∪ prepareMissingDataEntries s.nextBlockNum missing false

theorem committed_of_commit {btl : BTLPolicy} {s : Store} (run : s.commit codec btl s.nextBlockNum pvtData missing markers = .ok s') :
    Committed codec btl s pvtData missing markers s' := by
  simp only [Store.commit, ne_eq, not_true_eq_false, ↓reduceIte] at run
  obtain rfl := ok.inj run
  constructor <;> rfl

theorem Committed.nextBlockNum {btl : BTLPolicy} {s : Store}
    (committed : Committed codec btl s pvtData missing markers s') : s'.nextBlockNum = s.nextBlockNum + 1 := by
  simp [Store.nextBlockNum, committed.lastCommittedBlock]

theorem blkNum_of_mem_prepareDataEntries {d : DataKey × PvtKVRWSet} (mem : d ∈ prepareDataEntries blockNum pvtData)
    : d.1.blkNum = blockNum := by
  obtain ⟨tx, _, mem⟩ := mem_flatMap.mp mem
  obtain ⟨ns, _, mem⟩ := mem_flatMap.mp mem
  obtain ⟨coll, _, rfl⟩ := List.mem_map.mp mem
  rfl

theorem MissingEntries.has_iff {e : NsCollBlk × Nat} : m.has e = true ↔ e.2 ∈ m[e.1]?.getD [] := by
  cases found : m[e.1]? <;> simp [MissingEntries.has, found]

theorem get_setMissing (entries : MissingEntries) (k K : NsCollBlk) (txNum : Nat) : (setMissing entries k txNum)[K]? =
      if k = K then some (if txNum ∈ entries[k]?.getD [] then entries[k]?.getD [] else entries[k]?.getD [] ++ [txNum]) else entries[K]? := by
  simp [setMissing, get_insert]

theorem mem_setMissing {k : NsCollBlk} : n ∈ (setMissing entries k txNum)[K]?.getD [] ↔ n ∈ entries[K]?.getD [] ∨ k = K ∧ n = txNum := by
  rw [get_setMissing]
  by_cases same : k = K
  · subst same
    rw [if_pos rfl, getD_some]
    split
    · rename_i listed
      constructor
      · exact .inl
      · rintro (before | ⟨_, rfl⟩)
        · exact before
        · exact listed
    · simp
  · simp [same]

theorem nodup_setMissing (k : NsCollBlk) (txNum : Nat) (nodup : ∀ K : NsCollBlk, (entries[K]?.getD []).Nodup)
    (K : NsCollBlk) : ((setMissing entries k txNum)[K]?.getD []).Nodup := by
  rw [get_setMissing]
  by_cases same : k = K
  · rw [if_pos same, getD_some]
    split
    · exact nodup k
    · rename_i fresh
      exact nodup_append.mpr ⟨nodup k, nodup_singleton _, by rintro a mem b last rfl; simp_all⟩
  · simpa [same] using nodup K

def Reports (missing : TxMissingPvtData) (eligible : Bool) (txNum : Nat) (ns coll : Bytes) : Prop :=
  ⟨ns, coll, eligible⟩ ∈ missing[txNum]?.getD []

private def reportedMissing (missing : TxMissingPvtData) (eligible : Bool) : List (Nat × MissingPvtData) :=
  missing.toList.flatMap fun e => (e.2.filter (·.isEligible = eligible)).map fun m => (e.1, m)

private theorem mem_reportedMissing {m : MissingPvtData} :
    (txNum, m) ∈ reportedMissing missing eligible ↔ m.isEligible = eligible ∧ m ∈ missing[txNum]?.getD [] := by
  simp only [reportedMissing, mem_flatMap, List.mem_map, mem_filter, decide_eq_true_eq, Prod.exists,
    Prod.mk.injEq, mem_toList_iff_getElem?_eq_some]
  constructor
  · rintro ⟨tx, ms, found, m', ⟨mem, elg⟩, rfl, rfl⟩
    exact ⟨elg, by simpa [found] using mem⟩
  · rintro ⟨elg, mem⟩
    cases found : missing[txNum]? with
    | none => simp [found] at mem
    | some ms => exact ⟨txNum, ms, found, m, ⟨by simpa [found] using mem, elg⟩, rfl, rfl⟩

private theorem foldl_setMissing (blockNum : Nat) (reports : List (Nat × MissingPvtData)) (entries : MissingEntries)
    (nodup : ∀ K : NsCollBlk, (entries[K]?.getD []).Nodup) :
    let result := reports.foldl (fun entries e => setMissing entries ⟨e.2.ns, e.2.coll, blockNum⟩ e.1) entries
    (∀ K : NsCollBlk, (result[K]?.getD []).Nodup) ∧ (∀ (K : NsCollBlk) (n : Nat), n ∈ result[K]?.getD [] ↔ n ∈ entries[K]?.getD [] ∨
        ∃ m, (n, m) ∈ reports ∧ (⟨m.ns, m.coll, blockNum⟩ : NsCollBlk) = K) ∧
      ∀ K, K ∈ result → K ∈ entries ∨ ∃ e ∈ reports, (⟨e.2.ns, e.2.coll, blockNum⟩ : NsCollBlk) = K := by
  induction reports generalizing entries with
  | nil => simpa using nodup
  | cons e reports ih =>
    obtain ⟨uniq, member, keys⟩ := ih _ (nodup_setMissing ⟨e.2.ns, e.2.coll, blockNum⟩ e.1 nodup)
    refine ⟨uniq, ?_, ?_⟩
    · intro K n
      rw [foldl_cons, member, mem_setMissing]
      simp only [mem_cons]
      constructor
      · rintro ((before | ⟨rfl, rfl⟩) | ⟨m, later, same⟩)
        · exact .inl before
        · exact .inr ⟨e.2, .inl rfl, rfl⟩
        · exact .inr ⟨m, .inr later, same⟩
      · rintro (before | ⟨m, rfl | later, same⟩)
        · exact .inl (.inl before)
        · exact .inl (.inr ⟨same, rfl⟩)
        · exact .inr ⟨m, later, same⟩
    · intro K mem
      rcases keys K mem with before | ⟨x, later, same⟩
      · simp only [setMissing, mem_insertKey] at before
        rcases before with same | before
        · exact .inr ⟨e, mem_cons_self, same⟩
        · exact .inl before
      · exact .inr ⟨x, mem_cons_of_mem _ later, same⟩

theorem mem_prepareMissingDataEntries : txNum ∈ (prepareMissingDataEntries blockNum missing eligible)[K]?.getD [] ↔
      K.blkNum = blockNum ∧ Reports missing eligible txNum K.ns K.coll := by
  have member := (foldl_setMissing blockNum (reportedMissing missing eligible) ∅ (by simp)).2.1 K txNum
  refine member.trans ?_
  simp only [getElem?_empty, getD_none, not_mem_nil, false_or, mem_reportedMissing, Reports]
  constructor
  · rintro ⟨m, ⟨rfl, mem⟩, rfl⟩
    exact ⟨rfl, mem⟩
  · rintro ⟨rfl, mem⟩
    exact ⟨_, ⟨rfl, mem⟩, rfl⟩

theorem nodup_prepareMissingDataEntries (blockNum : Nat) (missing : TxMissingPvtData) (eligible : Bool) (K : NsCollBlk) :
    ((prepareMissingDataEntries blockNum missing eligible)[K]?.getD []).Nodup :=
  (foldl_setMissing blockNum (reportedMissing missing eligible) ∅ (by simp)).1 K

theorem key_of_mem_prepareMissingDataEntries (mem : K ∈ prepareMissingDataEntries blockNum missing eligible) :
    K.blkNum = blockNum ∧ ∃ txNum, Reports missing eligible txNum K.ns K.coll := by
  have keys := (foldl_setMissing blockNum (reportedMissing missing eligible) ∅ (by simp)).2.2 K mem
  simp only [Std.ExtTreeMap.not_mem_empty, false_or] at keys
  obtain ⟨⟨txNum, m⟩, listed, rfl⟩ := keys
  obtain ⟨rfl, reported⟩ := mem_reportedMissing.mp listed
  exact ⟨rfl, txNum, reported⟩

section

variable (btl : BTLPolicy) (s : Store)

def reconciledEntries (data : BlocksPvtData) : EntriesForPvtDataOfOldBlocks :=
  (data.toList.flatMap fun b => prepareDataEntries b.1 b.2).foldl (prepareDataAndExpiryEntry btl s) ⟨∅, ∅, ∅, ∅⟩

def missingAfter (data : BlocksPvtData) (unrec : List (NsCollBlk × Nat)) : EntriesForPvtDataOfOldBlocks :=
  unrec.foldl (reflectPriority s)
    ((reconciledEntries btl s data).dataEntries.keys.foldl (reflectReconciledData s)
      (reconciledEntries btl s data))

variable {btl s}

theorem foldl_reflectReconciledData_data (keys : List DataKey) (p : EntriesForPvtDataOfOldBlocks) :
    (keys.foldl (reflectReconciledData s) p).dataEntries = p.dataEntries ∧
      (keys.foldl (reflectReconciledData s) p).expiryEntries = p.expiryEntries := by
  induction keys generalizing p with
  | nil => exact ⟨rfl, rfl⟩
  | cons k keys ih =>
    obtain ⟨data, expiry⟩ := ih (reflectReconciledData s p k)
    rw [foldl_cons, data, expiry]
    unfold reflectReconciledData
    grind

theorem foldl_reflectPriority_data (missing : List (NsCollBlk × Nat)) (p : EntriesForPvtDataOfOldBlocks) :
    (missing.foldl (reflectPriority s) p).dataEntries = p.dataEntries ∧
      (missing.foldl (reflectPriority s) p).expiryEntries = p.expiryEntries := by
  induction missing generalizing p with
  | nil => exact ⟨rfl, rfl⟩
  | cons e missing ih =>
    obtain ⟨data, expiry⟩ := ih (reflectPriority s p e)
    rw [foldl_cons, data, expiry]
    unfold reflectPriority
    grind

theorem commitPvtDataOfOldBlocks_eq (codec : Codec) (data : BlocksPvtData) (unrec : List (NsCollBlk × Nat)) :
    s.commitPvtDataOfOldBlocks btl codec data unrec = { s with
      dataEntries := s.dataEntries ∪ (reconciledEntries btl s data).dataEntries
      hashedIndexEntries := putAll s.hashedIndexEntries
        (prepareHashedIndexEntries codec (reconciledEntries btl s data).dataEntries.toList)
      expiryEntries := s.expiryEntries ∪ (reconciledEntries btl s data).expiryEntries
      elgPrioMissing := putMissing s.elgPrioMissing (missingAfter btl s data unrec).prioritizedMissingDataEntries
      elgDeprioMissing :=
        putMissing s.elgDeprioMissing (missingAfter btl s data unrec).deprioritizedMissingDataEntries } := by
  have dataEntries : (missingAfter btl s data unrec).dataEntries = (reconciledEntries btl s data).dataEntries := by
    rw [missingAfter, (foldl_reflectPriority_data _ _).1, (foldl_reflectReconciledData_data _ _).1]
  have expiryEntries : (missingAfter btl s data unrec).expiryEntries = (reconciledEntries btl s data).expiryEntries := by
    rw [missingAfter, (foldl_reflectPriority_data _ _).2, (foldl_reflectReconciledData_data _ _).2]
  rw [← dataEntries, ← expiryEntries]
  rfl

theorem prepareDataAndExpiryEntry_spec (btl : BTLPolicy) (s : Store) (p : EntriesForPvtDataOfOldBlocks) (d : DataKey × PvtKVRWSet) :
    (prepareDataAndExpiryEntry btl s p d).prioritizedMissingDataEntries = p.prioritizedMissingDataEntries ∧
      (prepareDataAndExpiryEntry btl s p d).deprioritizedMissingDataEntries = p.deprioritizedMissingDataEntries ∧
      ((prepareDataAndExpiryEntry btl s p d).dataEntries = p.dataEntries ∨
        (prepareDataAndExpiryEntry btl s p d).dataEntries = p.dataEntries.insert d.1 d.2) := by
  simp only [prepareDataAndExpiryEntry]
  split
  · exact ⟨rfl, rfl, .inr rfl⟩
  · split
    · exact ⟨rfl, rfl, .inl rfl⟩
    · exact ⟨rfl, rfl, .inr rfl⟩

theorem foldl_prepareDataAndExpiryEntry_missing (entries : List (DataKey × PvtKVRWSet)) (p : EntriesForPvtDataOfOldBlocks) :
    (entries.foldl (prepareDataAndExpiryEntry btl s) p).prioritizedMissingDataEntries = p.prioritizedMissingDataEntries ∧
      (entries.foldl (prepareDataAndExpiryEntry btl s) p).deprioritizedMissingDataEntries = p.deprioritizedMissingDataEntries := by
  induction entries generalizing p with
  | nil => exact ⟨rfl, rfl⟩
  | cons d entries ih =>
    obtain ⟨prio, deprio, _⟩ := prepareDataAndExpiryEntry_spec btl s p d
    rw [foldl_cons, (ih _).1, (ih _).2]
    exact ⟨prio, deprio⟩

theorem mem_reconciledEntries {ws : PvtKVRWSet} (found : (reconciledEntries btl s data).dataEntries[k]? = some ws) :
    (k, ws) ∈ data.toList.flatMap fun b => prepareDataEntries b.1 b.2 := by
  revert found
  unfold reconciledEntries
  induction (data.toList.flatMap fun b => prepareDataEntries b.1 b.2) using reverseRecOn with
  | nil => simp
  | append_singleton entries d ih =>
    rw [foldl_append, foldl_cons, foldl_nil]
    intro found
    obtain ⟨_, _, same | inserted⟩ := prepareDataAndExpiryEntry_spec btl s
      (entries.foldl (prepareDataAndExpiryEntry btl s) ⟨∅, ∅, ∅, ∅⟩) d
    · rw [same] at found
      exact mem_append_left _ (ih found)
    · rw [inserted, getElem?_insert] at found
      split at found
      · rename_i same
        rw [← Std.LawfulEqCmp.eq_of_compare same, ← some.inj found]
        simp
      · exact mem_append_left _ (ih found)

theorem dataKey_of_mem_reconciledEntries (mem : k ∈ (reconciledEntries btl s data).dataEntries) : k ∈ data.dataKeys := by
  obtain ⟨ws, found⟩ := mem_iff_get.mp mem
  have listed := mem_reconciledEntries found
  obtain ⟨b, inBlock, listed⟩ := mem_flatMap.mp listed
  exact mem_flatMap.mpr ⟨b, inBlock, List.mem_map.mpr ⟨(k, ws), listed, rfl⟩⟩

theorem mem_missingAfter {unrec : List (NsCollBlk × Nat)} (P : NsCollBlk → Prop)
    (ofData : ∀ k ∈ data.dataKeys, P k.nsCollBlk) (ofMissing : ∀ e ∈ unrec, P e.1)
    (mem : K ∈ (missingAfter btl s data unrec).prioritizedMissingDataEntries ∨
      K ∈ (missingAfter btl s data unrec).deprioritizedMissingDataEntries)
    : P K := by
  have start : ∀ K, ¬ (K ∈ (reconciledEntries btl s data).prioritizedMissingDataEntries ∨
      K ∈ (reconciledEntries btl s data).deprioritizedMissingDataEntries) := by
    intro K
    rw [reconciledEntries, (foldl_prepareDataAndExpiryEntry_missing _ _).1, (foldl_prepareDataAndExpiryEntry_missing _ _).2]
    simp
  have reconciled : ∀ keys : List DataKey, (∀ k ∈ keys, P k.nsCollBlk) → ∀ p : EntriesForPvtDataOfOldBlocks,
      (∀ K, K ∈ p.prioritizedMissingDataEntries ∨ K ∈ p.deprioritizedMissingDataEntries → P K) →
      ∀ K, K ∈ (keys.foldl (reflectReconciledData s) p).prioritizedMissingDataEntries ∨
        K ∈ (keys.foldl (reflectReconciledData s) p).deprioritizedMissingDataEntries → P K := by
    intro keys
    induction keys with
    | nil => exact fun _ _ before => before
    | cons k keys ih =>
      intro listed p before
      refine ih (fun k later => listed k (mem_cons_of_mem _ later)) _ fun K mem => ?_
      have here := listed k mem_cons_self
      unfold reflectReconciledData at mem
      simp only at mem
      split_ifs at mem
      · simp only [mem_insertKey] at mem
        grind
      · simp only [mem_insertKey] at mem
        grind
      · exact before K mem
  have prioritised : ∀ missing : List (NsCollBlk × Nat), (∀ e ∈ missing, P e.1) → ∀ p : EntriesForPvtDataOfOldBlocks,
      (∀ K, K ∈ p.prioritizedMissingDataEntries ∨ K ∈ p.deprioritizedMissingDataEntries → P K) →
      ∀ K, K ∈ (missing.foldl (reflectPriority s) p).prioritizedMissingDataEntries ∨
        K ∈ (missing.foldl (reflectPriority s) p).deprioritizedMissingDataEntries → P K := by
    intro missing
    induction missing with
    | nil => exact fun _ _ before => before
    | cons e missing ih =>
      intro listed p before
      refine ih (fun k later => listed k (mem_cons_of_mem _ later)) _ fun K mem => ?_
      have here := listed e mem_cons_self
      unfold reflectPriority at mem
      split at mem
      · exact before K mem
      · simp only [mem_insertKey] at mem
        grind
  refine prioritised _ ofMissing _ (reconciled _ (fun k mem => ofData k ?_) _ fun K mem => absurd mem (start K)) K mem
  exact dataKey_of_mem_reconciledEntries (mem_keys.mp mem)

theorem mem_of_mem_putMissing {changes : MissingEntries} (mem : K ∈ putMissing entries changes) : K ∈ entries ∨ K ∈ changes := by
  have inUnion : K ∈ entries ∪ changes := Std.ExtTreeMap.mem_of_mem_filter mem
  simpa [mem_union_iff] using inUnion

end

theorem mem_of_has {e : NsCollBlk × Nat} (has : m.has e = true) : e.1 ∈ m := by
  rw [mem_iff_isSome_getElem?]
  unfold MissingEntries.has at has
  cases found : m[e.1]? <;> simp_all

theorem mem_inelgMissingRange {s : Store} {c : NsColl} {e : NsCollBlk × List Nat} : e ∈ s.inelgMissingRange n c ↔
      s.inelgMissing[e.1]? = some e.2 ∧ e.1.ns = c.ns ∧ e.1.coll = c.coll ∧ 0 < e.1.blkNum ∧ e.1.blkNum ≤ n := by
  obtain ⟨K, txNums⟩ := e
  simp [Store.inelgMissingRange, mem_toList_iff_getElem?_eq_some, and_assoc]

theorem convertEntry_cases {conf : StoreConf} {t : Threads} {e : NsCollBlk × List Nat}
    {entries : List (NsCollBlk × List Nat)} : (∃ q, q = { p with entries := entries, converted := p.converted ++ [e] } ∧
      t.convertEntry conf p e entries =
        { t.writeBatch q with elgProc := some { q with converted := [], processed := [], sleeping := true } }) ∨
      t.convertEntry conf p e entries = { t with elgProc := some { p with entries := entries, converted := p.converted ++ [e] } } := by
  simp only [Threads.convertEntry]
  split
  · exact .inl ⟨_, rfl, rfl⟩
  · exact .inr rfl

structure BatchBelow (n : Nat) (u : PurgeUpdatesProcessor) : Prop where
  written : ∀ k ∈ u.pvtWrites, k.blkNum < n
  deleted : ∀ k ∈ u.hashedIndexDeletions, k.blkNum < n

structure PurgerBelow (n : Nat) (p : Purger) : Prop where
  pending : ∀ markers current q, p = .marking markers current q → BatchBelow n q.updates
  scanned : ∀ markers m entries q, p = .marking markers (some (m, entries)) q → ∀ e ∈ entries, e.1.blkNum < n

structure Below (t : Threads) : Prop where
  data : ∀ k ∈ t.store.dataEntries, k.blkNum < t.store.nextBlockNum
  index : ∀ k ∈ t.store.hashedIndexEntries, k.blkNum < t.store.nextBlockNum
  prio : ∀ k ∈ t.store.elgPrioMissing, k.blkNum < t.store.nextBlockNum
  deprio : ∀ k ∈ t.store.elgDeprioMissing, k.blkNum < t.store.nextBlockNum
  inelg : ∀ k ∈ t.store.inelgMissing, k.blkNum < t.store.nextBlockNum
  purger : ∀ p, t.purger = some p → PurgerBelow t.store.nextBlockNum p
  elg : ∀ p, t.elgProc = some p → ∀ e ∈ p.entries ++ p.converted, e.1.blkNum < t.store.nextBlockNum
  requested : ∀ e ∈ t.requested, e.1.blkNum < t.store.nextBlockNum

theorem mem_hashedIndexRange {s : Store} {marker : CollKey × Height} (mem : e ∈ s.hashedIndexRange marker) :
    s.hashedIndexEntries[e.1]? = some e.2 ∧ (⟨e.1.ns, e.1.coll, e.1.pvtkeyHash⟩ : CollKey) = marker.1 ∧
      (e.1.blkNum < marker.2.blockNum ∨ e.1.blkNum = marker.2.blockNum ∧ e.1.txNum ≤ marker.2.txNum) := by
  obtain ⟨listed, range⟩ := mem_filter.mp mem
  exact ⟨mem_toList_iff_getElem?_eq_some.mp listed, by simpa using range⟩

variable {conf : StoreConf} {t t' : Threads}

theorem Below.writeBatch (below : Below t) (elg : ∀ e ∈ p.converted, e.1.blkNum < t.store.nextBlockNum) :
    (∀ k ∈ (t.writeBatch p).store.elgPrioMissing, k.blkNum < t.store.nextBlockNum) ∧
      ∀ k ∈ (t.writeBatch p).store.inelgMissing, k.blkNum < t.store.nextBlockNum := by
  constructor
  · intro k mem
    rcases mem_of_mem_putAll mem with before | ⟨e, listed, rfl⟩
    · exact below.prio k before
    · exact elg e listed
  · exact fun k mem => below.inelg k (mem_of_mem_eraseAll mem)

theorem BatchBelow.empty (n : Nat) : BatchBelow n newPurgeUpdatesProcessor :=
  ⟨by simp [newPurgeUpdatesProcessor], by simp [newPurgeUpdatesProcessor]⟩

theorem BatchBelow.process {u : PurgeUpdatesProcessor} {s : Store} (before : BatchBelow n u) (here : e.1.blkNum < n)
    : BatchBelow n (u.process s e) := by
  constructor
  · intro k mem
    simp only [PurgeUpdatesProcessor.process, mem_insertKey] at mem
    rcases mem with rfl | earlier
    · exact here
    · exact before.written k earlier
  · intro k mem
    rcases mem_append.mp mem with earlier | last
    · exact before.deleted k earlier
    · rw [mem_singleton.mp last]
      exact here

theorem commitPendingChanges_below {p : PurgeUpdatesProcessor} {s : Store} (pending : ∀ k ∈ p.pvtWrites, k.blkNum < n)
    (data : ∀ k ∈ s.dataEntries, k.blkNum < n) : ∀ k ∈ (p.commitPendingChanges s).dataEntries, k.blkNum < n := by
  intro k mem
  have mem : k ∈ s.dataEntries ∪ p.pvtWrites := mem
  rcases mem_union_iff.mp mem with stored | written
  · exact data k stored
  · exact pending k written

theorem PurgerBelow.mono {m : Nat} {p : Purger} (below : PurgerBelow n p) (le : n ≤ m) : PurgerBelow m p := by
  constructor
  · intro markers current q same
    have pending := below.pending markers current q same
    exact ⟨fun k mem => (pending.written k mem).trans_le le, fun k mem => (pending.deleted k mem).trans_le le⟩
  · intro markers marker entries q same e mem
    exact (below.scanned markers marker entries q same e mem).trans_le le

theorem purgerBelow_marking {markers : List (CollKey × Height)}
    {current : Option ((CollKey × Height) × List (HashedIndexKey × Bytes))} {q : BatchedProcessor}
    (pending : BatchBelow n q.updates) (scanned : ∀ m entries, current = some (m, entries) → ∀ e ∈ entries, e.1.blkNum < n)
    : PurgerBelow n (.marking markers current q) := by
  constructor
  · rintro _ _ _ ⟨⟩
    exact pending
  · rintro _ _ _ _ ⟨⟩
    exact scanned _ _ rfl

theorem Below.purgerStepped (below : Below t) {p : Purger} {purger : Option Purger} (running : t.purger = some p)
    (moved : PurgerMoved conf t.store p store purger) : Below { t with store := store, purger := purger } := by
  have bounds := below.purger p running
  cases moved with
  | expired =>
    rename_i e entries
    refine ⟨?_, ?_, ?_, ?_, ?_, ?_, below.elg, below.requested⟩
    · exact fun k mem => below.data k (mem_of_mem_eraseAll mem)
    · exact fun k mem => below.index k (mem_of_mem_eraseAll mem)
    · exact fun k mem => below.prio k (mem_of_mem_eraseAll mem)
    · exact fun k mem => below.deprio k (mem_of_mem_eraseAll mem)
    · exact fun k mem => below.inelg k (mem_of_mem_eraseAll mem)
    · rintro _ ⟨⟩
      exact ⟨by rintro _ _ _ ⟨⟩, by rintro _ _ _ _ ⟨⟩⟩
  | opened =>
    refine { below with purger := ?_ }
    rintro _ ⟨⟩
    exact purgerBelow_marking (.empty _) (by rintro _ _ ⟨⟩)
  | scanned =>
    refine { below with purger := ?_ }
    rintro _ ⟨⟩
    refine purgerBelow_marking (bounds.pending _ _ _ rfl) ?_
    rintro _ _ ⟨⟩ e mem
    exact below.index _ (mem_of_get (mem_hashedIndexRange mem).1)
  | processed =>
    have scanned := forall_mem_cons.mp (bounds.scanned _ _ _ _ rfl)
    refine { below with purger := ?_ }
    rintro _ ⟨⟩
    refine purgerBelow_marking ((bounds.pending _ _ _ rfl).process scanned.1) ?_
    rintro _ _ ⟨⟩
    exact scanned.2
  | flushed =>
    have scanned := forall_mem_cons.mp (bounds.scanned _ _ _ _ rfl)
    have pending := (bounds.pending _ _ _ rfl).process (s := t.store) scanned.1
    refine ⟨commitPendingChanges_below pending.written below.data, ?_, below.prio, below.deprio, below.inelg, ?_, below.elg, below.requested⟩
    · exact fun k mem => below.index k (mem_of_mem_eraseAll mem)
    · rintro _ ⟨⟩
      refine purgerBelow_marking (.empty _) ?_
      rintro _ _ ⟨⟩
      exact scanned.2
  | markerDone =>
    refine { below with purger := ?_ }
    have pending := bounds.pending _ _ _ rfl
    rintro _ ⟨⟩
    exact purgerBelow_marking ⟨pending.written, pending.deleted⟩ (by rintro _ _ ⟨⟩)
  | finished =>
    refine ⟨commitPendingChanges_below (bounds.pending _ _ _ rfl).written below.data, ?_, below.prio, below.deprio, below.inelg,
      ?_, below.elg, below.requested⟩
    · exact fun k mem => below.index k (mem_of_mem_eraseAll mem)
    · rintro _ ⟨⟩

theorem blkNum_of_mem_prepareHashedIndexEntries {entries : List (DataKey × PvtKVRWSet)}
    (bounded : ∀ d ∈ entries, d.1.blkNum < n) (mem : e ∈ prepareHashedIndexEntries codec entries) : e.1.blkNum < n := by
  obtain ⟨d, listed, mem⟩ := mem_flatMap.mp mem
  obtain ⟨w, _, rfl⟩ := List.mem_map.mp mem
  exact bounded d listed

theorem Below.committed (below : Below t) {scheduled : List Nat}
    (committed : Committed conf.codec conf.btlPolicy t.store pvtData missing markers store) :
    Below { t with store := store, validated := false, scheduledPurges := scheduled } := by
  have next := committed.nextBlockNum
  have newData : ∀ d ∈ prepareDataEntries t.store.nextBlockNum pvtData, d.1.blkNum < t.store.nextBlockNum + 1 :=
    fun d mem => by rw [blkNum_of_mem_prepareDataEntries mem]; exact Nat.lt_succ_self _
  have added : ∀ (m : MissingEntries) (eligible : Bool), (∀ k ∈ m, k.blkNum < t.store.nextBlockNum) →
      ∀ k ∈ m ∪ prepareMissingDataEntries t.store.nextBlockNum missing eligible, k.blkNum < t.store.nextBlockNum + 1 := by
    intro m eligible bounded k mem
    rcases mem_union_iff.mp mem with before | new
    · exact Nat.lt_succ_of_lt (bounded k before)
    · rw [(key_of_mem_prepareMissingDataEntries new).1]
      exact Nat.lt_succ_self _
  refine ⟨?_, ?_, ?_, ?_, ?_, ?_, ?_, ?_⟩ <;> simp only [next]
  · rw [committed.dataEntries]
    intro k mem
    rcases mem_of_mem_putAll mem with before | ⟨d, new, rfl⟩
    · exact Nat.lt_succ_of_lt (below.data k before)
    · exact newData d new
  · rw [committed.hashedIndexEntries]
    intro k mem
    rcases mem_of_mem_putAll mem with before | ⟨e, new, rfl⟩
    · exact Nat.lt_succ_of_lt (below.index k before)
    · exact blkNum_of_mem_prepareHashedIndexEntries newData new
  · rw [committed.elgPrioMissing]
    exact added _ _ below.prio
  · rw [committed.elgDeprioMissing]
    exact fun k mem => Nat.lt_succ_of_lt (below.deprio k mem)
  · rw [committed.inelgMissing]
    exact added _ _ below.inelg
  · exact fun p running => (below.purger p running).mono (Nat.le_succ _)
  · exact fun p running e mem => Nat.lt_succ_of_lt (below.elg p running e mem)
  · exact fun e mem => Nat.lt_succ_of_lt (below.requested e mem)

theorem Below.reconciled (below : Below t) {fetched : List (NsCollBlk × Nat)} (asked : ∀ e ∈ fetched, e ∈ t.requested)
    (received : ∀ k ∈ data.dataKeys, k.missingKey ∈ fetched) : Below { t with
      store := t.store.commitPvtDataOfOldBlocks conf.btlPolicy conf.codec data (t.requested.filter (· ∉ fetched))
      requested := [] } := by
  have bounded : ∀ k ∈ data.dataKeys, k.blkNum < t.store.nextBlockNum :=
    fun k mem => below.requested _ (asked _ (received k mem))
  have stored : ∀ k ∈ (reconciledEntries conf.btlPolicy t.store data).dataEntries, k.blkNum < t.store.nextBlockNum :=
    fun k mem => bounded k (dataKey_of_mem_reconciledEntries mem)
  have missing : ∀ K, K ∈ (missingAfter conf.btlPolicy t.store data
        (t.requested.filter (· ∉ fetched))).prioritizedMissingDataEntries ∨
      K ∈ (missingAfter conf.btlPolicy t.store data
        (t.requested.filter (· ∉ fetched))).deprioritizedMissingDataEntries → K.blkNum < t.store.nextBlockNum := by
    intro K mem
    refine mem_missingAfter (·.blkNum < t.store.nextBlockNum) bounded (fun e listed => ?_) mem
    exact below.requested e (mem_filter.mp listed).1
  rw [commitPvtDataOfOldBlocks_eq]
  refine ⟨?_, ?_, ?_, ?_, below.inelg, below.purger, below.elg, by simp⟩
  · intro k mem
    rcases mem_union_iff.mp mem with before | new
    · exact below.data k before
    · exact stored k new
  · intro k mem
    rcases mem_of_mem_putAll mem with before | ⟨e, new, rfl⟩
    · exact below.index k before
    · refine blkNum_of_mem_prepareHashedIndexEntries (fun d listed => stored _ ?_) new
      exact mem_of_mem_toList listed
  · intro k mem
    rcases mem_of_mem_putMissing mem with before | changed
    · exact below.prio k before
    · exact missing k (.inl changed)
  · intro k mem
    rcases mem_of_mem_putMissing mem with before | changed
    · exact below.deprio k before
    · exact missing k (.inr changed)

theorem Below.step (below : Below t) {l : StoreStep} (moved : Moved conf t l t') : Below t' := by
  have elgOnly : ∀ {p : ElgProc}, (∀ e ∈ p.entries ++ p.converted, e.1.blkNum < t.store.nextBlockNum) →
      Below { t with elgProc := some p } := by
    intro p bounded
    refine { below with elg := ?_ }
    rintro _ ⟨⟩
    exact bounded
  cases moved with
  | validated idle => exact { below with }
  | committed ready stored purges => exact below.committed (committed_of_commit stored)
  | purgerStarted free scheduled =>
    refine { below with purger := ?_ }
    rintro _ ⟨⟩
    exact ⟨by rintro _ _ _ ⟨⟩, by rintro _ _ _ _ ⟨⟩⟩
  | purgerStepped running moved => exact below.purgerStepped running moved
  | elgStarted free idle => exact elgOnly (by simp)
  | scanned running awake noEntries current listed =>
    refine elgOnly fun e mem => ?_
    rcases mem_append.mp mem with range | converted
    · exact below.inelg _ (mem_of_get (mem_inelgMissingRange.mp range).1)
    · exact below.elg _ running e (mem_append_right _ converted)
  | @converted p e entries running awake next =>
    have bounded : ∀ x ∈ entries ++ (p.converted ++ [e]), x.1.blkNum < t.store.nextBlockNum := by
      intro x mem
      refine below.elg p running x ?_
      rw [next]
      simp only [mem_append, mem_cons, not_mem_nil, or_false] at mem ⊢
      tauto
    rcases convertEntry_cases with ⟨q, isQ, result⟩ | result
    · rw [result]
      subst isQ
      have written := below.writeBatch (p := { p with entries := entries, converted := p.converted ++ [e] })
        fun x mem => bounded x (mem_append_right _ mem)
      refine { below with prio := written.1, inelg := written.2, elg := ?_ }
      rintro _ ⟨⟩ x mem
      exact bounded x (mem_append_left _ (by simpa using mem))
    · rw [result]
      exact elgOnly bounded
  | eventDone running awake noEntries current =>
    have bounded := below.elg _ running
    exact elgOnly bounded
  | elgFinished running awake noEntries noEvents =>
    have written := below.writeBatch fun x mem => below.elg _ running x (mem_append_right _ mem)
    refine { below with prio := written.1, inelg := written.2, elg := ?_ }
    rintro _ ⟨⟩
  | woken running asleep free =>
    have bounded := below.elg _ running
    exact elgOnly bounded
  | requested recorded =>
    refine { below with requested := fun e mem => ?_ }
    rcases recorded with prio | deprio
    · exact below.prio _ (mem_of_has (prio e mem))
    · exact below.deprio _ (mem_of_has (deprio e mem))
  | reconciled free asked received => exact below.reconciled asked received
  | readerOpened idle opened => exact { below with }
  | readerMoved reading moved => exact { below with }
  | readerClosed reading noEntries noFiltering => exact { below with }
  | restarted =>
    refine { below with purger := ?_, elg := ?_, requested := ?_ }
    · rintro _ ⟨⟩
    · rintro _ ⟨⟩
    · rintro _ ⟨⟩

end Fabric.Proof.PvtdataStore
