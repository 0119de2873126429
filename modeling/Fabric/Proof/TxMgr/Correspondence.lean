import Fabric.Proof.Private.Genuine
import Fabric.Proof.TxMgr.Builder

/-! # The public and the private part of the results -/

namespace Fabric.Proof.TxMgr

open Lib Fabric.Ledger Fabric.Ledger.Validation Proof.Private List

def Ascending (names : List Bytes) : Prop := names.Pairwise fun a b => compare a b = .lt

variable {V : Type}

theorem ascending_toList (m : Map Bytes V) : Ascending (m.toList.map (·.1)) :=
  pairwise_map.mpr (KeySorted.toList m)

variable (codec : Codec) (ops : List BuilderOp)

def lastWrite (ns coll key : Bytes) : Option (Bytes × Bool) := lastFor key (ops.flatMap (pvtWritesOf ns coll))

def hashOfWrite (purged : Bool) (w : KVWrite) : KVWriteHash where
  keyHash := codec.computeHash w.key
  isDelete := w.isDelete
  valueHash := if w.isDelete then [] else codec.computeHash w.value
  isPurge := purged

/-- The private write-set of a collection holds the last writes, and the hashed one their hashes in the same order. -/
structure CollCorrespondence (ns : Bytes) (p : CollPvtRwSet) (c : CollHashedRwSet) : Prop where
  keys : Ascending (p.kvRwSet.writes.map (·.key))
  lastWrites : ∀ w, w ∈ p.kvRwSet.writes ↔
    w.isDelete = w.value.isEmpty ∧ ∃ purged, lastWrite ops ns p.collectionName w.key = some (w.value, purged)
  hashes : c.hashedRwSet.hashedWrites = p.kvRwSet.writes.map fun w =>
    hashOfWrite codec ((lastWrite ops ns p.collectionName w.key).any (·.2)) w
  purges : ∀ h ∈ c.hashedRwSet.hashedWrites, h.isPurge → h.isDelete
  metadataKeys : Ascending (p.kvRwSet.metadataWrites.map (·.key))
  metadataWrites : ∀ w, w ∈ p.kvRwSet.metadataWrites ↔
    w.entries = [] ∧ ∃ metadata, (w.key, metadata) ∈ ops.flatMap (pvtMetadataOf ns p.collectionName)
  metadataHashes : c.hashedRwSet.metadataWrites = p.kvRwSet.metadataWrites.map fun w =>
    mapToMetadataWriteHash codec w.key ((lastFor w.key (ops.flatMap (pvtMetadataOf ns p.collectionName))).getD ∅)

structure Correspondence (results : TxSimulationResults) : Prop where
  nameSpaces : Ascending (results.pubSimulationResults.nsRwSets.map (·.nameSpace))
  pubSets : ∀ n ∈ results.pubSimulationResults.nsRwSets, Ascending (n.collHashedRwSets.map (·.collectionName)) ∧
    Ascending (n.kvRwSet.reads.map (·.key)) ∧ Ascending (n.kvRwSet.writes.map (·.key)) ∧
    Ascending (n.kvRwSet.metadataWrites.map (·.key))
  pvtSets : ∀ data, results.pvtSimulationResults = some data → Ascending (data.nsPvtRwSet.map (·.nameSpace)) ∧
    ∀ n ∈ data.nsPvtRwSet, Ascending (n.collPvtRwSets.map (·.collectionName))
  written : ∀ ns coll, ops.any (writesColl ns coll) ↔ ∃ data, results.pvtSimulationResults = some data ∧
    ∃ p, (ns, p) ∈ collSets data ∧ p.collectionName = coll
  hashed : ∀ data ns p, results.pvtSimulationResults = some data → (ns, p) ∈ collSets data →
    ∃ n ∈ results.pubSimulationResults.nsRwSets, n.nameSpace = ns ∧
      ∃ c ∈ n.collHashedRwSets, c.collectionName = p.collectionName ∧ CollCorrespondence codec ops ns p c
  readOnly : ∀ n ∈ results.pubSimulationResults.nsRwSets, ∀ c ∈ n.collHashedRwSets,
    ¬ ops.any (writesColl n.nameSpace c.collectionName) → c.hashedRwSet.hashedWrites = [] ∧ c.hashedRwSet.metadataWrites = []
  validated : ∀ data tx, results.pvtSimulationResults = some data → tx.rwset = results.pubSimulationResults →
    validatePvtdata codec tx data = .ok ()

variable {codec ops} {ns coll key : Bytes}

theorem mem_toList_putAll {entries : List (Bytes × V)} {v : V} :
    (key, v) ∈ (putAll (∅ : Map Bytes V) entries).toList ↔ lastFor key entries = some v := by
  rw [mem_toList_iff_getElem?_eq_some, get_putAll]
  simp

theorem empty_of_purged {value : Bytes} (last : lastWrite ops ns coll key = some (value, true)) : value = [] := by
  obtain ⟨op, _, mem⟩ := mem_flatMap.mp (mem_of_lastFor last)
  cases op with
  | addToPvtAndHashedWriteSetForPurge => simp_all [pvtWritesOf]
  | _ => simp [pvtWritesOf] at mem

theorem CollResult.corresponds {p : CollPvtRwSet} {c : CollHashedRwSet} (result : CollResult codec ops ns c)
    (isSet : p.kvRwSet = pvtSetBy ops ns p.collectionName) (named : c.collectionName = p.collectionName) :
    CollCorrespondence codec ops ns p c := by
  obtain ⟨coll, set⟩ := p
  simp only at isSet named
  subst isSet named
  have last : ∀ e ∈ (pvtWritesBy ns c.collectionName ops).toList, lastWrite ops ns c.collectionName e.1 = some e.2 :=
    fun e mem => mem_toList_putAll.mp mem
  refine ⟨?_, ?_, ?_, ?_, ?_, ?_, ?_⟩
  · simp only [pvtSetBy, map_map]
    exact ascending_toList _
  · intro w
    simp only [pvtSetBy, mem_map]
    constructor
    · rintro ⟨e, mem, rfl⟩
      exact ⟨rfl, e.2.2, last e mem⟩
    · rintro ⟨flag, purged, found⟩
      exact ⟨(w.key, w.value, purged), mem_toList_putAll.mpr found, by rw [newKVWrite, ← flag]⟩
  · rw [result.writes, pvtSetBy, map_map]
    refine map_congr_left fun e mem => ?_
    simp only [Function.comp_apply, newKVWrite, last e mem]
    rfl
  · intro h mem purge
    rw [result.writes] at mem
    obtain ⟨⟨key, value, purged⟩, stored, rfl⟩ := mem_map.mp mem
    rw [show purged = true from purge] at stored
    exact List.isEmpty_iff.mpr (empty_of_purged (last (key, value, true) stored))
  · simp only [pvtSetBy, map_map]
    exact ascending_toList _
  · intro w
    simp only [pvtSetBy, mem_map]
    constructor
    · rintro ⟨e, mem, rfl⟩
      exact ⟨rfl, e.2, mem_of_lastFor (mem_toList_putAll.mp mem)⟩
    · rintro ⟨empty, metadata, mem⟩
      obtain ⟨metadata', found⟩ := Option.ne_none_iff_exists'.mp fun none => lastFor_eq_none.mp none metadata mem
      exact ⟨(w.key, metadata'), mem_toList_putAll.mpr found, by rw [← empty]⟩
  · rw [result.metadataWrites, pvtSetBy, map_map]
    refine map_congr_left fun e mem => ?_
    simp only [Function.comp_apply, mem_toList_putAll.mp mem]
    rfl

theorem pvtSets_ascending {data : TxPvtRwSet} (pvtData : (RWSetBuilder.applyAll codec ops).getTxPvtReadWriteSet = some data) :
    Ascending (data.nsPvtRwSet.map (·.nameSpace)) ∧ ∀ n ∈ data.nsPvtRwSet, Ascending (n.collPvtRwSets.map (·.collectionName)) := by
  unfold RWSetBuilder.getTxPvtReadWriteSet at pvtData
  simp only [Option.ite_none_left_eq_some, Option.some.injEq] at pvtData
  obtain ⟨_, rfl⟩ := pvtData
  constructor
  · rw [map_map]
    refine sorted_of_named fun ns nb found => ?_
    rw [← nameSpace_getOrCreateNsPvtRwBuilder codec ns ops, RWSetBuilder.getOrCreateNsPvtRwBuilder, found]
    rfl
  · intro n mem
    obtain ⟨nb, ofMap, rfl⟩ := mem_map.mp mem
    obtain ⟨ns, found⟩ := mem_getValuesBySortedKeys.mp ofMap
    rw [NsPvtRwBuilder.build, map_map]
    refine sorted_of_named fun coll pb stored => ?_
    have built := build_collPvtRwBuilder codec ops ns coll
    rw [RWSetBuilder.getOrCreateCollPvtRwBuilder, RWSetBuilder.getOrCreateNsPvtRwBuilder, found, Option.getD_some, stored] at built
    exact congrArg CollPvtRwSet.collectionName built

theorem retrieveHash_results {tx : Transaction}
    (isTx : tx.rwset = ((RWSetBuilder.applyAll codec ops).getTxSimulationResults codec).pubSimulationResults)
    (written : ops.any (writesColl ns coll)) :
    tx.retrieveHash ns coll = some (codec.computeHash (codec.marshalKVRWSet (pvtSetBy ops ns coll))) := by
  obtain ⟨_, all, stored⟩ := nsResults codec ops
  rw [← isTx] at all stored
  unfold Transaction.retrieveHash
  cases found : retrieveHashedColl tx.rwset ns coll with
  | none =>
    obtain ⟨n, ofNs, named, c, ofColl, isColl⟩ := stored ns coll (usesColl_of_writesColl written)
    simp only [retrieveHashedColl, findSome?_eq_none_iff, find?_eq_none] at found
    exact absurd (decide_eq_true isColl) (found n (mem_filter.mpr ⟨ofNs, decide_eq_true named⟩) c ofColl)
  | some c =>
    obtain ⟨n, ofNs, ofColl, rfl, rfl⟩ := mem_of_retrieveHashedColl found
    exact (((all n ofNs).colls c ofColl).hash).trans (if_pos written)

/-- The two parts of the results of any operations agree. -/
theorem results_correspond (codec : Codec) (ops : List BuilderOp) :
    Correspondence codec ops ((RWSetBuilder.applyAll codec ops).getTxSimulationResults codec) := by
  obtain ⟨sorted, all, stored⟩ := nsResults codec ops
  refine ⟨sorted, fun n mem => ⟨(all n mem).sorted, ?_, ?_, ?_⟩, fun data => pvtSets_ascending, ?_, ?_,
    fun n mem c ofColl => ((all n mem).colls c ofColl).unwritten, ?_⟩
  · rw [(all n mem).reads, map_map]
    exact ascending_toList _
  · rw [(all n mem).writes, map_map]
    exact ascending_toList _
  · rw [(all n mem).metadataWrites, map_map]
    exact ascending_toList _
  · intro ns coll
    constructor
    · intro written
      cases pvtData : (RWSetBuilder.applyAll codec ops).getTxPvtReadWriteSet with
      | none => simp [unwritten_of_none codec ops pvtData] at written
      | some data =>
        exact ⟨data, pvtData, ⟨coll, pvtSetBy ops ns coll⟩, (mem_collSets codec ops pvtData).mpr ⟨written, rfl⟩, rfl⟩
    · rintro ⟨data, pvtData, p, mem, rfl⟩
      exact ((mem_collSets codec ops pvtData).mp mem).1
  · intro data ns p pvtData mem
    obtain ⟨written, isSet⟩ := (mem_collSets codec ops pvtData).mp mem
    obtain ⟨n, ofNs, rfl, c, ofColl, named⟩ := stored ns p.collectionName (usesColl_of_writesColl written)
    exact ⟨n, ofNs, rfl, c, ofColl, named, ((all n ofNs).colls c ofColl).corresponds isSet named⟩
  · intro data tx pvtData isTx
    refine forM_eq_ok.mpr fun n ofNs => forM_eq_ok.mpr fun c ofColl => ?_
    have mem : (n.nameSpace, c) ∈ collSets data := mem_flatMap.mpr ⟨n, ofNs, mem_map_of_mem ofColl⟩
    obtain ⟨written, isSet⟩ := (mem_collSets codec ops pvtData).mp mem
    simp [validateCollPvtdata, retrieveHash_results isTx written, isSet]

end Fabric.Proof.TxMgr
