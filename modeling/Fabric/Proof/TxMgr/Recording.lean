import Fabric.Ledger.TxMgr.Simulator
import Fabric.Ledger.Validation.RangeQuery
import Fabric.Proof.TxMgr.Builder

/-! # What a simulation records -/

namespace Fabric.Proof.TxMgr

open Lib Fabric.Ledger Fabric.Ledger.Validation Fabric.Ledger.TxMgr List Option RWSetBuilder RangeQueryResultsHelper

variable {op : BuilderOp} {key : Bytes} {version : Option Height} {itr : ResultsItr} {α β : Type} {s' : TxSimulator}

structure Scan where
  ns : Bytes
  startKey : Bytes
  endKey : Bytes
  pageSize : Int
  advances : Nat

def Scan.advance (scan : Scan) : Scan := { scan with advances := scan.advances + 1 }

@[simp] theorem Scan.advance_startKey (scan : Scan) : scan.advance.startKey = scan.startKey := rfl

@[simp] theorem Scan.advance_endKey (scan : Scan) : scan.advance.endKey = scan.endKey := rfl

-- `unchecked` are the private keys whose last recorded read came from `getPrivateDataMultipleKeys`.
structure Usage where
  scans : List Scan
  unchecked : List CollKey
  wrote : Bool
  queried : Bool

def Usage.initial : Usage := ⟨[], [], false, false⟩

variable {unchecked : List CollKey} {b : RWSetBuilder} {ns coll : Bytes} {scan : Scan} {i : Nat} {u : Usage}
  {s : TxSimulator}

section

variable (env : SimulatorEnv)

def knownColl (ns coll : Bytes) : Bool := (env.validateCollName ns coll).toBool

def Usage.openScan (u : Usage) (scan : Scan) : Usage := { u with scans := u.scans ++ [scan] }

def Usage.write (u : Usage) (allowed : Bool) : Usage := { u with wrote := u.wrote || (allowed && !u.queried) }

def Usage.after (u : Usage) : Call → Usage
  | .getState _ _ | .getStateMetadata _ _ | .getStateMultipleKeys _ _ | .getPrivateData _ _ _ => u
  | .getStateRangeScanIterator ns startKey endKey => u.openScan ⟨ns, startKey, endKey, 0, 0⟩
  | .getStateRangeScanIteratorWithPagination ns startKey endKey pageSize =>
    if u.wrote then u else { u.openScan ⟨ns, startKey, endKey, pageSize, 0⟩ with queried := true }
  | .next i => { u with scans := u.scans.modify i Scan.advance }
  | .getPrivateDataHash ns coll key | .getPrivateDataMetadata ns coll key =>
    if knownColl env ns coll then { u with unchecked := u.unchecked.filter (· ≠ ⟨ns, coll, key⟩) } else u
  | .getPrivateDataMultipleKeys ns coll keys =>
    if knownColl env ns coll then { u with unchecked := u.unchecked ++ keys.map (⟨ns, coll, ·⟩) } else u
  | .getPrivateDataRangeScanIterator _ _ _ _ => if u.wrote then u else { u with queried := true }
  | .setState _ _ _ | .setStateMetadata _ _ _ => u.write true
  | .setPrivateData ns coll _ _ | .purgePrivateData ns coll _ | .setPrivateDataMetadata ns coll _ _ =>
    u.write (knownColl env ns coll)

def usage (calls : List Call) : Usage := calls.foldl (Usage.after env) Usage.initial

end

section

variable {env : SimulatorEnv}

def recordedVersion (env : SimulatorEnv) (unchecked : List CollKey) (k : CollKey) : Option Height :=
  if k ∈ unchecked then env.db.pvt.getVersion k
  else env.db.hashed.getVersion (TxSimulator.hashedKey env k.ns k.coll k.key)

structure Recorded (env : SimulatorEnv) (unchecked : List CollKey) (b : RWSetBuilder) : Prop where
  nsName : ∀ ns, (b.getOrCreateNsPubRwBuilder ns).nameSpace = ns
  collName : ∀ ns coll, (b.getOrCreateCollHashedRwBuilder ns coll).collName = coll
  reads : ∀ (ns key : Bytes) (read : KVRead), (b.getOrCreateNsPubRwBuilder ns).readMap[key]? = some read →
    read = ⟨key, env.db.pub.getVersion ⟨ns, key⟩⟩
  hashedReads : ∀ (ns coll key : Bytes) (read : KVReadHash),
    (b.getOrCreateCollHashedRwBuilder ns coll).readMap[key]? = some read →
    read = ⟨env.codec.computeHash key, recordedVersion env unchecked ⟨ns, coll, key⟩⟩
  read : ∀ k ∈ unchecked, (b.getOrCreateCollHashedRwBuilder k.ns k.coll).readMap[k.key]?.isSome

structure SameReads (b b' : RWSetBuilder) : Prop where
  nsName : ∀ ns, (b'.getOrCreateNsPubRwBuilder ns).nameSpace = (b.getOrCreateNsPubRwBuilder ns).nameSpace
  reads : ∀ ns, (b'.getOrCreateNsPubRwBuilder ns).readMap = (b.getOrCreateNsPubRwBuilder ns).readMap
  collName : ∀ ns coll, (b'.getOrCreateCollHashedRwBuilder ns coll).collName =
    (b.getOrCreateCollHashedRwBuilder ns coll).collName
  hashedReads : ∀ ns coll, (b'.getOrCreateCollHashedRwBuilder ns coll).readMap =
    (b.getOrCreateCollHashedRwBuilder ns coll).readMap

def SameQueries (b b' : RWSetBuilder) : Prop :=
  ∀ ns, (b'.getOrCreateNsPubRwBuilder ns).rangeQueries = (b.getOrCreateNsPubRwBuilder ns).rangeQueries

theorem Recorded.initial (env : SimulatorEnv) : Recorded env [] newRWSetBuilder := by
  constructor <;> simp [newRWSetBuilder, getOrCreateNsPubRwBuilder, newNsPubRwBuilder, getOrCreateCollHashedRwBuilder, newCollHashRwBuilder]

theorem Recorded.of_same {b' : RWSetBuilder} (recorded : Recorded env unchecked b) (same : SameReads b b') : Recorded env unchecked b' := by
  constructor
  · intro ns
    rw [same.nsName]
    exact recorded.nsName ns
  · intro ns coll
    rw [same.collName]
    exact recorded.collName ns coll
  · intro ns key read
    rw [same.reads]
    exact recorded.reads ns key read
  · intro ns coll key read
    rw [same.hashedReads]
    exact recorded.hashedReads ns coll key read
  · intro k
    rw [same.hashedReads]
    exact recorded.read k

variable (codec : Codec)

theorem SameReads.apply (b : RWSetBuilder) (op : BuilderOp) (pub : ∀ ns, readsOf ns op = [])
    (hashed : ∀ ns coll, hashedReadsOf ns coll op = []) : SameReads b (b.apply codec op) := by
  constructor
  · intro ns
    obtain ⟨colls, queries, changed, _⟩ := getOrCreateNsPubRwBuilder_apply codec b op ns
    rw [changed]
  · intro ns
    obtain ⟨colls, queries, changed, _⟩ := getOrCreateNsPubRwBuilder_apply codec b op ns
    rw [changed, pub]
    rfl
  · intro ns coll
    rw [getOrCreateCollHashedRwBuilder_apply]
  · intro ns coll
    rw [getOrCreateCollHashedRwBuilder_apply, hashed]
    rfl

theorem SameReads.setCollHashed {collBuilder : CollHashRwBuilder}
    (name : collBuilder.collName = (b.getOrCreateCollHashedRwBuilder ns coll).collName)
    (reads : collBuilder.readMap = (b.getOrCreateCollHashedRwBuilder ns coll).readMap) :
    SameReads b (b.setCollHashed ns coll collBuilder) := by
  constructor
  · intro ns'
    obtain ⟨colls, changed⟩ := b.getOrCreateNsPubRwBuilder_setCollHashed ns coll ns' collBuilder
    rw [changed]
  · intro ns'
    obtain ⟨colls, changed⟩ := b.getOrCreateNsPubRwBuilder_setCollHashed ns coll ns' collBuilder
    rw [changed]
  · intro ns' coll'
    rw [getOrCreateCollHashedRwBuilder_setCollHashed]
    split
    · rename_i same
      rw [name, same.1, same.2]
    · rfl
  · intro ns' coll'
    rw [getOrCreateCollHashedRwBuilder_setCollHashed]
    split
    · rename_i same
      rw [reads, same.1, same.2]
    · rfl

theorem SameQueries.setCollHashed (b : RWSetBuilder) (ns coll : Bytes) (collBuilder : CollHashRwBuilder) :
    SameQueries b (b.setCollHashed ns coll collBuilder) := by
  intro ns'
  obtain ⟨colls, changed⟩ := b.getOrCreateNsPubRwBuilder_setCollHashed ns coll ns' collBuilder
  rw [changed]

theorem SameQueries.apply (b : RWSetBuilder) (op : BuilderOp)
    (other : ∀ ns rqi, op ≠ .addToRangeQuerySet ns rqi) : SameQueries b (b.apply codec op) := by
  intro ns
  obtain ⟨colls, queries, changed, kept⟩ := getOrCreateNsPubRwBuilder_apply codec b op ns
  rw [changed]
  exact kept other

theorem SameReads.refl (b : RWSetBuilder) : SameReads b b :=
  ⟨fun _ => rfl, fun _ => rfl, fun _ _ => rfl, fun _ _ => rfl⟩

theorem SameReads.trans {a c : RWSetBuilder} (first : SameReads a b) (second : SameReads b c) : SameReads a c where
  nsName ns := (second.nsName ns).trans (first.nsName ns)
  reads ns := (second.reads ns).trans (first.reads ns)
  collName ns coll := (second.collName ns coll).trans (first.collName ns coll)
  hashedReads ns coll := (second.hashedReads ns coll).trans (first.hashedReads ns coll)

def isWrite : BuilderOp → Bool
  | .addToReadSet _ _ _ | .addToHashedReadSet _ _ _ _ | .addToRangeQuerySet _ _ => false
  | _ => true

theorem SameReads.write (b : RWSetBuilder) (writes : isWrite op = true) : SameReads b (b.apply codec op) := by
  cases op <;> first | exact .apply codec b _ (fun _ => rfl) fun _ _ => rfl | cases writes

theorem SameQueries.write (b : RWSetBuilder) (writes : isWrite op = true) : SameQueries b (b.apply codec op) := by
  refine .apply codec b op ?_
  rintro ns rqi rfl
  cases writes

theorem readMap_addToReadSet (b : RWSetBuilder) (ns key ns' key' : Bytes) (version : Option Height) :
    ((b.addToReadSet ns key version).getOrCreateNsPubRwBuilder ns').readMap[key']? =
      if ns = ns' ∧ key = key' then some ⟨key, version⟩ else (b.getOrCreateNsPubRwBuilder ns').readMap[key']? := by
  rw [addToReadSet, getOrCreateNsPubRwBuilder_setNsPub]
  by_cases sameNs : ns = ns'
  · subst sameNs
    simp only [if_true, true_and, get_insert]
    rfl
  · simp [sameNs]

theorem readMap_addToHashedReadSet (b : RWSetBuilder) (ns coll key ns' coll' key' : Bytes) (version : Option Height) :
    ((b.addToHashedReadSet codec ns coll key version).getOrCreateCollHashedRwBuilder ns' coll').readMap[key']? =
      if ns = ns' ∧ coll = coll' ∧ key = key' then some ⟨codec.computeHash key, version⟩
      else (b.getOrCreateCollHashedRwBuilder ns' coll').readMap[key']? := by
  rw [addToHashedReadSet, getOrCreateCollHashedRwBuilder_setCollHashed]
  by_cases same : ns = ns' ∧ coll = coll'
  · obtain ⟨rfl, rfl⟩ := same
    simp only [and_self, if_true, true_and, get_insert]
    rfl
  · rw [if_neg same, if_neg]
    rintro ⟨sameNs, sameColl, -⟩
    exact same ⟨sameNs, sameColl⟩

theorem Recorded.addToReadSet (recorded : Recorded env unchecked b) (ns key : Bytes) :
    Recorded env unchecked (b.addToReadSet ns key (env.db.pub.getVersion ⟨ns, key⟩)) := by
  have colls : ∀ ns' coll', (b.addToReadSet ns key (env.db.pub.getVersion ⟨ns, key⟩)).getOrCreateCollHashedRwBuilder
      ns' coll' = b.getOrCreateCollHashedRwBuilder ns' coll' :=
    fun ns' coll' => getOrCreateCollHashedRwBuilder_setNsPub _ _ _ _ _ rfl
  constructor
  · intro ns'
    obtain ⟨_, _, changed, _⟩ := getOrCreateNsPubRwBuilder_apply env.codec b (.addToReadSet ns key _) ns'
    exact (congrArg NsPubRwBuilder.nameSpace changed).trans (recorded.nsName ns')
  · intro ns' coll'
    rw [colls]
    exact recorded.collName ns' coll'
  · intro ns' key' read found
    rw [readMap_addToReadSet] at found
    split at found
    · rename_i same
      obtain ⟨rfl, rfl⟩ := same
      exact (some.inj found).symm
    · exact recorded.reads ns' key' read found
  · intro ns' coll' key' read
    rw [colls]
    exact recorded.hashedReads ns' coll' key' read
  · intro k
    rw [colls]
    exact recorded.read k

theorem Recorded.addToHashedReadSet {unchecked' : List CollKey} (recorded : Recorded env unchecked b)
    (others : ∀ k, k ≠ ⟨ns, coll, key⟩ → (k ∈ unchecked' ↔ k ∈ unchecked))
    (now : version = recordedVersion env unchecked' ⟨ns, coll, key⟩) :
    Recorded env unchecked' (b.addToHashedReadSet env.codec ns coll key version) := by
  have names : ∀ ns', ∃ colls, (b.addToHashedReadSet env.codec ns coll key version).getOrCreateNsPubRwBuilder ns' =
      { b.getOrCreateNsPubRwBuilder ns' with collHashRwBuilders := colls } :=
    fun ns' => b.getOrCreateNsPubRwBuilder_setCollHashed ns coll ns' _
  constructor
  · intro ns'
    obtain ⟨colls, changed⟩ := names ns'
    rw [changed]
    exact recorded.nsName ns'
  · intro ns' coll'
    exact (congrArg CollHashRwBuilder.collName (getOrCreateCollHashedRwBuilder_apply env.codec b
      (.addToHashedReadSet ns coll key version) ns' coll')).trans (recorded.collName ns' coll')
  · intro ns' key' read
    obtain ⟨colls, changed⟩ := names ns'
    rw [changed]
    exact recorded.reads ns' key' read
  · intro ns' coll' key' read found
    rw [readMap_addToHashedReadSet] at found
    split at found
    · rename_i same
      obtain ⟨rfl, rfl, rfl⟩ := same
      rw [← some.inj found, now]
    · rename_i other
      have kept := others ⟨ns', coll', key'⟩ (by rintro ⟨⟩; exact other ⟨rfl, rfl, rfl⟩)
      simp only [recordedVersion, kept]
      exact recorded.hashedReads ns' coll' key' read found
  · intro k member
    rw [readMap_addToHashedReadSet]
    split
    · rfl
    · rename_i other
      exact recorded.read k ((others k (by rintro rfl; exact other ⟨rfl, rfl, rfl⟩)).mp member)

end

section

variable (env : SimulatorEnv)

def Scan.results (scan : Scan) : List VersionedKV :=
  TxMgr.getStateRangeScanIteratorWithPagination env.db.pub scan.ns scan.startKey scan.endKey scan.pageSize

def Scan.returned (scan : Scan) : List VersionedKV := (scan.results env).take scan.advances

def Scan.drained (scan : Scan) : Bool := (scan.results env).length < scan.advances

def Scan.recordedEnd (scan : Scan) : Bytes :=
  if scan.drained env then scan.endKey else ((scan.returned env).getLast?.map (·.1)).getD []

def Scan.bounds (scan : Scan) : RangeQueryInfo := ⟨scan.startKey, scan.recordedEnd env, scan.drained env, .unset⟩

structure Tracks (scan : Scan) (itr : ResultsItr) : Prop where
  ns : itr.ns = scan.ns
  endKey : itr.endKey = scan.endKey
  left : itr.dbItr = (scan.results env).drop scan.advances
  info : itr.rangeQueryInfo = scan.bounds env
  fed : ∃ helper, newRangeQueryResultsHelper env.queryReadsHashingEnabled env.maxDegreeQueryReadsHashing = .ok helper ∧
    ((scan.returned env).map VersionedKV.toRead).foldlM (addResult env.codec) helper =
      .ok itr.rangeQueryResultsHelper

variable {env}

theorem newRangeQueryResultsHelper_total (degree : 2 ≤ env.maxDegreeQueryReadsHashing) :
    ∃ helper, newRangeQueryResultsHelper env.queryReadsHashingEnabled env.maxDegreeQueryReadsHashing = .ok helper := by
  cases hashing : env.queryReadsHashingEnabled with
  | false => exact ⟨_, rfl⟩
  | true =>
    have enough : ¬ env.maxDegreeQueryReadsHashing < 2 := by omega
    simp only [newRangeQueryResultsHelper, newMerkleTree, if_true, if_neg enough]
    exact ⟨_, rfl⟩

theorem newResultsItr_tracks {startKey endKey : Bytes} {pageSize : Int}
    (created : newResultsItr env ns startKey endKey pageSize = .ok itr) : Tracks env ⟨ns, startKey, endKey, pageSize, 0⟩ itr := by
  simp only [newResultsItr, bind_eq_ok, ok.injEq] at created
  obtain ⟨helper, made, rfl⟩ := created
  constructor
  · rfl
  · rfl
  · rfl
  · simp [Scan.bounds, Scan.recordedEnd, Scan.drained, Scan.returned]
  · exact ⟨helper, made, rfl⟩

theorem Scan.advance_of_none (exhausted : (scan.results env)[scan.advances]? = none) :
    scan.advance.returned env = scan.returned env ∧ scan.advance.drained env = true := by
  have length : (scan.results env).length ≤ scan.advances := List.getElem?_eq_none_iff.mp exhausted
  constructor
  · show (scan.results env).take (scan.advances + 1) = (scan.results env).take scan.advances
    rw [take_of_length_le length, take_of_length_le (by omega)]
  · show decide ((scan.results env).length < scan.advances + 1) = true
    exact decide_eq_true (by omega)

theorem Scan.advance_of_some {kv : VersionedKV} (found : (scan.results env)[scan.advances]? = some kv) :
    scan.advance.returned env = scan.returned env ++ [kv] ∧ scan.advance.drained env = false := by
  have length : scan.advances < (scan.results env).length := (List.getElem?_eq_some_iff.mp found).1
  constructor
  · show (scan.results env).take (scan.advances + 1) = (scan.results env).take scan.advances ++ [kv]
    rw [take_add_one, found]
    rfl
  · show decide ((scan.results env).length < scan.advances + 1) = false
    exact decide_eq_false (by omega)

theorem Tracks.next {itr' : ResultsItr} {kv : Option KV} (tracks : Tracks env scan itr)
    (stepped : itr.next env.codec = .ok (kv, itr')) : Tracks env scan.advance itr' := by
  obtain ⟨ns, endKey, left, info, helper, made, fed⟩ := tracks
  have head : itr.dbItr.head? = (scan.results env)[scan.advances]? := by
    rw [left, head?_drop]
  have tail : itr.dbItr.tail = (scan.results env).drop (scan.advances + 1) := by
    rw [left, tail_drop]
  simp only [ResultsItr.next, bind_eq_ok, ok.injEq, Prod.mk.injEq, head, tail] at stepped
  obtain ⟨moved, updated, _, rfl⟩ := stepped
  cases found : (scan.results env)[scan.advances]? with
  | none =>
    obtain ⟨returned, drained⟩ := Scan.advance_of_none found
    simp only [found, ResultsItr.updateRangeQueryInfo, ok.injEq] at updated
    subst updated
    constructor
    · exact ns
    · exact endKey
    · rfl
    · simp [Scan.bounds, Scan.recordedEnd, drained, info, endKey]
    · exact ⟨helper, made, by rw [returned]; exact fed⟩
  | some result =>
    obtain ⟨returned, drained⟩ := Scan.advance_of_some found
    simp only [found, ResultsItr.updateRangeQueryInfo, bind_eq_ok, ok.injEq] at updated
    obtain ⟨helper', added, rfl⟩ := updated
    have before : scan.drained env = false := by
      have := (List.getElem?_eq_some_iff.mp found).1
      simp only [Scan.drained, decide_eq_false_iff_not]
      omega
    constructor
    · exact ns
    · exact endKey
    · rfl
    · simp [Scan.bounds, Scan.recordedEnd, drained, returned, info, before]
    · refine ⟨helper, made, ?_⟩
      rw [returned, map_append, foldlM_append, fed]
      simp only [map_cons, map_nil, foldlM_cons, foldlM_nil]
      show (addResult env.codec itr.rangeQueryResultsHelper _ >>= fun h => pure h) = _
      rw [bind_pure]
      exact added

theorem ResultsItr.next_total (total : env.codec.Total) (itr : ResultsItr) : ∃ out, itr.next env.codec = .ok out := by
  unfold ResultsItr.next
  cases head : itr.dbItr.head? with
  | none => exact ⟨_, rfl⟩
  | some kv =>
    obtain ⟨helper, added⟩ := addResult_total total itr.rangeQueryResultsHelper
      (newKVRead kv.1 (some kv.2.version))
    simp only [ResultsItr.updateRangeQueryInfo, added]
    exact ⟨_, rfl⟩

end

variable {R : α → β → Prop} {xs : List α} {ys : List β} {f : α → α} {env : SimulatorEnv}

structure Follows (env : SimulatorEnv) (u : Usage) (s : TxSimulator) : Prop where
  wrote : s.writePerformed = u.wrote
  queried : (s.pvtdataQueriesPerformed || s.paginatedQueriesPerformed) = u.queried
  itrs : List.Forall₂ (Tracks env) u.scans s.itrs
  recorded : Recorded env u.unchecked s.rwsetBuilder
  queries : SameQueries newRWSetBuilder s.rwsetBuilder

theorem Follows.initial (env : SimulatorEnv) : Follows env Usage.initial newTxSimulator where
  wrote := rfl
  queried := rfl
  itrs := .nil
  recorded := Recorded.initial env
  queries _ := rfl

theorem forall₂_modify {y y' : β} (related : List.Forall₂ R xs ys) (found : ys[i]? = some y) (step : ∀ x, R x y → R (f x) y') :
    List.Forall₂ R (xs.modify i f) (ys.set i y') := by
  induction related generalizing i with
  | nil => simp at found
  | cons first rest ih =>
    cases i with
    | zero =>
      cases found
      exact .cons (step _ first) rest
    | succ i => exact .cons first (ih found)

theorem modify_of_none (related : List.Forall₂ R xs ys) (missing : ys[i]? = none) : xs.modify i f = xs := by
  rw [List.getElem?_eq_none_iff, ← related.length_eq] at missing
  exact modify_eq_self missing

section

variable (inv : Follows env u s)
include inv

theorem Follows.withReads (recorded : Recorded env unchecked b) (queries : SameQueries s.rwsetBuilder b) :
    Follows env { u with unchecked } { s with rwsetBuilder := b } where
  wrote := inv.wrote
  queried := inv.queried
  itrs := inv.itrs
  recorded := recorded
  queries ns := (queries ns).trans (inv.queries ns)

theorem Follows.getState (ns key : Bytes) : Follows env u (s.getState env ns key).2 := by
  apply inv.withReads
  · exact inv.recorded.addToReadSet ns key
  · exact SameQueries.apply env.codec _ (.addToReadSet ns key _) (by simp)

theorem Follows.getStateMultipleKeys (ns : Bytes) (keys : List Bytes) : Follows env u (s.getStateMultipleKeys env ns keys).2 := by
  induction keys generalizing s with
  | nil => exact inv
  | cons key keys ih => exact ih (inv.getState ns key)

theorem Follows.addHashedRead (others : ∀ k, k ≠ ⟨ns, coll, key⟩ → (k ∈ unchecked ↔ k ∈ u.unchecked))
    (now : version = recordedVersion env unchecked ⟨ns, coll, key⟩) :
    Follows env { u with unchecked } (s.addHashedRead env ns coll key version) := by
  apply inv.withReads
  · exact inv.recorded.addToHashedReadSet others now
  · exact SameQueries.setCollHashed _ _ _ _

theorem Follows.getPrivateData (ns coll key : Bytes) : Follows env u (orUnchanged s ((s.getPrivateData env ns coll key).map (·.2))) := by
  cases outcome : s.getPrivateData env ns coll key with
  | error failure => exact inv
  | ok out =>
    simp only [TxSimulator.getPrivateData, bind_eq_ok] at outcome
    obtain ⟨_, _, outcome⟩ := outcome
    split at outcome
    · cases outcome
    · rename_i same
      cases outcome
      simp only [areSame_eq, Bool.not_eq_true', decide_eq_false_iff_not, not_not] at same
      apply inv.addHashedRead
      · intro k _
        exact Iff.rfl
      · unfold recordedVersion
        split
        · rfl
        · exact same.symm

theorem Follows.getPrivateDataValueHash (ns coll key : Bytes) : Follows env
      (if knownColl env ns coll then { u with unchecked := u.unchecked.filter (· ≠ ⟨ns, coll, key⟩) } else u)
      (orUnchanged s ((s.getPrivateDataValueHash env ns coll key).map (·.2))) := by
  cases known : env.validateCollName ns coll with
  | error failure =>
    simp only [knownColl, known, Except.toBool, TxSimulator.getPrivateDataValueHash]
    exact inv
  | ok _ =>
    simp only [knownColl, known, Except.toBool, if_true, TxSimulator.getPrivateDataValueHash]
    apply inv.addHashedRead
    · intro k other
      simp [other]
    · simp [recordedVersion, State.getVersion]

theorem Follows.recordPrivateReads (ns coll : Bytes) (keys : List Bytes) :
    Follows env { u with unchecked := u.unchecked ++ keys.map (⟨ns, coll, ·⟩) }
      (s.recordPrivateReads env ns coll keys).2 := by
  induction keys generalizing s u with
  | nil => simpa [TxSimulator.recordPrivateReads] using inv
  | cons key keys ih =>
    have first : Follows env { u with unchecked := u.unchecked ++ [⟨ns, coll, key⟩] }
        (s.addHashedRead env ns coll key (env.db.pvt.getVersion ⟨ns, coll, key⟩)) := by
      apply inv.addHashedRead
      · intro k other
        simp [other]
      · simp [recordedVersion]
    have rest := ih first
    simp only [append_assoc, singleton_append] at rest
    exact rest

theorem Follows.getPrivateDataMultipleKeys (ns coll : Bytes) (keys : List Bytes) : Follows env
      (if knownColl env ns coll then { u with unchecked := u.unchecked ++ keys.map (⟨ns, coll, ·⟩) } else u)
      (orUnchanged s ((s.getPrivateDataMultipleKeys env ns coll keys).map (·.2))) := by
  cases known : env.validateCollName ns coll with
  | error failure =>
    simp only [knownColl, known, Except.toBool, TxSimulator.getPrivateDataMultipleKeys]
    exact inv
  | ok _ =>
    simp only [knownColl, known, Except.toBool, if_true, TxSimulator.getPrivateDataMultipleKeys]
    exact inv.recordPrivateReads ns coll keys

theorem Follows.openScan (degree : 2 ≤ env.maxDegreeQueryReadsHashing) (ns startKey endKey : Bytes) :
    Follows env (u.openScan ⟨ns, startKey, endKey, 0, 0⟩) (orUnchanged s (s.getStateRangeScanIterator env ns startKey endKey)) := by
  obtain ⟨helper, made⟩ := newRangeQueryResultsHelper_total degree
  obtain ⟨itr, created⟩ : ∃ itr, newResultsItr env ns startKey endKey 0 = .ok itr := by
    simp only [newResultsItr, made]
    exact ⟨_, rfl⟩
  simp only [TxSimulator.getStateRangeScanIterator, created]
  exact { inv with
    itrs := rel_append inv.itrs (.cons (newResultsItr_tracks created) .nil) }

theorem Follows.openPage (degree : 2 ≤ env.maxDegreeQueryReadsHashing) (ns startKey endKey : Bytes) (pageSize : Int) : Follows env
      (if u.wrote then u else { u.openScan ⟨ns, startKey, endKey, pageSize, 0⟩ with queried := true })
      (orUnchanged s (s.getStateRangeScanIteratorWithPagination env ns startKey endKey pageSize)) := by
  obtain ⟨helper, made⟩ := newRangeQueryResultsHelper_total degree
  obtain ⟨itr, created⟩ : ∃ itr, newResultsItr env ns startKey endKey pageSize = .ok itr := by
    simp only [newResultsItr, made]
    exact ⟨_, rfl⟩
  unfold TxSimulator.getStateRangeScanIteratorWithPagination TxSimulator.checkBeforePaginatedQueries
  rw [inv.wrote]
  split
  · exact inv
  · simp only [created]
    exact {
      wrote := rfl
      queried := by simp [orUnchanged, bind, Except.bind]
      itrs := rel_append inv.itrs (.cons (newResultsItr_tracks created) .nil)
      recorded := inv.recorded
      queries := inv.queries }

theorem Follows.next (called : s.call env (.next i) = .ok s') : Follows env (u.after env (.next i)) s' := by
  simp only [TxSimulator.call] at called
  split at called
  · rename_i missing
    cases called
    simp only [Usage.after, modify_of_none inv.itrs missing]
    exact inv
  · rename_i itr found
    simp only [bind_eq_ok, ok.injEq] at called
    obtain ⟨⟨kv, itr'⟩, stepped, rfl⟩ := called
    exact { inv with
      itrs := forall₂_modify inv.itrs found fun scan tracks => tracks.next stepped }

theorem Follows.checkWritePrecondition : (u.queried = true ∧ ∃ failure, s.checkWritePrecondition env = .error failure) ∨
      u.queried = false ∧ s.checkWritePrecondition env = .ok { s with writePerformed := true } := by
  have queried := inv.queried
  unfold TxSimulator.checkWritePrecondition
  split
  · exact .inl ⟨by simp_all, _, rfl⟩
  · split
    · exact .inl ⟨by simp_all, _, rfl⟩
    · exact .inr ⟨by simp_all, rfl⟩

theorem Follows.write (allowed : Result Unit) (op : BuilderOp) (writes : isWrite op = true) :
    Follows env (u.write allowed.toBool) (orUnchanged s (do
        allowed
        let s ← s.checkWritePrecondition env
        .ok { s with rwsetBuilder := s.rwsetBuilder.apply env.codec op })) := by
  cases allowed with
  | error failure =>
    simp only [Usage.write, Except.toBool, Bool.false_and, Bool.or_false]
    exact inv
  | ok _ =>
    rcases inv.checkWritePrecondition with ⟨queried, failure, refused⟩ | ⟨unqueried, passed⟩
    · have unchanged : u.write (Except.ok () : Result Unit).toBool = u := by
        cases u
        simp_all [Usage.write]
      rw [unchanged, refused]
      exact inv
    · simp only [passed, Usage.write, unqueried, Except.toBool, Bool.not_false, Bool.and_true, Bool.or_true]
      exact {
        wrote := rfl
        queried := by rw [← unqueried]; exact inv.queried
        itrs := inv.itrs
        recorded := inv.recorded.of_same (.write _ _ writes)
        queries := fun ns => (SameQueries.write _ _ writes ns).trans (inv.queries ns) }

theorem Follows.queryPvtdata : Follows env (if u.wrote then u else { u with queried := true })
      (orUnchanged s (s.checkBeforePvtdataQueries env)) := by
  unfold TxSimulator.checkBeforePvtdataQueries
  rw [inv.wrote]
  split
  · exact inv
  · exact {
      wrote := rfl
      queried := by simp [orUnchanged]
      itrs := inv.itrs
      recorded := inv.recorded
      queries := inv.queries }

theorem Follows.call (degree : 2 ≤ env.maxDegreeQueryReadsHashing) (c : Call) (called : s.call env c = .ok s') :
    Follows env (u.after env c) s' := by
  cases c with
  | next i => exact inv.next called
  | getState ns key =>
    cases called
    exact inv.getState ns key
  | getStateMetadata ns key =>
    cases called
    exact inv.getState ns key
  | getStateMultipleKeys ns keys =>
    cases called
    exact inv.getStateMultipleKeys ns keys
  | getStateRangeScanIterator ns startKey endKey =>
    cases called
    exact inv.openScan degree ns startKey endKey
  | getStateRangeScanIteratorWithPagination ns startKey endKey pageSize =>
    cases called
    exact inv.openPage degree ns startKey endKey pageSize
  | getPrivateData ns coll key =>
    cases called
    exact inv.getPrivateData ns coll key
  | getPrivateDataHash ns coll key =>
    cases called
    exact inv.getPrivateDataValueHash ns coll key
  | getPrivateDataMetadata ns coll key =>
    cases called
    exact inv.getPrivateDataValueHash ns coll key
  | getPrivateDataMultipleKeys ns coll keys =>
    cases called
    exact inv.getPrivateDataMultipleKeys ns coll keys
  | getPrivateDataRangeScanIterator ns coll startKey endKey =>
    cases called
    exact inv.queryPvtdata
  | setState ns key value =>
    cases called
    exact inv.write (.ok ()) (.addToWriteSet ns key value) rfl
  | setStateMetadata ns key metadata =>
    cases called
    exact inv.write (.ok ()) (.addToMetadataWriteSet ns key metadata) rfl
  | setPrivateData ns coll key value =>
    cases called
    exact inv.write (env.validateCollName ns coll) (.addToPvtAndHashedWriteSet ns coll key value) rfl
  | purgePrivateData ns coll key =>
    cases called
    exact inv.write (env.validateCollName ns coll) (.addToPvtAndHashedWriteSetForPurge ns coll key) rfl
  | setPrivateDataMetadata ns coll key metadata =>
    cases called
    exact inv.write (env.validateCollName ns coll) (.addToHashedMetadataWriteSet ns coll key metadata) rfl

end

theorem call_total (total : env.codec.Total) (s : TxSimulator) (c : Call) : ∃ s', s.call env c = .ok s' := by
  cases c with
  | next i =>
    simp only [TxSimulator.call]
    split
    · exact ⟨_, rfl⟩
    · rename_i itr _
      obtain ⟨⟨kv, itr'⟩, stepped⟩ := ResultsItr.next_total total itr
      rw [stepped]
      exact ⟨_, rfl⟩
  | _ => exact ⟨_, rfl⟩

theorem run_follows (total : env.codec.Total) (degree : 2 ≤ env.maxDegreeQueryReadsHashing) (calls : List Call) :
    ∃ s, calls.foldlM (TxSimulator.call env) newTxSimulator = .ok s ∧ Follows env (usage env calls) s := by
  induction calls using reverseRecOn with
  | nil => exact ⟨_, rfl, Follows.initial env⟩
  | append_singleton calls c ih =>
    obtain ⟨s, ran, inv⟩ := ih
    obtain ⟨s', called⟩ := call_total total s c
    refine ⟨s', ?_, ?_⟩
    · rw [foldlM_append, ran]
      simp only [foldlM_cons, foldlM_nil, bind_pure]
      exact called
    · rw [usage, foldl_append]
      exact inv.call degree c called

end Fabric.Proof.TxMgr
