import Fabric.Ledger.Validation.Validator
import Fabric.Proof.TxMgr.Recording
import Fabric.Proof.Validation.RangeQuery

/-! # A simulation validated on the state it read -/

namespace Fabric.Proof.TxMgr

open Lib Fabric.Ledger Fabric.Ledger.Validation Fabric.Ledger.TxMgr Proof.Validation List Option
  RangeQueryResultsHelper RWSetBuilder VersionedKV State SameReads NsPubRwBuilder UpdateBatch
open TxSimulator (addRangeQueryInfo hashedKey)

variable {α : Type} {b : RWSetBuilder} {ns : Bytes} {rqi : RangeQueryInfo} {nsRwSet : NsRwSet}
  {nsRwSets : List NsRwSet} {raw : List KVRead} {s : State CompositeKey} {before : List VersionedKV}
  {kv : VersionedKV} {key : α → Bytes × RangeQueryKey} {xs : List α} {x : α}

section

def FirstOf {α : Type} (key : α → Bytes × RangeQueryKey) (xs : List α) (x : α) : Prop :=
  ∃ earlier later, xs = earlier ++ x :: later ∧ ∀ other ∈ earlier, key other ≠ key x

def queryKey (q : Bytes × RangeQueryInfo) : Bytes × RangeQueryKey := (q.1, q.2.key)

theorem firstOf_concat {y : α} : FirstOf key (xs ++ [y]) x ↔ FirstOf key xs x ∨ (x = y ∧ ∀ other ∈ xs, key other ≠ key x) := by
  constructor
  · rintro ⟨earlier, later, split, fresh⟩
    rcases eq_nil_or_concat later with rfl | ⟨later', last, rfl⟩
    · obtain ⟨rfl, same⟩ := append_inj' split rfl
      cases same
      exact .inr ⟨rfl, fresh⟩
    · rw [concat_eq_append, ← cons_append, ← append_assoc] at split
      obtain ⟨rfl, _⟩ := append_inj' split rfl
      exact .inl ⟨earlier, later', rfl, fresh⟩
  · rintro (⟨earlier, later, rfl, fresh⟩ | ⟨rfl, fresh⟩)
    · exact ⟨earlier, later ++ [y], by simp, fresh⟩
    · exact ⟨xs, [], rfl, fresh⟩

theorem mem_addToRangeQuerySet {ns' : Bytes} {rqi' : RangeQueryInfo} :
    rqi' ∈ ((b.addToRangeQuerySet ns rqi).getOrCreateNsPubRwBuilder ns').rangeQueries ↔
      rqi' ∈ (b.getOrCreateNsPubRwBuilder ns').rangeQueries ∨
        ns' = ns ∧ rqi' = rqi ∧ ∀ other ∈ (b.getOrCreateNsPubRwBuilder ns).rangeQueries, other.key ≠ rqi.key := by
  unfold addToRangeQuerySet
  rw [getOrCreateNsPubRwBuilder_setNsPub]
  by_cases same : ns = ns'
  · subst same
    simp only [if_true, true_and]
    split
    · rename_i repeated
      obtain ⟨other, member, sameKey⟩ := List.mem_map.mp repeated
      constructor
      · exact .inl
      · rintro (kept | ⟨_, fresh⟩)
        · exact kept
        · exact absurd sameKey (fresh other member)
    · rename_i unseen
      simp only [List.mem_map, not_exists, not_and] at unseen
      simp only [mem_append, mem_singleton]
      constructor
      · rintro (kept | rfl)
        · exact .inl kept
        · exact .inr ⟨rfl, unseen⟩
      · rintro (kept | ⟨rfl, _⟩)
        · exact .inl kept
        · exact .inr rfl
  · simp [same, Ne.symm same]

theorem exists_first (member : x ∈ xs) : ∃ first, FirstOf key xs first ∧ key first = key x := by
  induction xs with
  | nil => simp at member
  | cons y ys ih =>
    by_cases same : key y = key x
    · exact ⟨y, ⟨[], ys, rfl, by simp⟩, same⟩
    · have inside : x ∈ ys := by
        rcases mem_cons.mp member with rfl | inside
        · exact absurd rfl same
        · exact inside
      obtain ⟨first, ⟨earlier, later, split, fresh⟩, sameKey⟩ := ih inside
      refine ⟨first, ⟨y :: earlier, later, by rw [split]; rfl, ?_⟩, sameKey⟩
      intro other among
      rcases mem_cons.mp among with rfl | among
      · rwa [sameKey]
      · exact fresh other among

theorem mem_rangeQueries (empty : SameQueries newRWSetBuilder b) (queries : List (Bytes × RangeQueryInfo))
    (ns : Bytes) (rqi : RangeQueryInfo) :
    rqi ∈ ((queries.foldl (fun b q => b.addToRangeQuerySet q.1 q.2) b).getOrCreateNsPubRwBuilder ns).rangeQueries ↔
      FirstOf queryKey queries (ns, rqi) := by
  induction queries using reverseRecOn generalizing ns rqi with
  | nil =>
    rw [foldl_nil, empty ns]
    constructor
    · intro member
      simp [newRWSetBuilder, getOrCreateNsPubRwBuilder, newNsPubRwBuilder] at member
    · rintro ⟨earlier, later, split, _⟩
      simp at split
  | append_singleton queries q ih =>
    rw [foldl_append, foldl_cons, foldl_nil, mem_addToRangeQuerySet, firstOf_concat, ih]
    apply or_congr_right
    constructor
    · rintro ⟨rfl, rfl, fresh⟩
      refine ⟨rfl, ?_⟩
      intro other member sameKey
      obtain ⟨⟨ns', rqi'⟩, isFirst, firstKey⟩ :
          ∃ first, FirstOf queryKey queries first ∧ queryKey first = queryKey other := exists_first member
      rw [sameKey] at firstKey
      simp only [queryKey, Prod.mk.injEq] at firstKey
      obtain ⟨rfl, firstKey⟩ := firstKey
      exact fresh rqi' ((ih _ _).mpr isFirst) firstKey
    · rintro ⟨rfl, fresh⟩
      refine ⟨rfl, rfl, ?_⟩
      intro other member sameKey
      obtain ⟨earlier, later, rfl, _⟩ := (ih _ _).mp member
      exact fresh (ns, other) (by simp) (by simp [queryKey, sameKey])

variable (env : SimulatorEnv)

def summaryOf (reads : List KVRead) : Result (List KVRead × Option QueryReadsMerkleSummary) := do
  let helper ← newRangeQueryResultsHelper env.queryReadsHashingEnabled env.maxDegreeQueryReadsHashing
  helper.summarize env.codec reads

def Scan.reads (scan : Scan) : List KVRead := (scan.returned env).map toRead

def Scan.query (scan : Scan) : RangeQueryInfo :=
  match summaryOf env (scan.reads env) with
  | .ok (results, hash) => setReads (scan.bounds env) results hash
  | .error _ => scan.bounds env

variable {env}

@[simp] theorem setReads_key (rqi : RangeQueryInfo) (results : List KVRead) (hash : Option QueryReadsMerkleSummary) :
    (setReads rqi results hash).key = rqi.key := by
  unfold setReads
  cases hash <;> split <;> rfl

theorem Scan.query_key (scan : Scan) : (scan.query env).key = (scan.bounds env).key := by
  unfold Scan.query
  split
  · exact setReads_key _ _ _
  · rfl

theorem Tracks.done {scan : Scan} {itr : ResultsItr} (tracks : Tracks env scan itr) :
    itr.rangeQueryResultsHelper.done env.codec = summaryOf env (scan.reads env) := by
  obtain ⟨helper, made, fed⟩ := tracks.fed
  unfold summaryOf summarize
  rw [made]
  show _ = (List.foldlM _ helper _ >>= _)
  rw [Scan.reads, fed]
  rfl

theorem addRangeQueryInfo_eq (total : env.codec.Total) {scans : List Scan} {itrs : List ResultsItr}
    (tracks : List.Forall₂ (Tracks env) scans itrs) (b : RWSetBuilder) : addRangeQueryInfo env.codec b itrs =
      (scans.map fun scan => (scan.ns, scan.query env)).foldl (fun b q => b.addToRangeQuerySet q.1 q.2) b := by
  induction tracks generalizing b with
  | nil => rfl
  | @cons scan itr scans itrs first rest ih =>
    obtain ⟨⟨results, hash⟩, finished⟩ := done_total total itr.rangeQueryResultsHelper
    have summed := first.done
    rw [finished] at summed
    rw [addRangeQueryInfo, finished]
    simp [ih, Scan.query, ← summed, first.ns, first.info]

theorem SameReads.addQueries (queries : List (Bytes × RangeQueryInfo)) (b : RWSetBuilder) :
    SameReads b (queries.foldl (fun b q => b.addToRangeQuerySet q.1 q.2) b) := by
  induction queries generalizing b with
  | nil => exact refl b
  | cons q queries ih =>
    exact (apply .plain b (.addToRangeQuerySet q.1 q.2) (fun _ => rfl) fun _ _ => rfl).trans (ih _)

end

section

variable {codec : Codec} {db : DB}

theorem applyUpdates_empty {K : Type} [Ord K] [Std.TransOrd K] [Std.LawfulEqOrd K] (s : State K) : s.applyUpdates ∅ = s := by
  apply ext_getState
  intro k
  rw [getState_applyUpdates]
  simp

theorem validateRangeQueries_eq_true_iff {rqis : List RangeQueryInfo} :
    validateRangeQueries codec db ns new rqis = .ok true ↔ ∀ rqi ∈ rqis, rangeUnchanged codec db.pub ns rqi := by
  induction rqis with
  | nil => simp [validateRangeQueries]
  | cons rqi rqis ih =>
    have unchanged : validateRangeQuery codec db.pub ns rqi new = .ok true ↔
        rangeUnchanged codec (db.pub.applyUpdates ∅) ns rqi := validateRangeQuery_eq_true_iff
    rw [applyUpdates_empty] at unchanged
    simp only [validateRangeQueries, bind_eq_ok, forall_mem_cons, ← unchanged, ← ih]
    constructor
    · rintro ⟨valid, checked, rest⟩
      cases valid with
      | true => exact ⟨checked, by simpa using rest⟩
      | false => simp at rest
    · rintro ⟨checked, rest⟩
      exact ⟨true, checked, by simpa using rest⟩

structure NsCurrent (codec : Codec) (db : DB) (nsRwSet : NsRwSet) : Prop where
  reads : ∀ r ∈ nsRwSet.kvRwSet.reads, db.pub.getVersion ⟨nsRwSet.nameSpace, r.key⟩ = r.version
  ranges : ∀ rqi ∈ nsRwSet.kvRwSet.rangeQueriesInfo, rangeUnchanged codec db.pub nsRwSet.nameSpace rqi
  hashed : ∀ coll ∈ nsRwSet.collHashedRwSets, ∀ r ∈ coll.hashedRwSet.hashedReads,
    db.hashed.getVersion ⟨nsRwSet.nameSpace, coll.collectionName, r.keyHash⟩ = r.version

theorem validateReadSet_new {kvReads : List KVRead} : validateReadSet db ns kvReads new = true ↔
      ∀ r ∈ kvReads, db.pub.getVersion ⟨ns, r.key⟩ = r.version := by
  simp [validateReadSet, validateKVRead, new]

theorem validateNsHashedReadSets_new {colls : List CollHashedRwSet} : validateNsHashedReadSets db ns colls ∅ = true ↔
      ∀ coll ∈ colls, ∀ r ∈ coll.hashedRwSet.hashedReads, db.hashed.getVersion ⟨ns, coll.collectionName, r.keyHash⟩ = r.version := by
  simp [validateNsHashedReadSets, validateCollHashedReadSet, validateKVReadHash]

theorem validateNsRwSets_cons_valid {updates : PubAndHashUpdates} : validateNsRwSets codec db updates (nsRwSet :: nsRwSets) = .ok .valid ↔
      validateReadSet db nsRwSet.nameSpace nsRwSet.kvRwSet.reads updates.publicUpdates = true ∧
      validateRangeQueries codec db nsRwSet.nameSpace updates.publicUpdates nsRwSet.kvRwSet.rangeQueriesInfo = .ok true ∧
      validateNsHashedReadSets db nsRwSet.nameSpace nsRwSet.collHashedRwSets updates.hashUpdates = true ∧
      validateNsRwSets codec db updates nsRwSets = .ok .valid := by
  rw [validateNsRwSets]
  split
  · rename_i stale
    simp only [Bool.not_eq_true'] at stale
    simp [stale]
  · rename_i current
    simp only [Bool.not_eq_true', Bool.not_eq_false] at current
    simp only [current, true_and, bind_eq_ok]
    constructor
    · rintro ⟨valid, checked, rest⟩
      cases valid with
      | false => simp at rest
      | true =>
        simp only [Bool.not_true, Bool.false_eq_true, if_false] at rest
        split at rest
        · cases rest
        · rename_i hashedValid
          exact ⟨checked, by simpa using hashedValid, rest⟩
    · rintro ⟨checked, hashedValid, rest⟩
      exact ⟨true, checked, by simpa [hashedValid] using rest⟩

theorem validateNsRwSets_new : validateNsRwSets codec db newPubAndHashUpdates nsRwSets = .ok .valid ↔
      ∀ nsRwSet ∈ nsRwSets, NsCurrent codec db nsRwSet := by
  induction nsRwSets with
  | nil => simp [validateNsRwSets]
  | cons nsRwSet nsRwSets ih =>
    rw [forall_mem_cons, ← ih, validateNsRwSets_cons_valid]
    simp only [newPubAndHashUpdates]
    rw [validateReadSet_new, validateRangeQueries_eq_true_iff, validateNsHashedReadSets_new]
    constructor
    · rintro ⟨reads, ranges, hashed, rest⟩
      exact ⟨⟨reads, ranges, hashed⟩, rest⟩
    · rintro ⟨⟨reads, ranges, hashed⟩, rest⟩
      exact ⟨reads, ranges, hashed, rest⟩

theorem mem_getTxReadWriteSet : nsRwSet ∈ b.getTxReadWriteSet.nsRwSets ↔
      ∃ (ns : Bytes) (nb : NsPubRwBuilder), b.pubRwBuilderMap[ns]? = some nb ∧ nb.build = nsRwSet := by
  simp only [getTxReadWriteSet, List.mem_map, mem_getValuesBySortedKeys]
  grind

theorem forall_getOrCreateNsPubRwBuilder {P : Bytes → NsPubRwBuilder → Prop} (fresh : ∀ ns, P ns (newNsPubRwBuilder ns)) :
    (∀ ns, P ns (b.getOrCreateNsPubRwBuilder ns)) ↔ ∀ (ns : Bytes) nb, b.pubRwBuilderMap[ns]? = some nb → P ns nb := by
  unfold getOrCreateNsPubRwBuilder
  constructor
  · intro all ns nb found
    simpa [found] using all ns
  · intro all ns
    cases found : b.pubRwBuilderMap[ns]? with
    | none => exact fresh ns
    | some nb => exact all ns nb found

structure BuilderCurrent (codec : Codec) (db : DB) (ns : Bytes) (nb : NsPubRwBuilder) : Prop where
  reads : ∀ (key : Bytes) (r : KVRead), nb.readMap[key]? = some r → db.pub.getVersion ⟨ns, r.key⟩ = r.version
  ranges : ∀ rqi ∈ nb.rangeQueries, rangeUnchanged codec db.pub ns rqi
  hashed : ∀ (coll key : Bytes) (r : KVReadHash),
    (nb.collHashRwBuilders[coll]?.getD (newCollHashRwBuilder coll)).readMap[key]? = some r →
    db.hashed.getVersion ⟨ns, coll, r.keyHash⟩ = r.version

theorem build_current {nb : NsPubRwBuilder} (name : nb.nameSpace = ns)
    (collNames : ∀ coll, (nb.collHashRwBuilders[coll]?.getD (newCollHashRwBuilder coll)).collName = coll) :
    NsCurrent codec db nb.build ↔ BuilderCurrent codec db ns nb := by
  constructor
  · rintro ⟨reads, ranges, hashed⟩
    simp only [build, name, mem_getValuesBySortedKeys, List.mem_map] at reads ranges hashed
    refine ⟨fun key r found => reads r ⟨key, found⟩, ranges, ?_⟩
    intro coll key r found
    cases stored : nb.collHashRwBuilders[coll]? with
    | none => simp [stored, newCollHashRwBuilder] at found
    | some collBuilder =>
      simp only [stored, getD_some] at found
      have collName : collBuilder.collName = coll := by simpa [stored] using collNames coll
      have current := hashed collBuilder.build ⟨collBuilder, ⟨coll, stored⟩, rfl⟩ r
        (mem_getValuesBySortedKeys.mpr ⟨key, found⟩)
      simpa only [CollHashRwBuilder.build, collName] using current
  · rintro ⟨reads, ranges, hashed⟩
    constructor
    · intro r member
      obtain ⟨key, found⟩ := mem_getValuesBySortedKeys.mp member
      rw [build, name]
      exact reads key r found
    · rw [build, name]
      exact ranges
    · intro coll member r among
      obtain ⟨collBuilder, stored, rfl⟩ := List.mem_map.mp member
      obtain ⟨coll, stored⟩ := mem_getValuesBySortedKeys.mp stored
      obtain ⟨key, found⟩ := mem_getValuesBySortedKeys.mp among
      have collName : collBuilder.collName = coll := by simpa [stored] using collNames coll
      have current := hashed coll key r (by simpa [stored] using found)
      simpa only [build, CollHashRwBuilder.build, collName, name] using current

theorem newNsPubRwBuilder_current (codec : Codec) (db : DB) (ns : Bytes) : BuilderCurrent codec db ns (newNsPubRwBuilder ns) := by
  constructor <;> simp [newNsPubRwBuilder, newCollHashRwBuilder]

theorem getTxReadWriteSet_valid_iff (nsName : ∀ ns, (b.getOrCreateNsPubRwBuilder ns).nameSpace = ns)
    (collName : ∀ ns coll, (b.getOrCreateCollHashedRwBuilder ns coll).collName = coll) :
    validateTx codec db b.getTxReadWriteSet newPubAndHashUpdates = .ok .valid ↔
      ∀ ns, BuilderCurrent codec db ns (b.getOrCreateNsPubRwBuilder ns) := by
  rw [validateTx, validateNsRwSets_new, forall_getOrCreateNsPubRwBuilder (newNsPubRwBuilder_current codec db)]
  constructor
  · intro current ns nb found
    have stored : b.getOrCreateNsPubRwBuilder ns = nb := by
      simp [getOrCreateNsPubRwBuilder, found]
    rw [← build_current (stored ▸ nsName ns) (by rw [← stored]; exact collName ns)]
    exact current _ (mem_getTxReadWriteSet.mpr ⟨ns, nb, found, rfl⟩)
  · intro current nsRwSet member
    obtain ⟨ns, nb, found, rfl⟩ := mem_getTxReadWriteSet.mp member
    have stored : b.getOrCreateNsPubRwBuilder ns = nb := by
      simp [getOrCreateNsPubRwBuilder, found]
    rw [build_current (stored ▸ nsName ns) (by rw [← stored]; exact collName ns)]
    exact current ns nb found

end

section

variable (env : SimulatorEnv)

-- A scan that was run to its end has to hold the whole range, up to its summary; one that was never
-- advanced is validated as a scan without an end; and an empty last key reads as no end key.
def Scan.Settled (scan : Scan) : Prop :=
  if scan.drained env then
    summaryOf env ((scan.results env).map toRead) =
      summaryOf env ((env.db.pub.getStateRangeScanIterator scan.ns scan.startKey scan.endKey).map toRead)
  else if scan.advances = 0 then
    (∀ key, (env.db.pub.getState ⟨scan.ns, key⟩).isSome → (compare scan.startKey key).isLE = false) ∧
      env.db.pub.getState ⟨scan.ns, []⟩ = none
  else (scan.returned env).getLast?.map (·.1) ≠ some []

variable {env} {reads : List KVRead}

theorem summaryOf_fed {out : List KVRead × Option QueryReadsMerkleSummary} (summed : summaryOf env reads = .ok out) :
    ∃ helper, Fed env.queryReadsHashingEnabled env.maxDegreeQueryReadsHashing reads helper ∧ helper.done env.codec = .ok out := by
  simp only [summaryOf, summarize, bind_eq_ok] at summed
  obtain ⟨helper, made, fed, added, finished⟩ := summed
  exact ⟨fed, (RangeQueryResultsHelper.Fed.initial made).foldlM added, finished⟩

theorem summaryOf_raw (summed : summaryOf env reads = .ok (raw, none)) : raw = reads := by
  obtain ⟨helper, fed, finished⟩ := summaryOf_fed summed
  exact fed.done_raw finished

theorem summaryOf_total (total : env.codec.Total) (degree : 2 ≤ env.maxDegreeQueryReadsHashing)
    (reads : List KVRead) : ∃ out, summaryOf env reads = .ok out := by
  obtain ⟨helper, made⟩ := newRangeQueryResultsHelper_total degree
  have fed : ∃ helper', reads.foldlM (addResult env.codec) helper = .ok helper' := by
    clear made
    induction reads generalizing helper with
    | nil => exact ⟨helper, rfl⟩
    | cons r reads ih =>
      obtain ⟨next, added⟩ := addResult_total total helper r
      obtain ⟨last, rest⟩ := ih next
      exact ⟨last, by rw [foldlM_cons, added]; exact rest⟩
  obtain ⟨helper', fed⟩ := fed
  obtain ⟨out, finished⟩ := done_total total helper'
  refine ⟨out, ?_⟩
  simp only [summaryOf, summarize, made, bind_eq_ok]
  exact ⟨helper, rfl, helper', fed, finished⟩

theorem summaryOf_short (total : env.codec.Total) (degree : 2 ≤ env.maxDegreeQueryReadsHashing)
    (short : reads.length ≤ env.maxDegreeQueryReadsHashing) :
    summaryOf env reads = .ok (reads, none) := by
  obtain ⟨out, summed⟩ := summaryOf_total total degree reads
  obtain ⟨helper, fed, finished⟩ := summaryOf_fed summed
  rw [fed.done_short short] at finished
  rw [summed, ← finished]

theorem rangeUnchanged_setReads {hash : Option QueryReadsMerkleSummary}
    (unset : rqi.readsInfo = .unset) (summed : summaryOf env reads = .ok (raw, hash)) :
    rangeUnchanged env.codec s ns (setReads rqi raw hash) ↔ summaryOf env (scannedReads s ns rqi) = .ok (raw, hash) := by
  cases hash with
  | none =>
    obtain rfl := summaryOf_raw summed
    have scanned : rangeUnchanged env.codec s ns (setReads rqi raw none) ↔ scannedReads s ns rqi = raw := by
      cases raw with
      | nil => simp [setReads, rangeUnchanged, unset]
      | cons r raw => simp [setReads, rangeUnchanged, scannedReads]
    rw [scanned]
    constructor
    · rintro rfl
      exact summed
    · intro again
      exact (summaryOf_raw again).symm
  | some summary =>
    obtain ⟨helper, fed, finished⟩ := summaryOf_fed summed
    obtain ⟨rfl, hashing, degree⟩ := fed.done_summary finished
    have scanned : rangeUnchanged env.codec s ns (setReads rqi [] (some summary)) ↔
        ∃ helper pending, newRangeQueryResultsHelper true summary.maxDegree = .ok helper ∧
          helper.summarize env.codec (scannedReads s ns rqi) = .ok (pending, some summary) := by
      simp [setReads, rangeUnchanged, scannedReads]
    rw [scanned, degree, ← hashing]
    constructor
    · rintro ⟨helper', pending, made, again⟩
      have whole : summaryOf env (scannedReads s ns rqi) = .ok (pending, some summary) := by
        simp only [summaryOf, made]
        exact again
      obtain ⟨last, fedAgain, finishedAgain⟩ := summaryOf_fed whole
      rw [whole, (fedAgain.done_summary finishedAgain).1]
    · intro again
      simp only [summaryOf, bind_eq_ok] at again
      obtain ⟨helper', made, again⟩ := again
      exact ⟨helper', [], made, again⟩

theorem Scan.returned_prefix (env : SimulatorEnv) (scan : Scan) :
    scan.returned env <+: env.db.pub.getStateRangeScanIterator scan.ns scan.startKey scan.endKey := by
  unfold Scan.returned Scan.results TxMgr.getStateRangeScanIteratorWithPagination
  apply IsPrefix.trans
  · exact take_prefix _ _
  · simp only
    split
    · exact take_prefix _ _
    · exact prefix_refl _

-- The results up to the last one returned are the range before its key, and the key itself.
theorem scan_upTo {startKey endKey : Bytes}
    (returned : before ++ [kv] <+: s.getStateRangeScanIterator ns startKey endKey) (named : kv.1 ≠ []) :
    s.getStateRangeScanIterator ns startKey kv.1 ++ [kv] = before ++ [kv] := by
  obtain ⟨after, whole⟩ := returned
  have sorted : KeySorted (before ++ [kv] ++ after) := whole ▸ s.getStateRangeScanIterator_sorted ns startKey endKey
  have mem : ∀ x, x ∈ before ++ [kv] ++ after ↔ s.getState ⟨ns, x.1⟩ = some x.2 ∧ inRange startKey endKey x.1 := by
    intro x
    rw [whole]
    exact mem_getStateRangeScanIterator
  obtain ⟨sortedTaken, _, above⟩ := pairwise_append.mp sorted
  obtain ⟨sortedBefore, _, below⟩ := pairwise_append.mp sortedTaken
  have last := (mem kv).mp (by simp)
  congr 1
  refine (s.getStateRangeScanIterator_sorted ns startKey kv.1).eq_of_mem_iff sortedBefore ?_
  intro x
  rw [show x = (x.1, x.2) from rfl, mem_getStateRangeScanIterator]
  have named' : kv.1.isEmpty = false := by simpa using named
  constructor
  · rintro ⟨stored, inside⟩
    simp only [inRange, named', Bool.false_or, Bool.and_eq_true, beq_iff_eq] at inside
    have inWhole : inRange startKey endKey x.1 = true := by
      have bound := last.2
      simp only [inRange, Bool.and_eq_true, Bool.or_eq_true, beq_iff_eq] at bound ⊢
      refine ⟨inside.1, ?_⟩
      rcases bound.2 with unbounded | less
      · exact .inl unbounded
      · exact .inr (Std.TransCmp.lt_trans inside.2 less)
    have member := (mem x).mpr ⟨stored, inWhole⟩
    simp only [append_assoc, mem_append, mem_singleton] at member
    rcases member with early | rfl | late
    · exact early
    · have self := inside.2
      simp [Std.ReflCmp.compare_self] at self
    · have later := above kv (by simp) x late
      rw [Std.OrientedCmp.gt_of_lt later] at inside
      exact absurd inside.2 (by simp)
  · intro early
    obtain ⟨stored, inWhole⟩ := (mem x).mp (by simp [early])
    refine ⟨stored, ?_⟩
    simp only [inRange, Bool.and_eq_true] at inWhole
    simp only [inRange, named', Bool.false_or, Bool.and_eq_true, beq_iff_eq]
    exact ⟨inWhole.1, below x early kv (by simp)⟩

theorem isLE_nil {key : Bytes} (least : (compare key []).isLE) : key = [] := by
  cases key with
  | nil => rfl
  | cons b key => exact absurd least (by simp [compare, List.compareLex_cons_nil])

theorem summaryOf_eq_short_iff (total : env.codec.Total) (degree : 2 ≤ env.maxDegreeQueryReadsHashing)
    {reads short : List KVRead} (few : short.length ≤ env.maxDegreeQueryReadsHashing) :
    summaryOf env reads = summaryOf env short ↔ reads = short := by
  constructor
  · intro same
    rw [summaryOf_short total degree few] at same
    exact (summaryOf_raw same).symm
  · intro same
    rw [same]

variable {scan : Scan}

theorem Scan.scannedReads_of_drained (drained : scan.drained env = true) : scannedReads env.db.pub scan.ns (scan.bounds env) =
      (env.db.pub.getStateRangeScanIterator scan.ns scan.startKey scan.endKey).map toRead := by
  simp [scannedReads, Scan.bounds, Scan.recordedEnd, drained]

theorem Scan.reads_of_drained (drained : scan.drained env = true) : scan.reads env = (scan.results env).map toRead := by
  have long : (scan.results env).length ≤ scan.advances := by
    simp only [Scan.drained, decide_eq_true_eq] at drained
    omega
  rw [Scan.reads, Scan.returned, take_of_length_le long]

theorem Scan.scannedReads_of_unused (unused : scan.advances = 0) : scannedReads env.db.pub scan.ns (scan.bounds env) = [] ↔
      (∀ key, (env.db.pub.getState ⟨scan.ns, key⟩).isSome → (compare scan.startKey key).isLE = false) ∧
        env.db.pub.getState ⟨scan.ns, []⟩ = none := by
  have drained : scan.drained env = false := by simp [Scan.drained, unused]
  have ending : scan.recordedEnd env = [] := by simp [Scan.recordedEnd, drained, Scan.returned, unused]
  simp only [scannedReads, Scan.bounds, ending, drained, Bool.false_eq_true, if_false, append_eq_nil_iff,
    map_eq_nil_iff, toList_eq_nil_iff, map_eq_none_iff, getVersion]
  apply and_congr_left
  intro _
  rw [eq_nil_iff_forall_not_mem]
  constructor
  · intro absent key stored
    obtain ⟨vv, found⟩ := isSome_iff_exists.mp stored
    have outside := absent (key, vv)
    rw [mem_getStateRangeScanIterator] at outside
    simpa [found, inRange] using outside
  · rintro absent ⟨key, vv⟩ member
    obtain ⟨found, inside⟩ := mem_getStateRangeScanIterator.mp member
    have outside := absent key (by simp [found])
    simp [inRange, outside] at inside

theorem Scan.stopped_split (stopped : scan.drained env = false) (used : scan.advances ≠ 0) :
    ∃ before kv, scan.returned env = before ++ [kv] := by
  rcases eq_nil_or_concat (scan.returned env) with none | ⟨before, kv, split⟩
  · simp only [Scan.returned, take_eq_nil_iff] at none
    rcases none with zero | empty
    · exact absurd zero used
    · simp only [Scan.drained, empty, length_nil, decide_eq_false_iff_not] at stopped
      omega
  · exact ⟨before, kv, by rw [split, concat_eq_append]⟩

theorem Scan.scannedReads_of_stopped (stopped : scan.drained env = false) (split : scan.returned env = before ++ [kv]) :
    scannedReads env.db.pub scan.ns (scan.bounds env) =
      (env.db.pub.getStateRangeScanIterator scan.ns scan.startKey kv.1 ++ [kv]).map toRead := by
  have ending : scan.recordedEnd env = kv.1 := by simp [Scan.recordedEnd, stopped, split]
  have member : (kv.1, kv.2) ∈ scan.returned env := by simp [split]
  have stored : env.db.pub.getState ⟨scan.ns, kv.1⟩ = some kv.2 :=
    (mem_getStateRangeScanIterator.mp ((scan.returned_prefix env).subset member)).1
  simp [scannedReads, Scan.bounds, ending, stopped, getVersion,
    stored, toRead]

theorem Scan.reads_of_unnamed (split : scan.returned env = before ++ [kv]) (unnamed : kv.1 = []) :
    before = [] ∧ kv ∈ env.db.pub.getStateRangeScanIterator scan.ns scan.startKey kv.1 := by
  have returned := split ▸ scan.returned_prefix env
  have sorted : KeySorted (before ++ [kv]) :=
    (env.db.pub.getStateRangeScanIterator_sorted scan.ns scan.startKey scan.endKey).sublist returned.sublist
  have member : (kv.1, kv.2) ∈ env.db.pub.getStateRangeScanIterator scan.ns scan.startKey scan.endKey :=
    returned.subset (by simp)
  obtain ⟨stored, inside⟩ := mem_getStateRangeScanIterator.mp member
  constructor
  · apply eq_nil_iff_forall_not_mem.mpr
    intro x early
    have below := (pairwise_append.mp sorted).2.2 x early kv (by simp)
    rw [unnamed] at below
    have least := isLE_nil (show (compare x.1 []).isLE by rw [below]; rfl)
    rw [least] at below
    simp at below
  · have again : (kv.1, kv.2) ∈ env.db.pub.getStateRangeScanIterator scan.ns scan.startKey kv.1 := by
      rw [mem_getStateRangeScanIterator]
      simp only [inRange, Bool.and_eq_true] at inside
      exact ⟨stored, by simp [inRange, unnamed, unnamed ▸ inside.1]⟩
    exact again

theorem Scan.settled_iff (total : env.codec.Total) (degree : 2 ≤ env.maxDegreeQueryReadsHashing) (scan : Scan) :
    rangeUnchanged env.codec env.db.pub scan.ns (scan.query env) ↔ scan.Settled env := by
  obtain ⟨⟨raw, hash⟩, summed⟩ := summaryOf_total total degree (scan.reads env)
  have recorded : scan.query env = setReads (scan.bounds env) raw hash := by
    rw [Scan.query, summed]
  rw [recorded, rangeUnchanged_setReads rfl summed, ← summed, Scan.Settled]
  split_ifs with drained unused
  · rw [Scan.scannedReads_of_drained drained, Scan.reads_of_drained drained]
    exact eq_comm
  · have nothing : scan.reads env = [] := by simp [Scan.reads, Scan.returned, unused]
    rw [nothing, summaryOf_eq_short_iff total degree (Nat.zero_le _), Scan.scannedReads_of_unused unused]
  · rw [Bool.not_eq_true] at drained
    obtain ⟨before, kv, split⟩ := Scan.stopped_split drained unused
    rw [Scan.scannedReads_of_stopped drained split, Scan.reads, split]
    simp only [getLast?_append, getLast?_singleton, some_or, map_some, ne_eq, some.injEq]
    by_cases unnamed : kv.1 = []
    · obtain ⟨rfl, twice⟩ := Scan.reads_of_unnamed split unnamed
      have short : ([kv].map toRead).length ≤ env.maxDegreeQueryReadsHashing := by
        simp only [map_cons, map_nil, length_singleton]
        omega
      rw [nil_append, summaryOf_eq_short_iff total degree short]
      simp only [unnamed, not_true_eq_false, iff_false]
      intro same
      have lengths := congrArg List.length same
      simp only [length_map, length_append, length_singleton, Nat.add_eq_right, length_eq_zero_iff] at lengths
      rw [unnamed, lengths] at twice
      simp at twice
    · rw [scan_upTo (split ▸ scan.returned_prefix env) unnamed]
      simp [unnamed]

end

variable {env : SimulatorEnv}

structure SelfValidates (codec : Codec) (db : DB) (rwset : TxRwSet) : Prop where
  code : validateEndorserTX codec db rwset true newPubAndHashUpdates = .ok .valid
  first : ∀ num dataLen index post rest v,
    validateAndPrepareBatch codec db ⟨num, dataLen, ⟨index, rwset, post⟩ :: rest⟩ true = .ok v → v.codes.head? = some .valid

structure ReadsSettled (env : SimulatorEnv) (u : Usage) : Prop where
  scans : ∀ scan, FirstOf (fun scan => (scan.ns, (scan.bounds env).key)) u.scans scan → scan.Settled env
  unchecked : ∀ k ∈ u.unchecked, env.db.pvt.getVersion k = env.db.hashed.getVersion (hashedKey env k.ns k.coll k.key)

theorem selfValidates_iff_code {codec : Codec} {db : DB} {rwset : TxRwSet} :
    SelfValidates codec db rwset ↔ validateTx codec db rwset newPubAndHashUpdates = .ok .valid := by
  constructor
  · intro valid
    exact valid.code
  · intro code
    refine ⟨code, ?_⟩
    intro num dataLen index post rest v prepared
    rw [validateAndPrepareBatch, foldlM_cons, bind_eq_ok] at prepared
    obtain ⟨v1, first, prepared⟩ := prepared
    have checked : validateEndorserTX codec db rwset true newPubAndHashUpdates = .ok .valid := code
    simp only [validateAndApplyTx, bind_eq_ok] at first
    obtain ⟨code', same, first⟩ := first
    rw [checked] at same
    cases same
    simp only [if_true, bind_eq_ok, ok.injEq] at first
    obtain ⟨updates, _, rfl⟩ := first
    refine foldlM_invariant (fun _ v => v.codes.head? = some .valid) prepared rfl ?_
    intro _ tx a b _ valid applied
    simp only [validateAndApplyTx, bind_eq_ok] at applied
    obtain ⟨code', _, applied⟩ := applied
    split at applied
    · simp only [bind_eq_ok, ok.injEq] at applied
      obtain ⟨updates', _, rfl⟩ := applied
      simp [head?_append, valid]
    · cases applied
      simp [head?_append, valid]

theorem setPvtCollectionHashes_same (codec : Codec) (pvtData : TxPvtRwSet) (b : RWSetBuilder) :
    SameReads b (b.setPvtCollectionHashes codec pvtData) ∧ SameQueries b (b.setPvtCollectionHashes codec pvtData) := by
  unfold setPvtCollectionHashes
  apply foldlRecOn (motive := fun built => SameReads b built ∧ SameQueries b built)
  · exact ⟨refl b, fun _ => rfl⟩
  intro built same ns _
  apply foldlRecOn (motive := fun built => SameReads b built ∧ SameQueries b built)
  · exact same
  rintro built ⟨reads, queries⟩ coll _
  constructor
  · exact reads.trans (setCollHashed rfl rfl)
  · intro ns'
    exact (SameQueries.setCollHashed _ _ _ _ ns').trans (queries ns')

theorem forall_firstOf_map {β : Type} {key : β → Bytes × RangeQueryKey} {f : α → β} {P : β → Prop} :
    (∀ y, FirstOf key (xs.map f) y → P y) ↔ ∀ x, FirstOf (key ∘ f) xs x → P (f x) := by
  constructor
  · rintro all x ⟨earlier, later, rfl, fresh⟩
    apply all
    exact ⟨earlier.map f, later.map f, by simp, by simpa using fresh⟩
  · rintro all y ⟨earlier, later, split, fresh⟩
    obtain ⟨before, after, rfl, rfl, mapped⟩ := map_eq_append_iff.mp split
    obtain ⟨x, rest, rfl, rfl, rfl⟩ := map_eq_cons_iff.mp mapped
    apply all
    exact ⟨before, rest, rfl, by simpa using fresh⟩

theorem getTxSimulationResults_same (env : SimulatorEnv) (s : TxSimulator) :
    ∃ b, (s.getTxSimulationResults env).pubSimulationResults = b.getTxReadWriteSet ∧
      SameReads (addRangeQueryInfo env.codec s.rwsetBuilder s.itrs) b ∧
      SameQueries (addRangeQueryInfo env.codec s.rwsetBuilder s.itrs) b := by
  unfold TxSimulator.getTxSimulationResults getTxSimulationResults
  cases (addRangeQueryInfo env.codec s.rwsetBuilder s.itrs).getTxPvtReadWriteSet with
  | none => exact ⟨_, rfl, refl _, fun _ => rfl⟩
  | some pvtData => exact ⟨_, rfl, setPvtCollectionHashes_same _ _ _⟩

theorem Follows.recorded_iff {u : Usage} {s : TxSimulator} (follows : Follows env u s) (total : env.codec.Total)
    (degree : 2 ≤ env.maxDegreeQueryReadsHashing) :
    validateTx env.codec env.db (s.getTxSimulationResults env).pubSimulationResults newPubAndHashUpdates = .ok .valid ↔
      ReadsSettled env u := by
  obtain ⟨b, results, sameReads, sameQueries⟩ := getTxSimulationResults_same env s
  have asked := addRangeQueryInfo_eq total follows.itrs s.rwsetBuilder
  have recorded : Recorded env u.unchecked b := by
    refine (follows.recorded.of_same ?_).of_same sameReads
    rw [asked]
    exact addQueries _ _
  have ranges :
      (∀ ns, ∀ rqi ∈ (b.getOrCreateNsPubRwBuilder ns).rangeQueries, rangeUnchanged env.codec env.db.pub ns rqi) ↔
        ∀ scan, FirstOf (fun scan => (scan.ns, (scan.bounds env).key)) u.scans scan → scan.Settled env := by
    have unchanged :
        (∀ q : Bytes × RangeQueryInfo, FirstOf queryKey (u.scans.map fun scan => (scan.ns, scan.query env)) q →
          rangeUnchanged env.codec env.db.pub q.1 q.2) ↔
        ∀ scan, FirstOf (queryKey ∘ fun scan : Scan => (scan.ns, scan.query env)) u.scans scan →
          rangeUnchanged env.codec env.db.pub scan.ns (scan.query env) :=
      forall_firstOf_map (P := fun q : Bytes × RangeQueryInfo => rangeUnchanged env.codec env.db.pub q.1 q.2)
    have sameKey : queryKey ∘ (fun scan : Scan => (scan.ns, scan.query env)) = fun scan => (scan.ns, (scan.bounds env).key) := by
      funext scan
      simp [queryKey, Scan.query_key]
    simp only [sameKey, Scan.settled_iff total degree] at unchanged
    rw [← unchanged]
    constructor
    · intro all q first
      apply all
      rw [sameQueries, asked, mem_rangeQueries follows.queries]
      exact first
    · intro all ns rqi member
      rw [sameQueries, asked, mem_rangeQueries follows.queries] at member
      exact all (ns, rqi) member
  rw [results, getTxReadWriteSet_valid_iff recorded.nsName recorded.collName]
  constructor
  · intro current
    refine ⟨ranges.mp fun ns => (current ns).ranges, ?_⟩
    intro k member
    obtain ⟨r, found⟩ := isSome_iff_exists.mp (recorded.read k member)
    have hashed := (current k.ns).hashed k.coll k.key r found
    rw [recorded.hashedReads k.ns k.coll k.key r found] at hashed
    simp only [recordedVersion, if_pos member] at hashed
    exact hashed.symm
  · rintro ⟨scans, unchecked⟩ ns
    constructor
    · intro key r found
      rw [recorded.reads ns key r found]
    · exact ranges.mpr scans ns
    · intro coll key r found
      rw [recorded.hashedReads ns coll key r found]
      simp only [recordedVersion]
      split
      · rename_i member
        exact (unchecked _ member).symm
      · rfl

theorem simulate_selfValidates_iff (env : SimulatorEnv) (total : env.codec.Total) (degree : 2 ≤ env.maxDegreeQueryReadsHashing)
    (calls : List Call) : ∃ results, simulate env calls = .ok results ∧
      (SelfValidates env.codec env.db results.pubSimulationResults ↔ ReadsSettled env (usage env calls)) := by
  obtain ⟨s, ran, follows⟩ := run_follows total degree calls
  refine ⟨s.getTxSimulationResults env, ?_, ?_⟩
  · rw [simulate, ran]
    rfl
  · rw [selfValidates_iff_code]
    exact follows.recorded_iff total degree

def oneKeyEnv (hashing : Bool) : SimulatorEnv where
  codec := Codec.plain
  db := DB.empty.applyPrivacyAwareUpdates
    ⟨⟨false, (∅ : Updates CompositeKey).insert ⟨[110], [97]⟩ ⟨some [1], none, ⟨1, 0⟩⟩⟩, ∅, ∅⟩ none
  txid := "tx"
  validateCollName _ _ := .ok ()
  queryReadsHashingEnabled := hashing
  maxDegreeQueryReadsHashing := 50

theorem advancedIterator_selfValidates :
    ∃ results, simulate (oneKeyEnv true) [.getStateRangeScanIterator [110] [] [], .next 0] = .ok results ∧
      SelfValidates Codec.plain (oneKeyEnv true).db results.pubSimulationResults := by
  obtain ⟨results, ran, iff⟩ := simulate_selfValidates_iff (oneKeyEnv true) Codec.plain_total (by decide)
    [.getStateRangeScanIterator [110] [] [], .next 0]
  refine ⟨results, ran, iff.mpr ⟨?_, ?_⟩⟩
  · rintro scan ⟨earlier, later, split, _⟩
    have only : scan = ⟨[110], [], [], 0, 1⟩ := by
      have member : scan ∈ [(⟨[110], [], [], 0, 1⟩ : Scan)] := by
        rw [show [(⟨[110], [], [], 0, 1⟩ : Scan)] = earlier ++ scan :: later from split]
        simp
      simpa using member
    subst only
    rw [Scan.Settled, if_neg (by decide +kernel), if_neg (by decide)]
    decide +kernel
  · intro k member
    exact absurd member not_mem_nil

theorem unadvancedIterator_phantom :
    (∃ results, simulate (oneKeyEnv true) [.getStateRangeScanIterator [110] [] []] = .ok results ∧
      ¬ SelfValidates Codec.plain (oneKeyEnv true).db results.pubSimulationResults) ∧
    (∃ results, simulate (oneKeyEnv false) [.getStateRangeScanIterator [110] [] []] = .ok results ∧
      ¬ SelfValidates Codec.plain (oneKeyEnv false).db results.pubSimulationResults) := by
  refine ⟨⟨_, rfl, ?_⟩, ⟨_, rfl, ?_⟩⟩
  · intro valid
    exact absurd valid.code (by decide +kernel)
  · intro valid
    exact absurd valid.code (by decide +kernel)

end Fabric.Proof.TxMgr
