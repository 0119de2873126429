import Fabric.Ledger.Validation.RangeQuery

namespace Fabric.Proof.Validation

open Lib Fabric.Ledger Fabric.Ledger.Validation List Option VersionedKV RangeQueryResultsHelper VersionedValue State

namespace CombinedIterator

variable {results : List VersionedKV} {valid : Bool} {helper : RangeQueryResultsHelper} {matched : Nat}
  {db : State CompositeKey} {ns : Bytes} {rqi : RangeQueryInfo} {updates : UpdateBatch} (itr : CombinedIterator)

theorem next_spec : ∃ dbItr updatesItr, match mergeScans isDelete itr.dbItr itr.updatesItr with
      | [] => itr.next = { itr with dbItr, updatesItr }.serveEndKeyIfNeeded ∧ mergeStep dbItr updatesItr = none
      | kv :: rest => itr.next = (some kv, { itr with dbItr, updatesItr }) ∧ mergeScans isDelete dbItr updatesItr = rest := by
  fun_induction CombinedIterator.next itr with
  | case1 itr finished =>
    rw [mergeScans_of_finished finished]
    exact ⟨itr.dbItr, itr.updatesItr, rfl, finished⟩
  | case2 itr item dbItr updatesItr found moved marker ih =>
    rw [mergeScans_of_step found, if_pos marker]
    exact ih
  | case3 itr item dbItr updatesItr found moved value =>
    rw [mergeScans_of_step found, if_neg value]
    exact ⟨dbItr, updatesItr, rfl, rfl⟩

def servedEndKey : List VersionedKV :=
  if itr.includeEndKey && !itr.endKeyServed then itr.endKeyItem.toList else []

theorem results_eq : itr.results = mergeScans isDelete itr.dbItr itr.updatesItr ++ servedEndKey itr := by
  induction left : itr.remaining using Nat.strong_induction_on generalizing itr with
  | _ n ih =>
    obtain ⟨dbItr, updatesItr, step⟩ := next_spec itr
    cases merged : mergeScans isDelete itr.dbItr itr.updatesItr with
    | cons kv rest =>
      simp only [merged] at step
      obtain ⟨next, rfl⟩ := step
      have later := ih _ (left ▸ CombinedIterator.next_remaining next) _ rfl
      rw [CombinedIterator.results_of_some next, later]
      rfl
    | nil =>
      simp only [merged] at step
      obtain ⟨next, finished⟩ := step
      unfold CombinedIterator.serveEndKeyIfNeeded at next
      split at next
      · rename_i skipped
        rw [CombinedIterator.results_of_none next]
        cases included : itr.includeEndKey <;> simp_all [servedEndKey]
      · rename_i needed
        cases item : itr.endKeyItem with
        | none =>
          have absent : { itr with dbItr, updatesItr }.endKeyItem = none := item
          rw [absent] at next
          rw [CombinedIterator.results_of_none next]
          simp [servedEndKey, item]
        | some kv =>
          have present : { itr with dbItr, updatesItr }.endKeyItem = some kv := item
          rw [present] at next
          have later := ih _ (left ▸ CombinedIterator.next_remaining next) _ rfl
          rw [CombinedIterator.results_of_some next, later, mergeScans_of_finished finished]
          simp_all [servedEndKey]

end CombinedIterator

variable (s : State CompositeKey)

/-- The reads a range query stands for in a state: the keys from its start key on and before its end
key, and the end key itself when the simulation stopped there. -/
def scannedReads (ns : Bytes) (rqi : RangeQueryInfo) : List KVRead :=
  (s.getStateRangeScanIterator ns rqi.startKey rqi.endKey).map toRead ++
    if rqi.itrExhausted then [] else ((s.getVersion ⟨ns, rqi.endKey⟩).map fun v => ⟨rqi.endKey, some v⟩).toList

theorem mergeScans_eq_applyUpdates (db : State CompositeKey) (updates : UpdateBatch) (ns startKey endKey : Bytes) :
    mergeScans isDelete (db.getStateRangeScanIterator ns startKey endKey) (updates.getRangeScanIterator ns startKey endKey) =
      (db.applyUpdates updates.updates).getStateRangeScanIterator ns startKey endKey := by
  have pending : KeySorted (updates.getRangeScanIterator ns startKey endKey) := by
    rw [UpdateBatch.getRangeScanIterator_eq]
    exact (nsEntries_sorted _ _).filter _
  obtain ⟨sorted, mem⟩ := mergeScans_spec isDelete (db.getStateRangeScanIterator_sorted ns startKey endKey) pending
  refine sorted.eq_of_mem_iff (getStateRangeScanIterator_sorted _ _ _ _) fun ⟨key, vv⟩ => ?_
  have live := db.live ⟨ns, key⟩ vv
  rw [mem, Shown, mem_getStateRangeScanIterator, mem_getStateRangeScanIterator, getState_applyUpdates]
  simp only [UpdateBatch.getRangeScanIterator_eq, mem_filter, mem_nsEntries]
  cases written : updates.updates[(⟨ns, key⟩ : CompositeKey)]? with
  | none =>
    simp only [overlayEntry_none, getState] at live ⊢
    grind
  | some u =>
    simp only [overlayEntry_some]
    grind

def endKeyItem (ns endKey : Bytes) : Option VersionedKV :=
  (s.getState ⟨ns, endKey⟩).map fun vv => (endKey, { vv with metadata := none })

variable (endIn : Bool) {kvReads : List KVRead} {codec : Codec}

theorem endKeyItem_eq (db : State CompositeKey) (updates : UpdateBatch) (ns startKey endKey : Bytes) :
    (newCombinedIterator db updates ns startKey endKey endIn).endKeyItem = endKeyItem (db.applyUpdates updates.updates) ns endKey := by
  have live := db.live ⟨ns, endKey⟩
  simp only [CombinedIterator.endKeyItem, newCombinedIterator, endKeyItem, getState_applyUpdates]
  cases written : updates.updates[(⟨ns, endKey⟩ : CompositeKey)]? with
  | none =>
    simp only [none_or, overlayEntry_none]
    cases stored : db.getState ⟨ns, endKey⟩ with
    | none => rfl
    | some vv => simp [live vv stored]
  | some vv =>
    simp only [some_or, overlayEntry_some]
    cases vv.isDelete <;> simp

theorem combined_results (db : State CompositeKey) (updates : UpdateBatch) (ns startKey endKey : Bytes) :
    (newCombinedIterator db updates ns startKey endKey endIn).results =
      (db.applyUpdates updates.updates).getStateRangeScanIterator ns startKey endKey ++
        if endIn then (endKeyItem (db.applyUpdates updates.updates) ns endKey).toList else [] := by
  rw [CombinedIterator.results_eq, CombinedIterator.servedEndKey, endKeyItem_eq, ← mergeScans_eq_applyUpdates]
  simp [newCombinedIterator]

theorem combined_reads (db : State CompositeKey) (updates : UpdateBatch) (ns : Bytes) (rqi : RangeQueryInfo) :
    (newCombinedIterator db updates ns rqi.startKey rqi.endKey (!rqi.itrExhausted)).results.map toRead =
      scannedReads (db.applyUpdates updates.updates) ns rqi := by
  rw [combined_results, map_append, scannedReads, endKeyItem, getVersion]
  cases rqi.itrExhausted <;> cases (db.applyUpdates updates.updates).getState ⟨ns, rqi.endKey⟩ <;> rfl

/-- The live entries of the overlaid state in the range, and the end key, in the order of the keys. -/
def Overlays (ns startKey endKey : Bytes) (endIn : Bool)
    (results : List VersionedKV) : Prop :=
  KeySorted results ∧ ∀ key vv, (key, vv) ∈ results ↔ s.getState ⟨ns, key⟩ = some vv ∧ inRange startKey endKey key ∨
      endIn ∧ endKeyItem s ns endKey = some (key, vv)

theorem sorted_scan_endKey_iff (ns startKey endKey : Bytes) (endIn : Bool) :
    KeySorted (s.getStateRangeScanIterator ns startKey endKey ++ if endIn then (endKeyItem s ns endKey).toList else []) ↔
      (endIn → (s.getState ⟨ns, endKey⟩).isSome →
        ∀ kv ∈ s.getStateRangeScanIterator ns startKey endKey, compare kv.1 endKey = .lt) := by
  have sorted := s.getStateRangeScanIterator_sorted ns startKey endKey
  unfold KeySorted at sorted ⊢
  rw [pairwise_append, endKeyItem]
  cases endIn <;> cases s.getState ⟨ns, endKey⟩ <;> simp [sorted]

theorem not_lt_nil {key : Bytes} : compare key [] ≠ .lt := by
  cases key <;> simp

/-- The combined iterator shows the overlaid state, unless the end key is the empty one. -/
theorem combinedIterator_overlays_iff (db : State CompositeKey) (updates : UpdateBatch) (ns startKey endKey : Bytes) :
    Overlays (db.applyUpdates updates.updates) ns startKey endKey endIn
        (newCombinedIterator db updates ns startKey endKey endIn).results ↔
      (endIn → endKey = [] → ((db.applyUpdates updates.updates).getState ⟨ns, []⟩).isSome →
        ∀ key, ((db.applyUpdates updates.updates).getState ⟨ns, key⟩).isSome → compare key startKey = .lt) := by
  rw [combined_results]
  generalize db.applyUpdates updates.updates = s
  have listed : ∀ key vv, (key, vv) ∈ s.getStateRangeScanIterator ns startKey endKey ++
      (if endIn then (endKeyItem s ns endKey).toList else []) ↔
        s.getState ⟨ns, key⟩ = some vv ∧ inRange startKey endKey key ∨ endIn ∧ endKeyItem s ns endKey = some (key, vv) := by
    intro key vv
    rw [mem_append, mem_getStateRangeScanIterator]
    cases endIn <;> simp
  rw [Overlays, and_iff_left listed, sorted_scan_endKey_iff]
  refine forall_congr' fun included => ?_
  cases endKey with
  | nil =>
    simp only [true_imp_iff]
    refine forall_congr' fun isLive => ⟨fun none key found => ?_, fun below kv mem => ?_⟩
    · obtain ⟨vv, found⟩ := isSome_iff_exists.mp found
      by_contra above
      have inside : inRange startKey [] key := by
        have flipped : compare key startKey = (compare startKey key).swap := Std.OrientedCmp.eq_swap
        cases order : compare startKey key <;> simp_all [inRange]
      exact not_lt_nil (none (key, vv) (mem_getStateRangeScanIterator.mpr ⟨found, inside⟩))
    · obtain ⟨found, inside⟩ := mem_getStateRangeScanIterator.mp mem
      have less := below kv.1 (by rw [found]; rfl)
      simp [inRange, Std.OrientedCmp.gt_of_lt less] at inside
  | cons b rest =>
    simp only [reduceCtorEq, false_imp_iff, iff_true]
    intro _ kv mem
    have range := (mem_getStateRangeScanIterator.mp mem).2
    simp only [inRange, isEmpty_cons, Bool.false_or, Bool.and_eq_true, beq_iff_eq] at range
    exact range.2

def twoPuts : UpdateBatch :=
  ⟨false, ((∅ : Updates CompositeKey).insert ⟨[1], []⟩ ⟨some [7], none, ⟨1, 0⟩⟩).insert ⟨[1], [2]⟩ ⟨some [8], none, ⟨1, 0⟩⟩⟩

theorem emptyKey_served_twice :
    ¬ Overlays ((⟨∅, by simp⟩ : State CompositeKey).applyUpdates twoPuts.updates) [1] [] [] true
      (newCombinedIterator ⟨∅, by simp⟩ twoPuts [1] [] [] true).results := by
  rintro ⟨sorted, _⟩
  rw [combined_results] at sorted
  revert sorted
  unfold KeySorted
  decide +kernel

theorem eq_toRead_iff {kvRead : KVRead} {kv : VersionedKV} : kvRead = toRead kv ↔ kv.1 = kvRead.key ∧ kvRead.version = some kv.2.version := by
  obtain ⟨key, version⟩ := kvRead
  simp [toRead, eq_comm (a := key)]

theorem rangeQueryResultsValidate_iff
    (ran : rangeQueryResultsValidate kvReads results = .ok valid) : valid = true ↔ kvReads = results.map toRead := by
  fun_induction rangeQueryResultsValidate kvReads results with
  | case1 => simp_all
  | case2 => simp_all
  | case3 => simp_all
  | case4 kvRead rqResults result results different =>
    simp_all [eq_toRead_iff]
  | case5 kvRead rqResults result results same ih =>
    simp only [bind_eq_ok] at ran
    obtain ⟨version, converted, ran⟩ := ran
    rw [map_cons, List.cons.injEq, eq_toRead_iff]
    cases recorded : kvRead.version with
    | none => simp [convertToVersionHeight, recorded] at converted
    | some v =>
      simp only [convertToVersionHeight, recorded, ok.injEq] at converted
      subst converted
      split at ran
      · rename_i changed
        simp only [areSame_eq, Bool.not_eq_true', decide_eq_false_iff_not] at changed
        simp_all [Ne.symm changed]
      · rw [ih ran]
        simp_all

theorem merkleSummariesEqual_iff {ms : QueryReadsMerkleSummary} {another : Option QueryReadsMerkleSummary} :
    merkleSummariesEqual ms another = true ↔ another = some ms := by
  cases another with
  | none => simp [merkleSummariesEqual]
  | some s =>
    obtain ⟨degree, level, hashes⟩ := ms
    obtain ⟨degree', level', hashes'⟩ := s
    simp only [merkleSummariesEqual, Bool.and_eq_true, beq_iff_eq, some.injEq, QueryReadsMerkleSummary.mk.injEq]
    grind

section

variable {codec : Codec} {inMerkle : QueryReadsMerkleSummary}

theorem summarize_of_rangeQueryHashValidate (accepted : rangeQueryHashValidate codec inMerkle helper matched results = .ok true) :
    ∃ pending, helper.summarize codec (results.map toRead) = .ok (pending, some inMerkle) := by
  fun_induction rangeQueryHashValidate codec inMerkle helper matched results with
  | case1 helper matched =>
    simp only [bind_eq_ok, ok.injEq] at accepted
    obtain ⟨⟨pending, merkle⟩, finished, equal⟩ := accepted
    rw [merkleSummariesEqual_iff] at equal
    exact ⟨pending, equal ▸ finished⟩
  | case2 helper matched result results ih ihMatched =>
    simp only [bind_eq_ok] at accepted
    obtain ⟨helper', added, accepted⟩ := accepted
    rw [map_cons, summarize_cons, added]
    change ∃ pending, helper'.summarize codec _ = _
    split at accepted
    · simp at accepted
    · rename_i merkle summary
      split at accepted
      · exact ih helper' accepted
      · split at accepted
        · exact ih helper' accepted
        · split at accepted
          · simp at accepted
          · simp only [bind_eq_ok] at accepted
            obtain ⟨built, _, recorded, _, accepted⟩ := accepted
            split at accepted
            · simp at accepted
            · exact ihMatched helper' accepted

theorem rangeQueryHashValidate_of_summarize {mt : MerkleTree} {pending : List KVRead} (hashing : helper.mt = some mt)
    (compared : matched = 0 ∨ mt.getSummery.maxLevel = inMerkle.maxLevel ∧ matched ≤ mt.getSummery.maxLevelHashes.length)
    (summarized : helper.summarize codec (results.map toRead) = .ok (pending, some inMerkle)) :
    rangeQueryHashValidate codec inMerkle helper matched results = .ok true := by
  induction results generalizing helper mt matched with
  | nil =>
    have finished : helper.done codec = .ok (pending, some inMerkle) := summarized
    simp [rangeQueryHashValidate, finished, bind, Except.bind, merkleSummariesEqual_iff]
  | cons result results ih =>
    rw [map_cons, summarize_cons, bind_eq_ok] at summarized
    obtain ⟨helper', added, summarized⟩ := summarized
    obtain ⟨mt', hashing', grown⟩ := addResult_grown added hashing
    have final := summarize_grown hashing' summarized
    have summary : helper'.getMerkleSummary = some mt'.getSummery := by
      simp [getMerkleSummary, hashing']
    rw [rangeQueryHashValidate, added]
    simp only [bind, Except.bind, summary]
    obtain ⟨_, grown⟩ := grown
    obtain ⟨_, final⟩ := final
    split
    · rename_i lower
      refine ih hashing' ?_ summarized
      rcases compared with fresh | ⟨level, _⟩
      · exact .inl fresh
      · omega
    · rename_i reached
      -- The tree has reached the recorded level, so its top level is a prefix of the recorded one.
      have level : mt'.getSummery.maxLevel = inMerkle.maxLevel := by omega
      have appended : mt'.getSummery.maxLevelHashes <+: inMerkle.maxLevelHashes := by
        rcases final with higher | ⟨_, appended⟩
        · omega
        · exact appended
      have bounded : matched ≤ mt'.getSummery.maxLevelHashes.length := by
        rcases compared with fresh | ⟨level', inTop⟩
        · omega
        · rcases grown with higher | ⟨_, kept⟩
          · omega
          · exact inTop.trans kept.length_le
      split
      · exact ih hashing' (.inr ⟨level, bounded⟩) summarized
      · rename_i more
        have inside : matched < mt'.getSummery.maxLevelHashes.length := by omega
        have exceeded : ¬ mt'.getSummery.maxLevelHashes.length > inMerkle.maxLevelHashes.length := by
          have := appended.length_le
          omega
        obtain ⟨h, built⟩ : ∃ h, mt'.getSummery.maxLevelHashes[matched]? = some h := ⟨_, getElem?_eq_getElem inside⟩
        have recorded : inMerkle.maxLevelHashes[matched]? = some h := by
          obtain ⟨rest, whole⟩ := appended
          rw [← whole, getElem?_append_left inside, built]
        rw [if_neg exceeded]
        simp only [hashAt, built, recorded, ne_eq, not_true_eq_false, if_false]
        exact ih hashing' (.inr ⟨level, inside⟩) summarized

end

def rangeUnchanged (codec : Codec) (s : State CompositeKey) (ns : Bytes) (rqi : RangeQueryInfo) : Prop :=
  match rqi.readsInfo with
  | .unset => scannedReads s ns rqi = []
  | .rawReads kvReads => scannedReads s ns rqi = kvReads
  | .readsMerkleHashes summary => ∃ helper pending, newRangeQueryResultsHelper true summary.maxDegree = .ok helper ∧
        helper.summarize codec (scannedReads s ns rqi) = .ok (pending, some summary)

theorem rangeQueryResultsValidate_self (results : List VersionedKV) : rangeQueryResultsValidate (results.map toRead) results = .ok true := by
  induction results with
  | nil => rfl
  | cons kv results ih =>
    simp [rangeQueryResultsValidate, toRead, convertToVersionHeight, bind, Except.bind]
    exact ih

theorem rangeQueryResultsValidate_eq_true :
    rangeQueryResultsValidate kvReads results = .ok true ↔ results.map toRead = kvReads := by
  constructor
  · intro accepted
    exact ((rangeQueryResultsValidate_iff accepted).mp rfl).symm
  · rintro rfl
    exact rangeQueryResultsValidate_self results

theorem validateRangeQuery_eq_true_iff : validateRangeQuery codec db ns rqi updates = .ok true ↔
      rangeUnchanged codec (db.applyUpdates updates.updates) ns rqi := by
  unfold validateRangeQuery rangeUnchanged
  rw [← combined_reads db updates ns rqi]
  cases rqi.readsInfo with
  | unset => exact rangeQueryResultsValidate_eq_true
  | rawReads kvReads => exact rangeQueryResultsValidate_eq_true
  | readsMerkleHashes summary =>
    simp only [bind_eq_ok]
    constructor
    · rintro ⟨helper, created, ran⟩
      obtain ⟨pending, summarized⟩ := summarize_of_rangeQueryHashValidate ran
      exact ⟨helper, pending, created, summarized⟩
    · rintro ⟨helper, pending, created, summarized⟩
      have hashing : helper.mt = some ⟨[[]], summary.maxDegree⟩ := by
        rw [(newRangeQueryResultsHelper_hashing created).2]
      exact ⟨helper, created, rangeQueryHashValidate_of_summarize hashing (.inl rfl) summarized⟩

theorem validateRangeQuery_iff (ran : validateRangeQuery codec db ns rqi updates = .ok valid) :
    valid = true ↔ rangeUnchanged codec (db.applyUpdates updates.updates) ns rqi := by
  rw [← validateRangeQuery_eq_true_iff, ran, ok.injEq]

end Fabric.Proof.Validation
