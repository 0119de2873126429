import Fabric.Ledger.RangeQueryResults

/-! # Re-scanning a range query -/

namespace Fabric.Ledger.Validation

open Lib Ledger

/-- The heads of `dbItr` and `updatesItr` are the items that the iterator has already fetched. -/
structure CombinedIterator where
  ns : Bytes
  db : State CompositeKey
  updates : UpdateBatch
  endKey : Bytes
  includeEndKey : Bool
  dbItr : List VersionedKV
  updatesItr : List VersionedKV
  endKeyServed : Bool

def newCombinedIterator (db : State CompositeKey) (updates : UpdateBatch) (ns startKey endKey : Bytes)
    (includeEndKey : Bool) : CombinedIterator where
  ns := ns
  db := db
  updates := updates
  endKey := endKey
  includeEndKey := includeEndKey
  dbItr := db.getStateRangeScanIterator ns startKey endKey
  updatesItr := updates.getRangeScanIterator ns startKey endKey
  endKeyServed := false

namespace CombinedIterator

variable (itr : CombinedIterator)

def endKeyItem : Option VersionedKV :=
  match itr.updates.updates[(⟨itr.ns, itr.endKey⟩ : CompositeKey)]?.or (itr.db.getState ⟨itr.ns, itr.endKey⟩) with
  | none => none
  | some vv => if vv.isDelete then none else some (itr.endKey, { vv with metadata := none })

def serveEndKeyIfNeeded : Option VersionedKV × CombinedIterator :=
  if !itr.includeEndKey || itr.endKeyServed then (none, itr)
  else (itr.endKeyItem, { itr with endKeyServed := true })

def next (itr : CombinedIterator) : Option VersionedKV × CombinedIterator :=
  match _step : mergeStep itr.dbItr itr.updatesItr with
  | none => itr.serveEndKeyIfNeeded
  | some (selectedItem, dbItr, updatesItr) =>
    let moved := { itr with dbItr, updatesItr }
    if selectedItem.2.isDelete then moved.next else (some selectedItem, moved)
termination_by itr.dbItr.length + itr.updatesItr.length
decreasing_by exact mergeStep_length _step

def remaining : Nat :=
  itr.dbItr.length + itr.updatesItr.length + if itr.endKeyServed then 0 else 1

theorem next_remaining {itr itr' : CombinedIterator} {kv : VersionedKV} (step : itr.next = (some kv, itr')) :
    itr'.remaining < itr.remaining := by
  fun_induction next itr with
  | case1 itr finished =>
    unfold serveEndKeyIfNeeded at step
    split at step
    · simp at step
    · simp only [Prod.mk.injEq] at step
      obtain ⟨_, rfl⟩ := step
      simp_all [remaining]
  | case2 itr item dbItr updatesItr found moved marker ih =>
    have shorter := mergeStep_length found
    have rest := ih step
    simp only [remaining, moved] at rest ⊢
    omega
  | case3 itr item dbItr updatesItr found moved value =>
    have shorter := mergeStep_length found
    simp only [Prod.mk.injEq, Option.some.injEq] at step
    obtain ⟨_, rfl⟩ := step
    simp only [remaining, moved]
    omega

def results (itr : CombinedIterator) : List VersionedKV :=
  match _step : itr.next with
  | (none, _) => []
  | (some kv, itr') => kv :: itr'.results
termination_by itr.remaining
decreasing_by exact next_remaining _step

theorem results_of_none {itr itr' : CombinedIterator} (step : itr.next = (none, itr')) : itr.results = [] := by
  rw [results]
  split <;> simp_all

theorem results_of_some {itr itr' : CombinedIterator} {kv : VersionedKV} (step : itr.next = (some kv, itr')) :
    itr.results = kv :: itr'.results := by
  rw [results]
  split <;> simp_all

end CombinedIterator

def VersionedKV.toRead (kv : VersionedKV) : KVRead := ⟨kv.1, some kv.2.version⟩

def convertToVersionHeight : Option Height → Result (Option Height)
  | none => .error (.panic "runtime error: invalid memory address or nil pointer dereference")
  | some v => .ok (some v)

def rangeQueryResultsValidate : List KVRead → List VersionedKV → Result Bool
  | [], [] => .ok true
  | [], _ :: _ => .ok false
  | _ :: _, [] => .ok false
  | kvRead :: rqResults, result :: results =>
    if result.1 ≠ kvRead.key then .ok false
    else do
      let version ← convertToVersionHeight kvRead.version
      if !areSame (some result.2.version) version then .ok false
      else rangeQueryResultsValidate rqResults results

def merkleSummariesEqual (ms : QueryReadsMerkleSummary) : Option QueryReadsMerkleSummary → Bool
  | none => false
  | some anotherMS =>
    ms.maxDegree == anotherMS.maxDegree && ms.maxLevel == anotherMS.maxLevel &&
      ms.maxLevelHashes == anotherMS.maxLevelHashes

def hashAt (hashes : List Bytes) (index : Nat) : Result Bytes :=
  match hashes[index]? with
  | none => .error (.panic s!"runtime error: index out of range [{index}] with length {hashes.length}")
  | some h => .ok h

/-- Builds the tree over the results and compares its top level with the recorded one as it grows.
`matched` is the source's `lastMatchedIndex + 1`. -/
def rangeQueryHashValidate (codec : Codec) (inMerkle : QueryReadsMerkleSummary) :
    RangeQueryResultsHelper → Nat → List VersionedKV → Result Bool
  | resultsHelper, _, [] => do
    let (_, merkle) ← resultsHelper.done codec
    .ok (merkleSummariesEqual inMerkle merkle)
  | resultsHelper, matched, result :: results => do
    let resultsHelper ← resultsHelper.addResult codec (VersionedKV.toRead result)
    match resultsHelper.getMerkleSummary with
    | none => .error (.panic "runtime error: invalid memory address or nil pointer dereference")
    | some merkle =>
      if merkle.maxLevel < inMerkle.maxLevel then
        rangeQueryHashValidate codec inMerkle resultsHelper matched results
      else if matched = merkle.maxLevelHashes.length then
        rangeQueryHashValidate codec inMerkle resultsHelper matched results
      else if merkle.maxLevelHashes.length > inMerkle.maxLevelHashes.length then .ok false
      else do
        let built ← hashAt merkle.maxLevelHashes matched
        let recorded ← hashAt inMerkle.maxLevelHashes matched
        if built ≠ recorded then .ok false
        else rangeQueryHashValidate codec inMerkle resultsHelper (matched + 1) results

def validateRangeQuery (codec : Codec) (db : State CompositeKey) (ns : Bytes) (rangeQueryInfo : RangeQueryInfo)
    (updates : UpdateBatch) : Result Bool :=
  let includeEndKey := !rangeQueryInfo.itrExhausted
  let combinedItr :=
    newCombinedIterator db updates ns rangeQueryInfo.startKey rangeQueryInfo.endKey includeEndKey
  match rangeQueryInfo.readsInfo with
  | .readsMerkleHashes summary => do
    let resultsHelper ← newRangeQueryResultsHelper true summary.maxDegree
    rangeQueryHashValidate codec summary resultsHelper 0 combinedItr.results
  | .rawReads kvReads => rangeQueryResultsValidate kvReads combinedItr.results
  | .unset => rangeQueryResultsValidate [] combinedItr.results

end Fabric.Ledger.Validation
