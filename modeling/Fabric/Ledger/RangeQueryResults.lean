import Fabric.Lib.HashLevels
import Fabric.Ledger.Rwset

/-! # Summaries of range query results -/

namespace Fabric.Ledger

open Lib List Option HashLevels

variable {h : Bytes} {kvRead : KVRead} {pending raw : List KVRead}

/-- Position `i` of `tree` holds level `i + 1`, so that the last position is `maxLevel`. -/
structure MerkleTree where
  tree : List (List Bytes)
  maxDegree : Nat

def newMerkleTree (maxDegree : Nat) : Result MerkleTree :=
  if maxDegree < 2 then
    .error (.error s!"maxDegree [{maxDegree}] should not be less than 2 in the merkle tree")
  else .ok ⟨[[]], maxDegree⟩

def computeCombinedHash (codec : Codec) (hashes : List Bytes) : Result Bytes :=
  codec.hashFunc hashes.flatten

variable (m : MerkleTree)

def MerkleTree.maxLevel : Nat := m.tree.length

def MerkleTree.isEmpty : Bool :=
  m.maxLevel == 1 && (top m.tree).isEmpty

def MerkleTree.update (codec : Codec) (nextLeafLevelHash : Bytes) : Result MerkleTree := do
  let tree ← push m.maxDegree (computeCombinedHash codec) nextLeafLevelHash m.tree
  .ok { m with tree }

def MerkleTree.done (codec : Codec) : Result MerkleTree := do
  let tree ← complete m.maxDegree (computeCombinedHash codec) none m.tree
  .ok { m with tree }

def MerkleTree.getSummery : QueryReadsMerkleSummary :=
  ⟨m.maxDegree, m.maxLevel, top m.tree⟩

/-- Without hashing there is no tree. -/
structure RangeQueryResultsHelper where
  pendingResults : List KVRead
  mt : Option MerkleTree
  maxDegree : Nat

def newRangeQueryResultsHelper (enableHashing : Bool) (maxDegree : Nat) : Result RangeQueryResultsHelper := do
  if enableHashing then
    let mt ← newMerkleTree maxDegree
    .ok ⟨[], some mt, maxDegree⟩
  else .ok ⟨[], none, maxDegree⟩

namespace RangeQueryResultsHelper

variable (codec : Codec)

def processPendingResults (helper : RangeQueryResultsHelper) (mt : MerkleTree) : Result MerkleTree := do
  let b ← codec.serializeKVReads helper.pendingResults
  let hash ← codec.hashFunc b
  mt.update codec hash

def addResult (helper : RangeQueryResultsHelper) (kvRead : KVRead) : Result RangeQueryResultsHelper :=
  let helper := { helper with pendingResults := helper.pendingResults ++ [kvRead] }
  match helper.mt with
  | none => .ok helper
  | some mt =>
    if helper.pendingResults.length > helper.maxDegree then do
      let mt ← helper.processPendingResults codec mt
      .ok { helper with pendingResults := [], mt := some mt }
    else .ok helper

def done (helper : RangeQueryResultsHelper) : Result (List KVRead × Option QueryReadsMerkleSummary) :=
  match helper.mt with
  | none => .ok (helper.pendingResults, none)
  | some mt =>
    if mt.isEmpty then .ok (helper.pendingResults, none)
    else do
      let mt ← (if helper.pendingResults.isEmpty then .ok mt else helper.processPendingResults codec mt)
      let mt ← mt.done codec
      .ok ([], some mt.getSummery)

def afterDone (helper : RangeQueryResultsHelper) : Result RangeQueryResultsHelper :=
  match helper.mt with
  | none => .ok helper
  | some mt =>
    if mt.isEmpty then .ok helper
    else do
      let mt ← (if helper.pendingResults.isEmpty then .ok mt else helper.processPendingResults codec mt)
      let mt ← mt.done codec
      .ok { helper with pendingResults := [], mt := some mt }

def getMerkleSummary (helper : RangeQueryResultsHelper) : Option QueryReadsMerkleSummary :=
  helper.mt.map (·.getSummery)

def summarize (helper : RangeQueryResultsHelper) (results : List KVRead) :
    Result (List KVRead × Option QueryReadsMerkleSummary) := do
  let helper ← results.foldlM (addResult codec) helper
  helper.done codec

end RangeQueryResultsHelper

/-- The later summary is of a higher tree, or appends to the same level. -/
def QueryReadsMerkleSummary.Grown (s s' : QueryReadsMerkleSummary) : Prop :=
  s.maxDegree = s'.maxDegree ∧
    (s.maxLevel < s'.maxLevel ∨ s.maxLevel = s'.maxLevel ∧ s.maxLevelHashes <+: s'.maxLevelHashes)

variable {codec : Codec}

theorem MerkleTree.update_grown {m m' : MerkleTree} (updated : m.update codec h = .ok m') : m.getSummery.Grown m'.getSummery := by
  simp only [MerkleTree.update, bind_eq_ok, ok.injEq] at updated
  obtain ⟨tree, pushed, rfl⟩ := updated
  exact ⟨rfl, push_grown pushed⟩

theorem MerkleTree.done_grown {m m' : MerkleTree} (completed : m.done codec = .ok m') : m.getSummery.Grown m'.getSummery := by
  simp only [MerkleTree.done, bind_eq_ok, ok.injEq] at completed
  obtain ⟨tree, completed, rfl⟩ := completed
  exact ⟨rfl, complete_grown completed⟩

theorem QueryReadsMerkleSummary.Grown.refl (s : QueryReadsMerkleSummary) : s.Grown s :=
  ⟨rfl, .inr ⟨rfl, prefix_refl _⟩⟩

theorem QueryReadsMerkleSummary.Grown.trans {a b c : QueryReadsMerkleSummary} (first : a.Grown b) (second : b.Grown c) : a.Grown c := by
  obtain ⟨degree, first⟩ := first
  obtain ⟨degree', second⟩ := second
  refine ⟨degree.trans degree', ?_⟩
  rcases first with higher | ⟨same, appended⟩ <;> rcases second with higher' | ⟨same', appended'⟩
  · exact .inl (by omega)
  · exact .inl (by omega)
  · exact .inl (by omega)
  · exact .inr ⟨by omega, appended.trans appended'⟩

theorem newRangeQueryResultsHelper_hashing {maxDegree : Nat} {helper : RangeQueryResultsHelper}
    (created : newRangeQueryResultsHelper true maxDegree = .ok helper) :
    2 ≤ maxDegree ∧ helper = ⟨[], some ⟨[[]], maxDegree⟩, maxDegree⟩ := by
  simp only [newRangeQueryResultsHelper, newMerkleTree, if_true, bind_eq_ok] at created
  obtain ⟨mt, built, created⟩ := created
  split at built
  · cases built
  · cases built
    cases created
    exact ⟨by omega, rfl⟩

variable {mt : MerkleTree} {helper' : RangeQueryResultsHelper} {summary : QueryReadsMerkleSummary}

namespace RangeQueryResultsHelper

theorem processPendingResults_grown {helper : RangeQueryResultsHelper} {mt' : MerkleTree}
    (processed : helper.processPendingResults codec mt = .ok mt') : mt.getSummery.Grown mt'.getSummery := by
  simp only [processPendingResults, bind_eq_ok] at processed
  obtain ⟨_, _, _, _, updated⟩ := processed
  exact MerkleTree.update_grown updated

theorem addResult_grown {helper : RangeQueryResultsHelper}
    (added : helper.addResult codec kvRead = .ok helper') (hashing : helper.mt = some mt) :
    ∃ mt', helper'.mt = some mt' ∧ mt.getSummery.Grown mt'.getSummery := by
  simp only [addResult, hashing] at added
  split at added
  · simp only [bind_eq_ok, ok.injEq] at added
    obtain ⟨mt', processed, rfl⟩ := added
    exact ⟨mt', rfl, processPendingResults_grown processed⟩
  · cases added
    exact ⟨mt, rfl, .refl _⟩

theorem done_grown {helper : RangeQueryResultsHelper}
    (finished : helper.done codec = .ok (pending, some summary)) (hashing : helper.mt = some mt) : mt.getSummery.Grown summary := by
  simp only [done, hashing] at finished
  split at finished
  · cases finished
  · simp only [bind_eq_ok, ok.injEq, Prod.mk.injEq, some.injEq] at finished
    obtain ⟨processed, taken, completed, last, _, rfl⟩ := finished
    refine QueryReadsMerkleSummary.Grown.trans ?_ (MerkleTree.done_grown last)
    split at taken
    · cases taken
      exact .refl _
    · exact processPendingResults_grown taken

theorem summarize_cons {helper : RangeQueryResultsHelper} {rest : List KVRead} : helper.summarize codec (kvRead :: rest) =
      helper.addResult codec kvRead >>= fun helper => helper.summarize codec rest := by
  simp [summarize]

theorem summarize_grown {results : List KVRead} {helper : RangeQueryResultsHelper}
 (hashing : helper.mt = some mt)
    (finished : helper.summarize codec results = .ok (pending, some summary)) :
    mt.getSummery.Grown summary := by
  induction results generalizing helper mt with
  | nil => exact done_grown finished hashing
  | cons kvRead rest ih =>
    rw [summarize_cons, bind_eq_ok] at finished
    obtain ⟨helper', added, finished⟩ := finished
    obtain ⟨mt', hashing', grown⟩ := addResult_grown added hashing
    exact grown.trans (ih hashing' finished)

theorem MerkleTree.update_nonempty {m m' : MerkleTree} (updated : m.update codec h = .ok m') : m'.isEmpty = false := by
  simp only [MerkleTree.update, bind_eq_ok, ok.injEq] at updated
  obtain ⟨tree, pushed, rfl⟩ := updated
  have nonempty := push_nonempty pushed
  simp only [MerkleTree.isEmpty, MerkleTree.maxLevel]
  grind

-- What the helper holds after it has been fed the results: until the first hash they are all pending,
-- and there is no hash before they exceed the degree.
structure Fed (hashing : Bool) (maxDegree : Nat) (results : List KVRead) (helper : RangeQueryResultsHelper) :
    Prop where
  degree : helper.maxDegree = maxDegree
  hashes : helper.mt.isSome = hashing
  trees : ∀ mt, helper.mt = some mt → mt.maxDegree = maxDegree ∧ 0 < mt.maxLevel
  pending : (∀ mt, helper.mt = some mt → mt.isEmpty = true) → helper.pendingResults = results
  exceeded : ∀ mt, helper.mt = some mt → mt.isEmpty = false → maxDegree < results.length

variable {hashing : Bool} {maxDegree : Nat} {results : List KVRead} {helper : RangeQueryResultsHelper}

theorem Fed.initial (created : newRangeQueryResultsHelper hashing maxDegree = .ok helper) : Fed hashing maxDegree [] helper := by
  cases hashing with
  | false =>
    simp only [newRangeQueryResultsHelper, Bool.false_eq_true, if_false, ok.injEq] at created
    subst created
    constructor <;> simp
  | true =>
    obtain ⟨_, rfl⟩ := newRangeQueryResultsHelper_hashing created
    constructor <;> simp [MerkleTree.maxLevel, MerkleTree.isEmpty, top]

section

variable (fed : Fed hashing maxDegree results helper)
include fed

theorem Fed.addResult (added : helper.addResult codec kvRead = .ok helper') : Fed hashing maxDegree (results ++ [kvRead]) helper' := by
  obtain ⟨degree, hashes, trees, pending, exceeded⟩ := fed
  unfold RangeQueryResultsHelper.addResult at added
  cases tree : helper.mt with
  | none =>
    simp only [tree, ok.injEq] at added
    subst added
    constructor <;> simp_all
  | some mt =>
    simp only [tree] at added
    obtain ⟨mtDegree, levels⟩ := trees mt tree
    split at added
    · rename_i long
      simp only [bind_eq_ok, ok.injEq] at added
      obtain ⟨mt', processed, rfl⟩ := added
      have grown := processPendingResults_grown processed
      have higher : mt.maxLevel ≤ mt'.maxLevel := by
        obtain ⟨_, higher | ⟨same, _⟩⟩ := grown
        · exact higher.le
        · exact same.le
      have nonempty : mt'.isEmpty = false := by
        simp only [processPendingResults, bind_eq_ok] at processed
        obtain ⟨_, _, _, _, updated⟩ := processed
        exact MerkleTree.update_nonempty updated
      have long' : maxDegree < (results ++ [kvRead]).length := by
        cases empty : mt.isEmpty with
        | true =>
          rw [← pending (by simpa [tree] using empty), ← degree]
          simpa using long
        | false =>
          have := exceeded mt tree empty
          simp only [length_append, length_singleton]
          omega
      constructor
      · exact degree
      · simpa [tree] using hashes
      · simp only [some.injEq, forall_eq']
        exact ⟨by rw [← mtDegree]; exact grown.1.symm, by omega⟩
      · simp [nonempty]
      · intro _ _ _
        exact long'
    · cases added
      constructor
      · exact degree
      · simpa [tree] using hashes
      · simpa [tree] using trees
      · intro unhashed
        rw [← pending (by rw [tree]; exact unhashed)]
      · intro m found nonempty
        have := exceeded m (by rw [tree]; exact found) nonempty
        simp only [length_append, length_singleton]
        omega

theorem Fed.foldlM {more : List KVRead} (added : more.foldlM (RangeQueryResultsHelper.addResult codec) helper = .ok helper') :
    Fed hashing maxDegree (results ++ more) helper' := by
  refine foldlM_invariant (fun done helper => Fed hashing maxDegree (results ++ done) helper) added (by simpa using fed) ?_
  intro done kvRead a b _ fedDone step
  rw [← append_assoc]
  exact fedDone.addResult step

theorem Fed.done_raw (finished : helper.done codec = .ok (raw, none)) : raw = results := by
  unfold RangeQueryResultsHelper.done at finished
  split at finished
  · rename_i plain
    simp only [ok.injEq, Prod.mk.injEq, and_true] at finished
    rw [← finished, fed.pending (by simp [plain])]
  · rename_i mt tree
    split at finished
    · rename_i empty
      simp only [ok.injEq, Prod.mk.injEq, and_true] at finished
      rw [← finished, fed.pending (by simpa [tree] using empty)]
    · simp [bind_eq_ok] at finished

theorem Fed.done_short (short : results.length ≤ maxDegree) : helper.done codec = .ok (results, none) := by
  have unhashed : ∀ mt, helper.mt = some mt → mt.isEmpty = true := by
    intro mt tree
    by_contra nonempty
    have := fed.exceeded mt tree (by simpa using nonempty)
    omega
  unfold RangeQueryResultsHelper.done
  rw [fed.pending unhashed]
  cases tree : helper.mt with
  | none => rfl
  | some mt => simp [unhashed mt tree]

theorem Fed.done_summary (finished : helper.done codec = .ok (raw, some summary)) :
    raw = [] ∧ hashing = true ∧ summary.maxDegree = maxDegree := by
  cases tree : helper.mt with
  | none => simp [RangeQueryResultsHelper.done, tree] at finished
  | some mt =>
    have grown := done_grown finished tree
    refine ⟨?_, by rw [← fed.hashes, tree]; rfl, by rw [← (fed.trees mt tree).1]; exact grown.1.symm⟩
    simp only [RangeQueryResultsHelper.done, tree] at finished
    split at finished
    · cases finished
    · simp only [bind_eq_ok, ok.injEq, Prod.mk.injEq] at finished
      obtain ⟨_, _, _, _, nothing, _⟩ := finished
      exact nothing.symm

end

variable (total : codec.Total)

include total

theorem processPendingResults_total (helper : RangeQueryResultsHelper) (mt : MerkleTree) :
    ∃ mt', helper.processPendingResults codec mt = .ok mt' := by
  obtain ⟨b, serialized⟩ := total.serializes helper.pendingResults
  obtain ⟨hash, hashed⟩ := total.hashes b
  have push : ∃ tree, push mt.maxDegree (computeCombinedHash codec) hash mt.tree = .ok tree :=
    push_total (fun hashes => total.hashes _) hash mt.tree
  obtain ⟨tree, pushed⟩ := push
  exact ⟨{ mt with tree }, by simp [processPendingResults, serialized, hashed, MerkleTree.update, pushed, bind, Except.bind]⟩

theorem addResult_total (helper : RangeQueryResultsHelper) (kvRead : KVRead) : ∃ helper', helper.addResult codec kvRead = .ok helper' := by
  unfold addResult
  cases tree : helper.mt with
  | none => exact ⟨_, rfl⟩
  | some mt =>
    simp only
    split
    · obtain ⟨mt', processed⟩ := processPendingResults_total total
        { helper with pendingResults := helper.pendingResults ++ [kvRead] } mt
      rw [tree] at processed
      exact ⟨_, by rw [processed]; rfl⟩
    · exact ⟨_, rfl⟩

theorem done_total (helper : RangeQueryResultsHelper) : ∃ out, helper.done codec = .ok out := by
  unfold done
  cases tree : helper.mt with
  | none => exact ⟨_, rfl⟩
  | some mt =>
    simp only
    split
    · exact ⟨_, rfl⟩
    · have processed : ∃ mt', (if helper.pendingResults.isEmpty then .ok mt
          else helper.processPendingResults codec mt) = .ok mt' := by
        split
        · exact ⟨_, rfl⟩
        · exact processPendingResults_total total helper mt
      obtain ⟨mt', taken⟩ := processed
      have complete : ∃ tree,
          complete mt'.maxDegree (computeCombinedHash codec) none mt'.tree = .ok tree :=
        complete_total (fun hashes => total.hashes _) none mt'.tree
      obtain ⟨tree, completed⟩ := complete
      exact ⟨_, by rw [taken]; simp [MerkleTree.done, completed, bind, Except.bind]; rfl⟩

end RangeQueryResultsHelper

end Fabric.Ledger
