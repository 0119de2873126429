import Fabric.Lib.Extract
import Fabric.Proof.Validation.RangeQuery

/-! # Comparing a re-scan with a recorded summary

The comparison follows the tree of the re-scan as it grows. It is exact as long as the tree does not grow past the
recorded level after it has matched a recorded top level that is full. -/

namespace Fabric.Proof.Validation

open Lib Fabric.Ledger Fabric.Ledger.Validation List Option
open RangeQueryResultsHelper (summarize)
open VersionedKV (toRead)
open MerkleTree (getSummery)

variable {codec : Codec} {deg count : Nat} {helper helper' : RangeQueryResultsHelper} {mt mt' : MerkleTree}
  {level : Nat} {result : VersionedKV}

structure Counted (deg count : Nat) (helper : RangeQueryResultsHelper) (mt : MerkleTree) : Prop where
  degree : helper.maxDegree = deg
  tree : helper.mt = some mt
  treeDegree : mt.maxDegree = deg
  levels : mt.tree ≠ []
  bounded : HashLevels.Bounded deg mt.tree
  reached : mt.tree.length = 1 ∨ HashLevels.top mt.tree ≠ []
  pending : helper.pendingResults.length ≤ deg
  counted : HashLevels.weight deg mt.tree * (deg + 1) + helper.pendingResults.length = count

theorem Counted.initial (created : newRangeQueryResultsHelper true deg = .ok helper) : 2 ≤ deg ∧ Counted deg 0 helper ⟨[[]], deg⟩ := by
  obtain ⟨large, rfl⟩ := newRangeQueryResultsHelper_hashing created
  refine ⟨large, ?_⟩
  constructor <;> simp [HashLevels.Bounded, HashLevels.weight]

inductive TopStep (deg : Nat) (mt mt' : MerkleTree) : Prop where
  | same (level : mt'.maxLevel = mt.maxLevel) (top : HashLevels.top mt'.tree = HashLevels.top mt.tree)
  | appended (h : Bytes) (level : mt'.maxLevel = mt.maxLevel)
      (top : HashLevels.top mt'.tree = HashLevels.top mt.tree ++ [h])
  | raised (h : Bytes) (level : mt'.maxLevel = mt.maxLevel + 1) (full : (HashLevels.top mt.tree).length = deg)
      (top : HashLevels.top mt'.tree = [h])

section

variable (pos : 1 ≤ deg)
include pos

theorem Counted.update {h : Bytes} (counted : Counted deg count helper mt) (updated : mt.update codec h = .ok mt') :
    TopStep deg mt mt' ∧ mt'.maxDegree = deg ∧ mt'.tree ≠ [] ∧ HashLevels.Bounded deg mt'.tree ∧
      (mt'.tree.length = 1 ∨ HashLevels.top mt'.tree ≠ []) ∧ HashLevels.weight deg mt'.tree = HashLevels.weight deg mt.tree + 1 := by
  simp only [MerkleTree.update, bind_eq_ok, ok.injEq] at updated
  obtain ⟨tree, pushed, rfl⟩ := updated
  rw [counted.treeDegree] at pushed
  have bounded := HashLevels.push_bounded pos counted.bounded pushed
  have weight := HashLevels.push_weight counted.bounded pushed
  have levels := counted.levels
  have reached := counted.reached
  rcases HashLevels.push_top counted.levels counted.bounded pushed with ⟨level, top | ⟨h', top⟩⟩ | ⟨level, full, h', top⟩
  · refine ⟨.same level top, counted.treeDegree, ?_, bounded, by simpa [level, top] using reached, weight⟩
    exact ne_nil_of_length_pos (level ▸ length_pos_of_ne_nil levels)
  · refine ⟨.appended h' level top, counted.treeDegree, ?_, bounded, .inr (by simp [top]), weight⟩
    exact ne_nil_of_length_pos (level ▸ length_pos_of_ne_nil levels)
  · refine ⟨.raised h' level full top, counted.treeDegree, ?_, bounded, .inr (by simp [top]), weight⟩
    exact ne_nil_of_length_pos (by simp [level])

theorem Counted.addResult {kvRead : KVRead} (counted : Counted deg count helper mt)
    (added : helper.addResult codec kvRead = .ok helper') : ∃ mt', Counted deg (count + 1) helper' mt' ∧ TopStep deg mt mt' := by
  have pending := counted.pending
  have total := counted.counted
  simp only [RangeQueryResultsHelper.addResult, counted.tree, counted.degree] at added
  split at added
  case isTrue long =>
    simp only [bind_eq_ok, ok.injEq] at added
    obtain ⟨mt', processed, rfl⟩ := added
    simp only [RangeQueryResultsHelper.processPendingResults, bind_eq_ok] at processed
    obtain ⟨_, _, _, _, updated⟩ := processed
    obtain ⟨step, degree, levels, bounded, reached, weight⟩ := counted.update pos updated
    refine ⟨mt', ⟨rfl, rfl, degree, levels, bounded, reached, by simp, ?_⟩, step⟩
    simp only [length_append, length_singleton] at long
    simp only [weight, add_mul, one_mul, length_nil]
    omega
  case isFalse short =>
    cases added
    simp only [length_append, length_singleton, not_lt] at short
    refine ⟨mt, ⟨rfl, rfl, counted.treeDegree, counted.levels, counted.bounded, counted.reached, ?_, ?_⟩, .same rfl rfl⟩
    · simpa using short
    · simp only [length_append, length_singleton]
      omega

theorem Counted.foldlM {reads : List KVRead} (counted : Counted deg count helper mt)
    (added : reads.foldlM (RangeQueryResultsHelper.addResult codec) helper = .ok helper') :
    ∃ mt', Counted deg (count + reads.length) helper' mt' ∧ mt.getSummery.Grown mt'.getSummery := by
  induction reads generalizing helper mt count with
  | nil =>
    cases added
    exact ⟨mt, counted, .refl _⟩
  | cons kvRead reads ih =>
    simp only [foldlM_cons, bind_eq_ok] at added
    obtain ⟨next, first, rest⟩ := added
    obtain ⟨mt₁, counted₁, -⟩ := counted.addResult pos first
    obtain ⟨mt₂, tree₂, grown⟩ := RangeQueryResultsHelper.addResult_grown first counted.tree
    obtain rfl := some.inj (tree₂.symm.trans counted₁.tree)
    obtain ⟨mt', counted', grown'⟩ := ih counted₁ rest
    refine ⟨mt', ?_, grown.trans grown'⟩
    rwa [length_cons, show count + (reads.length + 1) = count + 1 + reads.length by omega]

theorem Counted.level_lt_iff (one : 1 ≤ level) (counted : Counted deg count helper mt) :
    level < mt.maxLevel ↔ (deg + 1) ^ (level + 1) ≤ count := by
  have total := counted.counted
  have pending := counted.pending
  have below := HashLevels.weight_lt counted.bounded
  unfold MerkleTree.maxLevel
  constructor
  · intro higher
    have nonempty : HashLevels.top mt.tree ≠ [] := by
      rcases counted.reached with single | nonempty
      · omega
      · exact nonempty
    have weight : (deg + 1) ^ level ≤ HashLevels.weight deg mt.tree := by
      rw [HashLevels.weight_eq_top deg counted.levels]
      have larger : (deg + 1) ^ level ≤ (deg + 1) ^ (mt.tree.length - 1) := Nat.pow_le_pow_right (by omega) (by omega)
      have some : (deg + 1) ^ (mt.tree.length - 1) * 1 ≤ (deg + 1) ^ (mt.tree.length - 1) * (HashLevels.top mt.tree).length :=
        Nat.mul_le_mul_left _ (length_pos_of_ne_nil nonempty)
      omega
    have scaled := Nat.mul_le_mul_right (deg + 1) weight
    rw [pow_succ]
    omega
  · intro enough
    have weight : (deg + 1) ^ level ≤ HashLevels.weight deg mt.tree := by
      by_contra small
      have scaled := Nat.mul_le_mul_right (deg + 1) (Nat.succ_le_of_lt (Nat.lt_of_not_le small))
      rw [← pow_succ, Nat.succ_mul] at scaled
      omega
    exact (Nat.pow_lt_pow_iff_right (by omega)).mp (weight.trans_lt below)

end

section

variable {old : QueryReadsMerkleSummary} {met : Nat}

def Compared (old : QueryReadsMerkleSummary) (mt : MerkleTree) (met : Nat) : Prop :=
  (mt.maxLevel < old.maxLevel ∧ met = 0) ∨ (mt.maxLevel = old.maxLevel ∧ met = (HashLevels.top mt.tree).length ∧
      HashLevels.top mt.tree <+: old.maxLevelHashes)

def Raises (codec : Codec) (old : QueryReadsMerkleSummary) (deg : Nat) (mt : MerkleTree)
    (helper : RangeQueryResultsHelper) (kvRead : KVRead) : Prop :=
  mt.getSummery = old ∧ old.maxLevelHashes.length = deg ∧
    ∃ helper' mt', helper.addResult codec kvRead = .ok helper' ∧ helper'.mt = some mt' ∧ old.maxLevel < mt'.maxLevel

theorem rangeQueryHashValidate_cons {results : List VersionedKV}
    (added : helper.addResult codec (toRead result) = .ok helper') (tree : helper'.mt = some mt') :
    rangeQueryHashValidate codec old helper met (result :: results) =
      if mt'.maxLevel < old.maxLevel then rangeQueryHashValidate codec old helper' met results
      else if met = (HashLevels.top mt'.tree).length then rangeQueryHashValidate codec old helper' met results
      else if (HashLevels.top mt'.tree).length > old.maxLevelHashes.length then .ok false
      else hashAt (HashLevels.top mt'.tree) met >>= fun built => hashAt old.maxLevelHashes met >>= fun expected =>
          if built ≠ expected then .ok false else rangeQueryHashValidate codec old helper' (met + 1) results := by
  rw [rangeQueryHashValidate, added]
  simp [bind, Except.bind, RangeQueryResultsHelper.getMerkleSummary, tree, getSummery]

/-- How the walk goes on after a result: with the next one, with a rejection, or not at all. -/
inductive Outcome (codec : Codec) (old : QueryReadsMerkleSummary) (deg : Nat) (mt mt' : MerkleTree)
    (helper helper' : RangeQueryResultsHelper) (result : VersionedKV) (results : List VersionedKV) (outcome : Result Bool) :
    Prop where
  | goesOn (met : Nat) (compared : Compared old mt' met)
      (same : outcome = rangeQueryHashValidate codec old helper' met results)
  | rejects (rejected : outcome = .ok false) (level : mt'.maxLevel = old.maxLevel)
      (differs : ¬ HashLevels.top mt'.tree <+: old.maxLevelHashes)
  | panics (raises : Raises codec old deg mt helper (toRead result))
      (failed : ∀ accepted, outcome ≠ .ok accepted)

theorem compare_next (before : List Bytes) {h : Bytes} (results : List VersionedKV)
    (added : helper.addResult codec (toRead result) = .ok helper') (tree : helper'.mt = some mt')
    (level : mt'.maxLevel = old.maxLevel) (top : HashLevels.top mt'.tree = before ++ [h])
    (part : before <+: old.maxLevelHashes) : Outcome codec old deg mt mt' helper helper' result results
      (rangeQueryHashValidate codec old helper before.length (result :: results)) := by
  rw [rangeQueryHashValidate_cons added tree, if_neg (by omega), top, length_append, length_singleton, if_neg (by omega)]
  split
  case isTrue exceeded =>
    apply Outcome.rejects rfl level
    intro whole
    have short := whole.length_le
    simp only [top, length_append, length_singleton] at short
    omega
  case isFalse within =>
    have inside : before.length < old.maxLevelHashes.length := by omega
    have built : hashAt (before ++ [h]) before.length = .ok h := by simp [hashAt]
    have expected : hashAt old.maxLevelHashes before.length = .ok old.maxLevelHashes[before.length] := by
      simp [hashAt, getElem?_eq_getElem inside]
    simp only [built, expected, bind, Except.bind]
    split
    case isTrue differs =>
      apply Outcome.rejects rfl level
      intro whole
      have found := getElem?_of_isPrefix whole (i := before.length) (a := h) (by simp [top])
      rw [getElem?_eq_getElem inside] at found
      exact differs (some.inj found).symm
    case isFalse equal =>
      push Not at equal
      apply Outcome.goesOn (before.length + 1) _ rfl
      right
      rw [top]
      refine ⟨level, by simp, ?_⟩
      apply concat_isPrefix part
      rw [getElem?_eq_getElem inside, equal]

theorem Compared.step (large : 2 ≤ deg) (fits : old.maxLevelHashes.length ≤ deg)
    (degree : old.maxDegree = deg) (counted : Counted deg count helper mt) (compared : Compared old mt met) (results : List VersionedKV)
    (added : helper.addResult codec (toRead result) = .ok helper') (tree : helper'.mt = some mt')
    (step : TopStep deg mt mt') : Outcome codec old deg mt mt' helper helper' result results
      (rangeQueryHashValidate codec old helper met (result :: results)) := by
  have stay (level : mt'.maxLevel = mt.maxLevel) (below : mt.maxLevel < old.maxLevel) (zero : met = 0) :
      Outcome codec old deg mt mt' helper helper' result results
        (rangeQueryHashValidate codec old helper met (result :: results)) := by
    apply Outcome.goesOn met (.inl ⟨by omega, zero⟩)
    rw [rangeQueryHashValidate_cons added tree, if_pos (by omega)]
  cases step with
  | same level top =>
    rcases compared with ⟨below, zero⟩ | ⟨reached, all, part⟩
    · exact stay level below zero
    · apply Outcome.goesOn met (.inr ⟨by omega, by rw [top, all], by rwa [top]⟩)
      rw [rangeQueryHashValidate_cons added tree, if_neg (by omega), if_pos (by rw [top, all])]
  | appended h level top =>
    rcases compared with ⟨below, zero⟩ | ⟨reached, rfl, part⟩
    · exact stay level below zero
    · exact compare_next _ results added tree (by omega) top part
  | raised h level full top =>
    rcases compared with ⟨below, rfl⟩ | ⟨reached, rfl, part⟩
    · by_cases under : mt'.maxLevel < old.maxLevel
      · apply Outcome.goesOn 0 (.inl ⟨under, rfl⟩)
        rw [rangeQueryHashValidate_cons added tree, if_pos under]
      · exact compare_next [] results added tree (by omega) top nil_prefix
    · -- The full top level was matched as a whole, and the next comparison looks behind the one hash of the new level.
      have whole : HashLevels.top mt.tree = old.maxLevelHashes := part.eq_of_length_le (by omega)
      apply Outcome.panics
      · refine ⟨?_, by rw [← whole, full], helper', mt', added, tree, by omega⟩
        obtain ⟨_, _, _⟩ := old
        simp_all [getSummery, counted.treeDegree]
      · intro accepted
        have short : (HashLevels.top mt'.tree).length = 1 := by simp [top]
        obtain ⟨failure, beyond⟩ : ∃ failure, hashAt (HashLevels.top mt'.tree) (HashLevels.top mt.tree).length = .error failure := by
          unfold hashAt
          rw [List.getElem?_eq_none (by omega)]
          exact ⟨_, rfl⟩
        rw [rangeQueryHashValidate_cons added tree, if_neg (by omega), if_neg (by omega), if_neg (by rw [← whole]; omega), beyond]
        simp [bind, Except.bind]

section

variable (large : 2 ≤ deg) (fits : old.maxLevelHashes.length ≤ deg)
  (degree : old.maxDegree = deg)

include large fits degree

theorem Compared.walk {part : List VersionedKV} (rest : List VersionedKV) (counted : Counted deg count helper mt)
    (compared : Compared old mt met) (added : (part.map toRead).foldlM (RangeQueryResultsHelper.addResult codec) helper = .ok helper')
    (tree : helper'.mt = some mt') (within : mt'.getSummery.Grown old) :
    ∃ met', Compared old mt' met' ∧ rangeQueryHashValidate codec old helper met (part ++ rest) =
      rangeQueryHashValidate codec old helper' met' rest := by
  induction part generalizing helper mt met count with
  | nil =>
    cases added
    obtain rfl := some.inj (counted.tree.symm.trans tree)
    exact ⟨met, compared, rfl⟩
  | cons result part ih =>
    simp only [map_cons, foldlM_cons, bind_eq_ok] at added
    obtain ⟨next, first, later⟩ := added
    obtain ⟨mt₁, counted₁, step⟩ := counted.addResult (by omega) first
    obtain ⟨mt₂, counted₂, grown⟩ := counted₁.foldlM (by omega) later
    obtain rfl := some.inj (counted₂.tree.symm.trans tree)
    obtain ⟨-, inside⟩ := grown.trans within
    cases compared.step large fits degree counted (part ++ rest) first counted₁.tree step with
    | goesOn met' compared' same =>
      obtain ⟨met'', final, walked⟩ := ih counted₁ compared' later
      exact ⟨met'', final, same.trans walked⟩
    | rejects rejected level differs =>
      simp only [getSummery] at inside
      rcases inside with higher | ⟨_, top⟩
      · omega
      · exact absurd top differs
    | panics raises failed =>
      obtain ⟨-, -, helper₂, mt₂, again, tree₂, higher⟩ := raises
      obtain rfl := ok.inj (first.symm.trans again)
      obtain rfl := some.inj (counted₁.tree.symm.trans tree₂)
      simp only [getSummery] at inside
      omega

theorem Compared.answers (total : codec.Total) (results : List VersionedKV) (counted : Counted deg count helper mt)
    (compared : Compared old mt met) : (∃ accepted, rangeQueryHashValidate codec old helper met results = .ok accepted) ∨
      ∃ part result rest helper' mt', results = part ++ result :: rest ∧
        (part.map toRead).foldlM (RangeQueryResultsHelper.addResult codec) helper = .ok helper' ∧
        helper'.mt = some mt' ∧ Raises codec old deg mt' helper' (toRead result) := by
  induction results generalizing helper mt met count with
  | nil =>
    obtain ⟨out, finished⟩ := RangeQueryResultsHelper.done_total total helper
    left
    exact ⟨_, by rw [rangeQueryHashValidate, finished]; rfl⟩
  | cons result results ih =>
    obtain ⟨helper₁, first⟩ := RangeQueryResultsHelper.addResult_total total helper (toRead result)
    obtain ⟨mt₁, counted₁, step⟩ := counted.addResult (by omega) first
    cases compared.step large fits degree counted results first counted₁.tree step with
    | goesOn met' compared' same =>
      rcases ih counted₁ compared' with ⟨accepted, answer⟩ | ⟨part, later, rest, helper', mt', split, added, tree, raises⟩
      · exact .inl ⟨accepted, same.trans answer⟩
      · right
        refine ⟨result :: part, later, rest, helper', mt', by rw [split, cons_append], ?_, tree, raises⟩
        simp only [map_cons, foldlM_cons, first, bind, Except.bind]
        exact added
    | rejects rejected => exact .inl ⟨false, rejected⟩
    | panics raises => exact .inr ⟨[], result, results, helper, mt, rfl, rfl, counted.tree, raises⟩

end

end

theorem Counted.full_level (codec : Codec) (pos : 1 ≤ deg) (one : 1 ≤ level) (counted : Counted deg (deg * (deg + 1) ^ level) helper mt) :
    mt.maxLevel = level ∧ (HashLevels.top mt.tree).length = deg ∧ helper.done codec = .ok ([], some mt.getSummery) := by
  obtain ⟨below, rfl⟩ : ∃ below, level = below + 1 := ⟨level - 1, by omega⟩
  have larger : deg * (deg + 1) ^ (below + 1) < (deg + 1) ^ (below + 1 + 1) := by
    rw [pow_succ' _ (below + 1)]
    exact Nat.mul_lt_mul_of_pos_right (by omega) (by positivity)
  have notHigher : ¬ below + 1 < mt.maxLevel := by
    rw [counted.level_lt_iff pos one]
    omega
  have reached : below < mt.maxLevel := by
    rcases Nat.eq_zero_or_pos below with rfl | under
    · exact length_pos_of_ne_nil counted.levels
    · rw [counted.level_lt_iff pos under]
      exact Nat.le_mul_of_pos_left _ pos
  have height : mt.tree.length = below + 1 := by
    unfold MerkleTree.maxLevel at notHigher reached
    omega
  have pending := counted.pending
  have total := counted.counted
  rw [pow_succ, ← mul_assoc] at total
  obtain ⟨weight, nothing⟩ : HashLevels.weight deg mt.tree = deg * (deg + 1) ^ below ∧ helper.pendingResults.length = 0 := by
    have same := congrArg (· % (deg + 1)) total
    simp only [Nat.mul_add_mod_self_right, Nat.mul_mod_left, Nat.mod_eq_of_lt (Nat.lt_succ_of_le pending)] at same
    refine ⟨?_, same⟩
    rw [same, add_zero] at total
    exact Nat.eq_of_mul_eq_mul_right (Nat.succ_pos _) total
  have split := HashLevels.weight_eq_top deg counted.levels
  rw [height, Nat.add_sub_cancel, weight] at split
  have lower : HashLevels.weight deg mt.tree.dropLast < (deg + 1) ^ below := by
    have bound := HashLevels.weight_lt (fun l mem => counted.bounded l (mem_of_mem_dropLast mem))
    rwa [length_dropLast, height, Nat.add_sub_cancel] at bound
  have top : (HashLevels.top mt.tree).length = deg := by
    have quotient := congrArg (· / (deg + 1) ^ below) split
    simp only [Nat.add_mul_div_left _ _ (Nat.pow_pos (Nat.succ_pos deg)), Nat.div_eq_of_lt lower, zero_add,
      Nat.mul_div_cancel _ (Nat.pow_pos (Nat.succ_pos deg))] at quotient
    exact quotient.symm
  have settled : ∀ l ∈ mt.tree.dropLast, l = [] := by
    apply HashLevels.nil_of_weight_eq_zero deg
    rw [top, mul_comm] at split
    omega
  refine ⟨height, top, ?_⟩
  have filled : mt.isEmpty = false := by
    have nonempty : HashLevels.top mt.tree ≠ [] := ne_nil_of_length_pos (by omega)
    simp [MerkleTree.isEmpty, nonempty]
  have complete : mt.done codec = .ok mt := by
    unfold MerkleTree.done
    rw [counted.treeDegree, HashLevels.complete_of_settled settled top.le]
    obtain ⟨tree, degree⟩ := mt
    obtain rfl : degree = deg := counted.treeDegree
    rfl
  simp [RangeQueryResultsHelper.done, counted.tree, filled, length_eq_zero_iff.mp nothing, bind, Except.bind, complete]

/-- The re-scan starts with results that have the recorded summary, whose top level is full, and goes on with as many
as raise the tree by a level. -/
def Outgrows (codec : Codec) (helper : RangeQueryResultsHelper) (old : QueryReadsMerkleSummary)
    (rescan : List VersionedKV) : Prop :=
  let base := old.maxDegree + 1
  old.maxLevelHashes.length = old.maxDegree ∧ base ^ (old.maxLevel + 1) ≤ rescan.length ∧
    helper.summarize codec ((rescan.take (old.maxDegree * base ^ old.maxLevel)).map toRead) = .ok ([], some old)

section

variable {old : QueryReadsMerkleSummary}

theorem Counted.done_fits (large : 2 ≤ deg) {pending : List KVRead} (counted : Counted deg count helper mt)
    (finished : helper.done codec = .ok (pending, some old)) : old.maxDegree = deg ∧ 1 ≤ old.maxLevel ∧
      old.maxLevelHashes.length ≤ deg := by
  obtain ⟨degree, grown⟩ := RangeQueryResultsHelper.done_grown finished counted.tree
  have level : 1 ≤ mt.getSummery.maxLevel := length_pos_of_ne_nil counted.levels
  refine ⟨degree.symm.trans counted.treeDegree, by omega, ?_⟩
  simp only [RangeQueryResultsHelper.done, counted.tree] at finished
  split at finished
  case isTrue => cases finished
  case isFalse =>
    simp only [bind_eq_ok, ok.injEq, Prod.mk.injEq, some.injEq] at finished
    obtain ⟨processed, taken, completed, last, -, rfl⟩ := finished
    have tree : processed.maxDegree = deg ∧ processed.tree ≠ [] := by
      split at taken
      case isTrue =>
        cases taken
        exact ⟨counted.treeDegree, counted.levels⟩
      case isFalse =>
        simp only [RangeQueryResultsHelper.processPendingResults, bind_eq_ok] at taken
        obtain ⟨_, _, _, _, updated⟩ := taken
        obtain ⟨-, degree, levels, -⟩ := counted.update (by omega) updated
        exact ⟨degree, levels⟩
    simp only [MerkleTree.done, bind_eq_ok, ok.injEq] at last
    obtain ⟨levels, done, rfl⟩ := last
    rw [tree.1] at done
    exact HashLevels.complete_top_le (by omega) done

theorem getSummery_of_grown (first : Counted deg (deg * (deg + 1) ^ level) helper mt)
    (second : Counted deg count helper' mt') (grown : mt.getSummery.Grown mt'.getSummery)
    (full : (HashLevels.top mt.tree).length = deg) (same : mt'.maxLevel = mt.maxLevel) : mt'.getSummery = mt.getSummery := by
  obtain ⟨-, higher | ⟨-, top⟩⟩ := grown
  · simp only [getSummery] at higher
    omega
  · have bound : (HashLevels.top mt'.tree).length ≤ deg := by
      apply second.bounded
      simp only [HashLevels.top, getLastD_eq_getLast?, getLast?_eq_some_getLast second.levels, getD_some]
      exact getLast_mem second.levels
    simp only [getSummery] at top
    have equal : HashLevels.top mt.tree = HashLevels.top mt'.tree := top.eq_of_length_le (by omega)
    simp [getSummery, first.treeDegree, second.treeDegree, same, equal]

variable (total : codec.Total)

include total in
theorem foldlM_total (reads : List KVRead) (helper : RangeQueryResultsHelper) :
    ∃ helper', reads.foldlM (RangeQueryResultsHelper.addResult codec) helper = .ok helper' := by
  induction reads generalizing helper with
  | nil => exact ⟨helper, rfl⟩
  | cons kvRead reads ih =>
    obtain ⟨next, first⟩ := RangeQueryResultsHelper.addResult_total total helper kvRead
    obtain ⟨last, rest⟩ := ih next
    exact ⟨last, by simp only [foldlM_cons, first, bind, Except.bind]; exact rest⟩

theorem no_answer_of_outgrows (total : codec.Total) (large : 2 ≤ deg) (counted : Counted deg 0 helper mt)
    (degree : old.maxDegree = deg) (one : 1 ≤ old.maxLevel)
    (fits : old.maxLevelHashes.length ≤ deg) (compared : Compared old mt 0) {rescan : List VersionedKV}
    (outgrows : Outgrows codec helper old rescan) (accepted : Bool) : rangeQueryHashValidate codec old helper 0 rescan ≠ .ok accepted := by
  obtain ⟨-, long, summarized⟩ := outgrows
  rw [degree] at long summarized
  generalize atLevel : old.maxLevel = level at one long summarized
  have power : deg * (deg + 1) ^ level < (deg + 1) ^ (level + 1) := by
    rw [pow_succ']
    exact Nat.mul_lt_mul_of_pos_right (by omega) (by positivity)
  obtain ⟨reached, result, rest, rfl, number⟩ : ∃ reached result rest, rescan = reached ++ result :: rest ∧
      reached.length + 1 = (deg + 1) ^ (level + 1) := by
    have inside : (deg + 1) ^ (level + 1) - 1 < rescan.length := by omega
    refine ⟨rescan.take ((deg + 1) ^ (level + 1) - 1), rescan[(deg + 1) ^ (level + 1) - 1],
      rescan.drop ((deg + 1) ^ (level + 1) - 1 + 1), ?_, ?_⟩
    · rw [← drop_eq_getElem_cons inside, take_append_drop]
    · rw [length_take]
      omega
  rw [take_append_of_le_length (by omega)] at summarized
  obtain ⟨first, firstAdded⟩ := foldlM_total total
    ((reached.take (deg * (deg + 1) ^ level)).map toRead) helper
  obtain ⟨last, lastAdded⟩ := foldlM_total total
    ((reached.drop (deg * (deg + 1) ^ level)).map toRead) first
  obtain ⟨mtFirst, countedFirst, -⟩ := counted.foldlM (by omega) firstAdded
  rw [length_map, length_take, Nat.min_eq_left (by omega), zero_add] at countedFirst
  obtain ⟨mtLast, countedLast, grown⟩ := countedFirst.foldlM (by omega) lastAdded
  rw [length_map, length_drop, Nat.add_sub_cancel' (by omega)] at countedLast
  obtain ⟨height, full, done⟩ := countedFirst.full_level codec (by omega) one
  obtain rfl : mtFirst.getSummery = old := by
    rw [summarize, firstAdded] at summarized
    have same := done.symm.trans summarized
    simpa using same
  have stays : mtLast.maxLevel = mtFirst.maxLevel := by
    have notHigher : ¬ level < mtLast.maxLevel := by
      rw [countedLast.level_lt_iff (by omega) one]
      omega
    obtain ⟨-, higher | ⟨same, -⟩⟩ := grown
    · simp only [getSummery] at higher
      omega
    · exact same.symm
  have within : mtLast.getSummery.Grown mtFirst.getSummery := by
    rw [getSummery_of_grown countedFirst countedLast grown full stays]
    exact .refl _
  have added : (reached.map toRead).foldlM (RangeQueryResultsHelper.addResult codec) helper = .ok last := by
    rw [← take_append_drop (deg * (deg + 1) ^ level) reached, map_append, foldlM_append, firstAdded]
    exact lastAdded
  obtain ⟨met, comparedLast, walked⟩ :=
    compared.walk large fits degree (result :: rest) counted added countedLast.tree within
  rw [walked]
  obtain ⟨final, finalAdded⟩ := RangeQueryResultsHelper.addResult_total total last (toRead result)
  obtain ⟨mtFinal, countedFinal, step⟩ := countedLast.addResult (by omega) finalAdded
  have raised : level < mtFinal.maxLevel := by
    rw [countedFinal.level_lt_iff (by omega) one]
    omega
  cases comparedLast.step large fits degree countedLast rest finalAdded countedFinal.tree step with
  | goesOn met' compared' same => rcases compared' with ⟨below, -⟩ | ⟨equal, -⟩ <;> omega
  | rejects rejected equal differs => omega
  | panics raises failed => exact failed accepted

theorem outgrows_of_raises (large : 2 ≤ deg) (counted : Counted deg 0 helper mt)
    (degree : old.maxDegree = deg) (one : 1 ≤ old.maxLevel) {part : List VersionedKV} (rest : List VersionedKV)
    (added : (part.map toRead).foldlM (RangeQueryResultsHelper.addResult codec) helper = .ok helper')
    (tree : helper'.mt = some mt') (raises : Raises codec old deg mt' helper' (toRead result)) :
    Outgrows codec helper old (part ++ result :: rest) := by
  obtain ⟨rfl, full, next, mtNext, nextAdded, nextTree, raised⟩ := raises
  simp only [getSummery] at degree one full raised
  obtain ⟨mtPart, countedPart, -⟩ := counted.foldlM (by omega) added
  obtain rfl := some.inj (countedPart.tree.symm.trans tree)
  obtain ⟨mtRaised, countedNext, -⟩ := countedPart.addResult (by omega) nextAdded
  obtain rfl := some.inj (countedNext.tree.symm.trans nextTree)
  rw [length_map, zero_add] at countedPart countedNext
  rw [countedNext.level_lt_iff (by omega) one] at raised
  have before : ¬ (deg + 1) ^ (mtPart.maxLevel + 1) ≤ part.length := by
    rw [← countedPart.level_lt_iff (by omega) one]
    omega
  have power : deg * (deg + 1) ^ mtPart.maxLevel < (deg + 1) ^ (mtPart.maxLevel + 1) := by
    rw [pow_succ']
    exact Nat.mul_lt_mul_of_pos_right (by omega) (by positivity)
  rw [← take_append_drop (deg * (deg + 1) ^ mtPart.maxLevel) part, map_append, foldlM_append, bind_eq_ok] at added
  obtain ⟨first, firstAdded, lastAdded⟩ := added
  obtain ⟨mtFirst, countedFirst, -⟩ := counted.foldlM (by omega) firstAdded
  rw [length_map, length_take, Nat.min_eq_left (by omega), zero_add] at countedFirst
  obtain ⟨mtLast, countedLast, grown⟩ := countedFirst.foldlM (by omega) lastAdded
  obtain rfl := some.inj (countedLast.tree.symm.trans tree)
  obtain ⟨height, firstFull, done⟩ := countedFirst.full_level codec (by omega) one
  have same := getSummery_of_grown countedFirst countedLast grown firstFull height.symm
  unfold Outgrows
  simp only [getSummery, degree]
  refine ⟨full, by rw [length_append, length_cons]; omega, ?_⟩
  rw [take_append_of_le_length (by omega), summarize, firstAdded]
  rw [← same, getSummery, degree] at done
  exact done

/-- The comparison with a recorded summary has an answer, and the right one, exactly when the re-scan does not outgrow
the summary. -/
theorem rangeQueryHashValidate_exact_iff (total : codec.Total)
    (created : newRangeQueryResultsHelper true deg = .ok helper) {simulated pending : List KVRead}
    (summarized : helper.summarize codec simulated = .ok (pending, some old)) (rescan : List VersionedKV) :
    (∃ accepted, rangeQueryHashValidate codec old helper 0 rescan = .ok accepted ∧
      (accepted = true ↔ ∃ pending, helper.summarize codec (rescan.map VersionedKV.toRead) = .ok (pending, some old))) ↔
      ¬ Outgrows codec helper old rescan := by
  obtain ⟨large, counted⟩ := Counted.initial created
  obtain ⟨degree, one, fits⟩ : old.maxDegree = deg ∧ 1 ≤ old.maxLevel ∧ old.maxLevelHashes.length ≤ deg := by
    rw [summarize, bind_eq_ok] at summarized
    obtain ⟨last, added, finished⟩ := summarized
    obtain ⟨mt', countedLast, -⟩ := counted.foldlM (by omega) added
    exact countedLast.done_fits large finished
  have compared : Compared old ⟨[[]], deg⟩ 0 := by
    rcases Nat.lt_or_eq_of_le one with below | level
    · exact .inl ⟨below, rfl⟩
    · exact .inr ⟨level, rfl, nil_prefix⟩
  constructor
  · rintro ⟨accepted, answer, -⟩ outgrows
    exact no_answer_of_outgrows total large counted degree one fits compared outgrows accepted answer
  · intro contained
    rcases compared.answers large fits degree total rescan counted with
      ⟨accepted, answer⟩ | ⟨part, result, rest, last, mtLast, rfl, added, tree, raises⟩
    · refine ⟨accepted, answer, ?_⟩
      constructor
      · rintro rfl
        exact summarize_of_rangeQueryHashValidate answer
      · rintro ⟨pending, same⟩
        have accepts := rangeQueryHashValidate_of_summarize counted.tree (.inl rfl) same
        exact ok.inj (answer.symm.trans accepts)
    · exact absurd (outgrows_of_raises large counted degree one rest added tree raises) contained

end

def numbered (n : Nat) : List VersionedKV := (List.range n).map fun i => ([i.toUInt8], ⟨some [1], none, ⟨1, i⟩⟩)

def sixResults : QueryReadsMerkleSummary := ⟨2, 1, [[104, 0, 1, 2], [104, 3, 4, 5]]⟩

theorem sixResults_summarized : summarize .plain ⟨[], some ⟨[[]], 2⟩, 2⟩ ((numbered 6).map toRead) =
      .ok ([], some sixResults) := by decide +kernel

theorem eightResults_exact : newRangeQueryResultsHelper true 2 = .ok ⟨[], some ⟨[[]], 2⟩, 2⟩ ∧
    ∃ accepted, rangeQueryHashValidate .plain sixResults ⟨[], some ⟨[[]], 2⟩, 2⟩ 0 (numbered 8) = .ok accepted ∧
      (accepted = true ↔ ∃ pending, RangeQueryResultsHelper.summarize .plain ⟨[], some ⟨[[]], 2⟩, 2⟩
        ((numbered 8).map VersionedKV.toRead) = .ok (pending, some sixResults)) := by
  have created : newRangeQueryResultsHelper true 2 = .ok ⟨[], some ⟨[[]], 2⟩, 2⟩ := rfl
  refine ⟨created, (rangeQueryHashValidate_exact_iff Codec.plain_total created sixResults_summarized (numbered 8)).mpr ?_⟩
  rintro ⟨-, long, -⟩
  revert long
  decide

/-- With the ninth result the tree gets a second level of one hash, and the comparison looks for the third. -/
theorem nineResults_panics :
    RangeQueryResultsHelper.summarize .plain ⟨[], some ⟨[[]], 2⟩, 2⟩ ((numbered 6).map VersionedKV.toRead) =
        .ok ([], some sixResults) ∧
      rangeQueryHashValidate .plain sixResults ⟨[], some ⟨[[]], 2⟩, 2⟩ 0 (numbered 9) =
        .error (.panic "runtime error: index out of range [2] with length 1") := by decide +kernel

end Fabric.Proof.Validation
