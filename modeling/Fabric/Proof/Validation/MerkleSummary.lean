import Fabric.Ledger.RangeQueryResults

/-! # The Merkle summary stands for the results -/

namespace Fabric.Proof.Validation

open Lib Fabric.Ledger List Option
open RangeQueryResultsHelper (Fed)
open HashLevels (top)

variable (codec : Codec)
  {mt : MerkleTree} {raw : List KVRead} {summary : Option QueryReadsMerkleSummary} {hashes : List Bytes}

def IsDigest (h : Bytes) : Prop := ∃ b, codec.hashFunc b = .ok h

def LeafHash (h : Bytes) (kvReads : List KVRead) : Prop :=
  ∃ b, codec.serializeKVReads kvReads = .ok b ∧ codec.hashFunc b = .ok h

-- Lists of digests can be separated because all digests have the same length.
structure Unambiguous : Prop where
  hash_injective : ∀ a b h, codec.hashFunc a = .ok h → codec.hashFunc b = .ok h → a = b
  serialize_injective : ∀ kvReads kvReads' b, codec.serializeKVReads kvReads = .ok b →
    codec.serializeKVReads kvReads' = .ok b → kvReads = kvReads'
  digests_separate : ∀ xs ys : List Bytes, (∀ h ∈ xs ++ ys, IsDigest codec h) → xs.flatten = ys.flatten → xs = ys
  not_confusable : ∀ kvReads b (xs : List Bytes), codec.serializeKVReads kvReads = .ok b → 2 ≤ xs.length →
    (∀ h ∈ xs, IsDigest codec h) → b ≠ xs.flatten

abbrev Stands : List Bytes → List KVRead → Prop := HashLevels.Expands (computeCombinedHash codec) (LeafHash codec)

def Reproduces (stream : List KVRead) (helper : RangeQueryResultsHelper) : Prop :=
  ∃ hashed, Stands codec (HashLevels.hashes ((helper.mt.map MerkleTree.tree).getD [])) hashed ∧
    stream = hashed ++ helper.pendingResults

variable {codec}

theorem processPendingResults_stands {helper : RangeQueryResultsHelper} {mt' : MerkleTree} {hashed : List KVRead}
    (degree : 1 ≤ mt.maxDegree) (tree : Stands codec (HashLevels.hashes mt.tree) hashed)
    (processed : helper.processPendingResults codec mt = .ok mt') :
    mt'.maxDegree = mt.maxDegree ∧ Stands codec (HashLevels.hashes mt'.tree) (hashed ++ helper.pendingResults) := by
  simp only [RangeQueryResultsHelper.processPendingResults, MerkleTree.update, bind_eq_ok, ok.injEq] at processed
  obtain ⟨b, serialized, h, isHash, levels, pushed, rfl⟩ := processed
  have leaf : Stands codec [h] (helper.pendingResults ++ []) := .leaf ⟨b, serialized, isHash⟩ .nil
  rw [append_nil] at leaf
  exact ⟨rfl, HashLevels.push_expands degree tree leaf pushed⟩

section

variable {hashOn : Bool} {deg : Nat} {stream : List KVRead} {helper helper₀ : RangeQueryResultsHelper}

theorem Reproduces.addResult {helper' : RangeQueryResultsHelper} {kvRead : KVRead} (fed : Fed hashOn deg stream helper) (degree : 1 ≤ deg)
    (kept : Reproduces codec stream helper) (added : helper.addResult codec kvRead = .ok helper') :
    Reproduces codec (stream ++ [kvRead]) helper' := by
  obtain ⟨hashed, tree, rfl⟩ := kept
  unfold RangeQueryResultsHelper.addResult at added
  cases hashing : helper.mt with
  | none =>
    simp only [hashing, ok.injEq] at added
    subst added
    exact ⟨hashed, by simpa [hashing] using tree, append_assoc _ _ _⟩
  | some mt =>
    simp only [hashing, map_some, getD_some] at added tree
    split at added
    · simp only [bind_eq_ok, ok.injEq] at added
      obtain ⟨mt', processed, rfl⟩ := added
      obtain ⟨_, tree'⟩ := processPendingResults_stands (by rw [(fed.trees mt hashing).1]; exact degree) tree processed
      exact ⟨_, tree', by simp⟩
    · cases added
      exact ⟨hashed, tree, append_assoc _ _ _⟩

theorem reproduces_of_foldlM (degree : 1 ≤ deg) (created : newRangeQueryResultsHelper hashOn deg = .ok helper₀)
    (run : stream.foldlM (RangeQueryResultsHelper.addResult codec) helper₀ = .ok helper) :
    Fed hashOn deg stream helper ∧ Reproduces codec stream helper := by
  refine foldlM_invariant (fun done helper => Fed hashOn deg done helper ∧ Reproduces codec done helper) run ⟨.initial created, [], ?_⟩ ?_
  · cases hashOn with
    | false =>
      cases created
      exact ⟨.nil, rfl⟩
    | true =>
      obtain ⟨_, rfl⟩ := newRangeQueryResultsHelper_hashing created
      exact ⟨.nil, rfl⟩
  · rintro done kvRead a b _ ⟨fed, kept⟩ added
    exact ⟨fed.addResult added, kept.addResult fed degree added⟩

theorem tree_of_isEmpty (empty : mt.isEmpty = true) : mt.tree = [[]] := by
  obtain ⟨tree, degree⟩ := mt
  match tree with
  | [] | _ :: _ :: _ => simp [MerkleTree.isEmpty, MerkleTree.maxLevel] at empty
  | [level] => simpa [MerkleTree.isEmpty, MerkleTree.maxLevel, top] using empty

theorem Reproduces.afterDone {after : RangeQueryResultsHelper} (fed : Fed hashOn deg stream helper) (degree : 1 ≤ deg)
    (kept : Reproduces codec stream helper) (finished : helper.afterDone codec = .ok after) :
    Reproduces codec stream after ∧ ∀ mt, after.mt = some mt → HashLevels.Bounded deg mt.tree ∧
      HashLevels.hashes mt.tree = top mt.tree := by
  unfold RangeQueryResultsHelper.afterDone at finished
  cases hashing : helper.mt with
  | none =>
    simp only [hashing, ok.injEq] at finished
    subst finished
    exact ⟨kept, by simp [hashing]⟩
  | some mt =>
    simp only [hashing] at finished
    split at finished
    · rename_i empty
      cases finished
      refine ⟨kept, fun mt' found => ?_⟩
      cases hashing.symm.trans found
      rw [tree_of_isEmpty empty]
      exact ⟨by simp [HashLevels.Bounded], rfl⟩
    · obtain ⟨hashed, tree, rfl⟩ := kept
      obtain ⟨isDegree, levels⟩ := fed.trees mt hashing
      rw [← isDegree] at degree ⊢
      simp only [bind_eq_ok, ok.injEq, MerkleTree.done] at finished
      obtain ⟨mt', taken, _, ⟨levels', completed, rfl⟩, rfl⟩ := finished
      simp only [hashing, map_some, getD_some] at tree
      have processed : mt'.maxDegree = mt.maxDegree ∧ mt'.tree ≠ [] ∧
          Stands codec (HashLevels.hashes mt'.tree) (hashed ++ helper.pendingResults) := by
        split at taken
        · rename_i nothing
          cases taken
          rw [List.isEmpty_iff.mp nothing, append_nil]
          exact ⟨rfl, ne_nil_of_length_pos levels, tree⟩
        · obtain ⟨sameDegree, tree'⟩ := processPendingResults_stands degree tree taken
          refine ⟨sameDegree, ne_nil_of_length_pos ?_, tree'⟩
          rcases (RangeQueryResultsHelper.processPendingResults_grown taken).2 with higher | ⟨same, _⟩
          · exact levels.trans higher
          · exact levels.trans_eq same
      obtain ⟨sameDegree, nonempty, tree'⟩ := processed
      rw [← sameDegree] at degree ⊢
      have whole := HashLevels.complete_expands degree nonempty (by simpa using tree') completed
      refine ⟨⟨_, whole, by simp⟩, ?_⟩
      rintro _ ⟨⟩
      exact ⟨HashLevels.complete_bounded degree completed, HashLevels.complete_hashes completed⟩

theorem exists_afterDone (finished : helper.done codec = .ok (raw, summary)) :
    ∃ after, helper.afterDone codec = .ok after ∧ raw = after.pendingResults ∧
      (summary.map (·.maxLevelHashes)).getD [] = top ((after.mt.map MerkleTree.tree).getD []) := by
  unfold RangeQueryResultsHelper.done at finished
  unfold RangeQueryResultsHelper.afterDone
  cases hashing : helper.mt with
  | none =>
    simp only [hashing, ok.injEq, Prod.mk.injEq] at finished
    exact ⟨helper, rfl, finished.1.symm, by rw [← finished.2, hashing]; rfl⟩
  | some mt =>
    simp only [hashing] at finished ⊢
    split at finished
    · rename_i empty
      cases finished
      exact ⟨helper, by rw [if_pos empty], rfl, by simp [hashing, tree_of_isEmpty empty, top]⟩
    · rename_i some
      simp only [bind_eq_ok, ok.injEq, Prod.mk.injEq] at finished
      obtain ⟨mt', taken, mt'', done, rfl, rfl⟩ := finished
      refine ⟨{ helper with pendingResults := [], mt := .some mt'' }, ?_, rfl, rfl⟩
      rw [if_neg some, taken]
      simp [bind, Except.bind, done]

theorem stands_of_done (fed : Fed hashOn deg stream helper)
    (degree : 1 ≤ deg) (kept : Reproduces codec stream helper) (finished : helper.done codec = .ok (raw, summary)) :
    ∃ hashed, Stands codec ((summary.map (·.maxLevelHashes)).getD []) hashed ∧ stream = hashed ++ raw := by
  obtain ⟨after, done, rfl, hashes⟩ := exists_afterDone finished
  obtain ⟨⟨hashed, tree, split⟩, settled⟩ := kept.afterDone fed degree done
  refine ⟨hashed, ?_, split⟩
  rw [hashes]
  cases hashing : after.mt with
  | none => simpa [hashing, HashLevels.hashes, top] using tree
  | some mt =>
    simp only [hashing, map_some, getD_some] at tree ⊢
    rwa [← (settled mt hashing).2]

end

theorem Unambiguous.isDigest {kvReads : List KVRead} (stands : Stands codec hashes kvReads) : ∀ h ∈ hashes, IsDigest codec h := by
  induction stands with
  | nil => simp
  | leaf isLeaf _ ih =>
    obtain ⟨b, _, isHash⟩ := isLeaf
    exact forall_mem_cons.mpr ⟨⟨b, isHash⟩, ih⟩
  | node combined _ _ _ _ ih => exact forall_mem_cons.mpr ⟨⟨_, combined⟩, ih⟩

theorem Unambiguous.stands_unique (laws : Unambiguous codec) {a b : List KVRead} (first : Stands codec hashes a)
    (second : Stands codec hashes b) : a = b := by
  refine HashLevels.Expands.unique ?_ ?_ ?_ first second
  · rintro h a b ⟨x, serialized, hashed⟩ ⟨y, serialized', hashed'⟩
    obtain rfl := laws.hash_injective _ _ _ hashed hashed'
    exact laws.serialize_injective _ _ _ serialized serialized'
  · rintro h a xs b ⟨x, serialized, hashed⟩ combined several inside
    exact laws.not_confusable _ _ _ serialized several (isDigest inside) (laws.hash_injective _ _ _ hashed combined)
  · intro h xs ys a b combined combined' inside inside'
    exact laws.digests_separate _ _ (forall_mem_append.mpr ⟨isDigest inside, isDigest inside'⟩)
      (laws.hash_injective _ _ _ combined combined')

/-- The helper keeps the whole stream, and its summary tells streams apart. -/
theorem merkleSummary_sound (codec : Codec) (hashOn : Bool) (deg : Nat) (degree : 2 ≤ deg) :
    ∃ helper₀, newRangeQueryResultsHelper hashOn deg = .ok helper₀ ∧
      (∀ stream helper, stream.foldlM (RangeQueryResultsHelper.addResult codec) helper₀ = .ok helper →
        Reproduces codec stream helper ∧ ∀ after, helper.afterDone codec = .ok after →
          Reproduces codec stream after ∧ ∀ mt, after.mt = some mt → ∀ level ∈ mt.tree, level.length ≤ deg) ∧
      (Unambiguous codec → ∀ stream stream' out, helper₀.summarize codec stream = .ok out →
        helper₀.summarize codec stream' = .ok out → stream = stream') := by
  have created : ∃ helper₀, newRangeQueryResultsHelper hashOn deg = .ok helper₀ := by
    cases hashOn <;> simp [newRangeQueryResultsHelper, newMerkleTree, Nat.not_lt.mpr degree, bind, Except.bind]
  obtain ⟨helper₀, created⟩ := created
  refine ⟨helper₀, created, fun stream helper run => ?_, fun laws stream stream' out first second => ?_⟩
  · obtain ⟨fed, kept⟩ := reproduces_of_foldlM (by omega) created run
    refine ⟨kept, fun after finished => ?_⟩
    obtain ⟨again, settled⟩ := kept.afterDone fed (by omega) finished
    exact ⟨again, fun mt found => (settled mt found).1⟩
  · obtain ⟨raw, summary⟩ := out
    simp only [RangeQueryResultsHelper.summarize, bind_eq_ok] at first second
    obtain ⟨helper, run, finished⟩ := first
    obtain ⟨helper', run', finished'⟩ := second
    obtain ⟨fed, kept⟩ := reproduces_of_foldlM (by omega) created run
    obtain ⟨fed', kept'⟩ := reproduces_of_foldlM (by omega) created run'
    obtain ⟨hashed, stands, rfl⟩ := stands_of_done fed (by omega) kept finished
    obtain ⟨hashed', stands', rfl⟩ := stands_of_done fed' (by omega) kept' finished'
    rw [laws.stands_unique stands stands']

section

open PrefixCode

def encodeKVRead : KVRead → Bytes :=
  encodeVia (fun kvRead => (kvRead.key, kvRead.version.toList.map fun v => (v.blockNum, v.txNum)))
    (encodePair encodeBytes (encodeList (encodePair encodeNat encodeNat)))

def separableCodec : Codec :=
  { Codec.plain with
    hashFunc := fun b => .ok (encodeBytes b)
    serializeKVReads := fun kvReads => .ok (2 :: encodeList encodeKVRead kvReads) }

theorem prefixFree_kvRead : PrefixFree encodeKVRead := by
  apply prefixFree_via (prefixFree_pair prefixFree_bytes (prefixFree_list (prefixFree_pair prefixFree_nat prefixFree_nat)))
  rintro ⟨key, _ | ⟨_, _⟩⟩ ⟨key', _ | ⟨_, _⟩⟩ same <;> simp_all

theorem separableCodec_unambiguous : Unambiguous separableCodec where
  hash_injective a b h first second := prefixFree_bytes.injective (ok.inj (first.trans second.symm))
  serialize_injective kvReads kvReads' b first second :=
    (prefixFree_list prefixFree_kvRead).injective (List.cons.inj (ok.inj (first.trans second.symm))).2
  digests_separate xs ys digests same := by
    induction xs generalizing ys with
    | nil =>
      cases ys with
      | nil => rfl
      | cons y ys =>
        obtain ⟨b, isHash⟩ := digests y (by simp)
        cases isHash
        cases b <;> simp [encodeBytes, encodeList] at same
    | cons x xs ih =>
      obtain ⟨a, isHash⟩ := digests x (by simp)
      cases isHash
      cases ys with
      | nil => cases a <;> simp [encodeBytes, encodeList] at same
      | cons y ys =>
        obtain ⟨b, isHash⟩ := digests y (by simp)
        cases isHash
        obtain ⟨rfl, rest⟩ := prefixFree_bytes _ _ _ _ same
        rw [ih ys (fun h mem => digests h (by simp_all; tauto)) rest]
  not_confusable kvReads b xs serialized several digests same := by
    cases xs with
    | nil => cases several
    | cons x xs =>
      obtain ⟨a, isHash⟩ := digests x (by simp)
      cases isHash
      cases serialized
      cases a <;> simp [encodeBytes, encodeList] at same

end

theorem threeReads_told_apart : ∃ helper₀, newRangeQueryResultsHelper true 2 = .ok helper₀ ∧ ∀ stream,
    helper₀.summarize separableCodec stream = helper₀.summarize separableCodec [⟨[1], none⟩, ⟨[2], none⟩, ⟨[3], some ⟨1, 0⟩⟩] →
      stream = [⟨[1], none⟩, ⟨[2], none⟩, ⟨[3], some ⟨1, 0⟩⟩] := by
  obtain ⟨helper₀, created, _, apart⟩ := merkleSummary_sound separableCodec true 2 (by decide)
  refine ⟨helper₀, created, fun stream same => ?_⟩
  cases created
  exact apart separableCodec_unambiguous _ _ _ (same.trans rfl) rfl

end Fabric.Proof.Validation
