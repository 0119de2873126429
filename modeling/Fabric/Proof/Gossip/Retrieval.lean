import Fabric.Gossip.PvtdataProvider

/-! # Where the keys of a retrieval are -/

namespace Fabric.Proof.Privdata

open Lib Fabric.Ledger Fabric.Gossip.Privdata Option
open List hiding getElem?_insert mem_of_mem_erase

variable {Config : Type} (p : PvtdataProvider Config)
  {info info' : PvtdataRetrievalInfo} {tx : TxPvtdataInfo Config} {txs : List (TxPvtdataInfo Config)}

def isEligible (config : Config) : Bool :=
  match p.newSimpleCollection config with
  | .ok policy => p.mspID ∈ policy.memberOrgs ∨ policy.accessFilter
  | .error _ => false

def toStore (invalid : Bool) : Prop := invalid = true → p.storePvtdataOfInvalidTx = true

instance (invalid : Bool) : Decidable (toStore p invalid) :=
  inferInstanceAs (Decidable (invalid = true → p.storePvtdataOfInvalidTx = true))

structure Listing where
  key : RwSetKey
  isEligible : Bool
  hash : Bytes

def txListings (tx : TxPvtdataInfo Config) : List Listing :=
  tx.collectionPvtdataInfo.map fun col => ⟨txKey tx col, isEligible p col.collectionConfig, col.expectedHash⟩

def listings (txs : List (TxPvtdataInfo Config)) : List Listing :=
  (txs.filter fun tx => toStore p tx.invalid).flatMap (txListings p)

def eligibleHashes (es : List Listing) : List (RwSetKey × Bytes) := (es.filter Listing.isEligible).map fun e => (e.key, e.hash)

structure Computed (es : List Listing) (info : PvtdataRetrievalInfo) : Prop where
  remaining : ∀ k, k ∈ info.remainingEligibleMissingKeys ↔ ∃ e ∈ es, e.key = k ∧ e.isEligible = true
  ineligible : ∀ k, k ∈ info.ineligibleMissingKeys ↔ ∃ e ∈ es, e.key = k ∧ e.isEligible = false
  expected : ∀ k, info.expectedHashes[k]? = lastFor k (eligibleHashes es)
  resolved : info.resolvedAsToReconcileLater = ∅

variable {p}

theorem Computed.addCollection {es : List Listing} {col : CollectionPvtdataInfo Config} (computed : Computed es info)
    (added : p.addCollection tx info col = .ok info') :
    Computed (es ++ [⟨txKey tx col, isEligible p col.collectionConfig, col.expectedHash⟩]) info' := by
  rw [PvtdataProvider.addCollection] at added
  obtain ⟨policy, isPolicy, added⟩ := bind_eq_ok.mp added
  have eligibility : isEligible p col.collectionConfig = decide (p.mspID ∈ policy.memberOrgs ∨ policy.accessFilter) := by
    rw [isEligible, isPolicy]
  have inConcat : ∀ (e : Listing) (k : RwSetKey) (b : Bool), (∃ e' ∈ es ++ [e], e'.key = k ∧ e'.isEligible = b) ↔
      (e.key = k ∧ e.isEligible = b) ∨ ∃ e' ∈ es, e'.key = k ∧ e'.isEligible = b := by
    intro e k b
    simp only [mem_append, mem_singleton, or_and_right, exists_or, exists_eq_left]
    rw [or_comm]
  split at added
  · rename_i notEligible
    have ineligible : isEligible p col.collectionConfig = false := by
      rw [eligibility]
      simpa using notEligible
    obtain rfl := ok.inj added
    rw [ineligible]
    exact
      { remaining := by
          intro k
          rw [inConcat]
          simpa using computed.remaining k
        ineligible := by
          intro k
          rw [inConcat, mem_insertKey]
          simpa using or_congr Iff.rfl (computed.ineligible k)
        expected := by
          intro k
          have isSame : ∀ key hash, eligibleHashes (es ++ [⟨key, false, hash⟩]) = eligibleHashes es := by simp [eligibleHashes]
          rw [isSame]
          exact computed.expected k
        resolved := computed.resolved }
  · rename_i notIneligible
    have elig : isEligible p col.collectionConfig = true := by
      rw [eligibility]
      rw [not_and_or, not_not, not_not] at notIneligible
      simpa using notIneligible
    obtain rfl := ok.inj added
    rw [elig]
    exact
      { remaining := by
          intro k
          rw [inConcat, mem_insertKey]
          simpa using or_congr Iff.rfl (computed.remaining k)
        ineligible := by
          intro k
          rw [inConcat]
          simpa using computed.ineligible k
        expected := by
          intro k
          have isConcat : ∀ key hash, eligibleHashes (es ++ [⟨key, true, hash⟩]) = eligibleHashes es ++ [(key, hash)] := by
            simp [eligibleHashes]
          rw [isConcat, lastFor_concat, getElem?_insert]
          simp only [Std.LawfulEqCmp.compare_eq_iff_eq]
          split
          · rfl
          · exact computed.expected k
        resolved := computed.resolved }

theorem Computed.addTx {es : List Listing} (computed : Computed es info) (added : p.addTx info tx = .ok info')
    : Computed (es ++ listings p [tx]) info' := by
  have same : Computed es { info with txns := info.txns ++ [tx.txID] } :=
    ⟨computed.remaining, computed.ineligible, computed.expected, computed.resolved⟩
  rw [PvtdataProvider.addTx] at added
  split at added
  · rename_i skipped
    obtain rfl := ok.inj added
    have notStored : ¬ toStore p tx.invalid := by simpa [toStore] using skipped
    simpa [listings, notStored] using same
  · rename_i notSkipped
    have stored : toStore p tx.invalid := by simpa [toStore] using notSkipped
    have isList : listings p [tx] = txListings p tx := by simp [listings, stored]
    rw [isList]
    apply foldlM_invariant (fun done info => Computed (es ++ txListings p { tx with collectionPvtdataInfo := done }) info) added
    · simpa [txListings] using same
    · intro done col info info' _ before added
      have isConcat : txListings p { tx with collectionPvtdataInfo := done ++ [col] } =
          txListings p { tx with collectionPvtdataInfo := done } ++
            [⟨txKey tx col, isEligible p col.collectionConfig, col.expectedHash⟩] := by
        simp [txListings, txKey]
      rw [isConcat, ← append_assoc]
      exact before.addCollection added

theorem computed_of_computeEligibility (isOk : p.computeEligibility txs = .ok info) : Computed (listings p txs) info := by
  apply foldlM_invariant (fun done info => Computed (listings p done) info) isOk
  · exact ⟨by simp [listings], by simp [listings], by simp [listings, eligibleHashes, lastFor], rfl⟩
  · intro done tx info info' _ before added
    have isConcat : listings p (done ++ [tx]) = listings p done ++ listings p [tx] := by simp [listings]
    rw [isConcat]
    exact before.addTx added

theorem computeEligibility_isOk
    (built : ∀ tx ∈ txs, toStore p tx.invalid →
      ∀ col ∈ tx.collectionPvtdataInfo, ∃ policy, p.newSimpleCollection col.collectionConfig = .ok policy)
    : ∃ info, p.computeEligibility txs = .ok info := by
  apply foldlM_isOk
  intro info tx mem
  rw [PvtdataProvider.addTx]
  split
  · exact ⟨_, rfl⟩
  · rename_i notSkipped
    have stored : toStore p tx.invalid := by simpa [toStore] using notSkipped
    apply foldlM_isOk
    intro info col memCol
    obtain ⟨policy, isPolicy⟩ := built tx mem stored col memCol
    rw [PvtdataProvider.addCollection, isPolicy]
    by_cases ineligible : p.mspID ∉ policy.memberOrgs ∧ ¬ policy.accessFilter = true
    · exact ⟨_, if_pos ineligible⟩
    · exact ⟨_, if_neg ineligible⟩

structure Placed (p : PvtdataProvider Config) (elig ineligible : RwSetKey → Prop) (expected : RwSetKey → Bytes)
    (purged : RwSetKey → Prop) (s : Retrieval) : Prop where
  stored : ∀ k rwset, s.pvtdata[k]? = some rwset → elig k ∧ p.computeSHA256 rwset = expected k ∧
    k ∉ s.info.resolvedAsToReconcileLater ∧ k ∉ s.info.remainingEligibleMissingKeys
  later : ∀ k ∈ s.info.resolvedAsToReconcileLater, elig k ∧ k ∉ s.info.remainingEligibleMissingKeys
  missing : ∀ k ∈ s.info.remainingEligibleMissingKeys, elig k
  covered : ∀ k, elig k → k ∈ s.pvtdata ∨ k ∈ s.info.resolvedAsToReconcileLater ∨
    k ∈ s.info.remainingEligibleMissingKeys ∨ purged k
  ineligible : ∀ k, k ∈ s.info.ineligibleMissingKeys ↔ ineligible k
  hashes : ∀ k, elig k → s.info.expectedHashes.getD k [] = expected k

variable {elig ineligible : RwSetKey → Prop} {expected : RwSetKey → Bytes} {purged : RwSetKey → Prop} {s : Retrieval} {k : RwSetKey}

theorem isMissing_iff : s.isMissing k = true ↔ k ∈ s.info.remainingEligibleMissingKeys := by simp [Retrieval.isMissing]

section

variable (placed : Placed p elig ineligible expected purged s)
include placed

/-- A key is placed when it is no longer missing: its data is stored, or left for the reconciler, or purged. -/
theorem Placed.moved {t : Retrieval} (resolved : t.info.remainingEligibleMissingKeys = s.info.remainingEligibleMissingKeys.erase k)
    (stored : ∀ k' rwset, t.pvtdata[k']? = some rwset → k' ∉ t.info.resolvedAsToReconcileLater ∧
      (s.pvtdata[k']? = some rwset ∨ k' = k ∧ elig k ∧ p.computeSHA256 rwset = expected k))
    (later : ∀ k' ∈ t.info.resolvedAsToReconcileLater, k' ∈ s.info.resolvedAsToReconcileLater ∨ k' = k ∧ elig k)
    (covered : ∀ k', k' ∈ s.pvtdata ∨ k' ∈ s.info.resolvedAsToReconcileLater ∨ k' = k →
      k' ∈ t.pvtdata ∨ k' ∈ t.info.resolvedAsToReconcileLater ∨ purged k')
    (same : t.info.ineligibleMissingKeys = s.info.ineligibleMissingKeys) (hashes : t.info.expectedHashes = s.info.expectedHashes) :
    Placed p elig ineligible expected purged t where
  stored k' rwset found := by
    rw [resolved, mem_erase]
    obtain ⟨notLater, old | ⟨rfl, isEligible, hash⟩⟩ := stored k' rwset found
    · obtain ⟨isEligible, hash, -, notMissing⟩ := placed.stored k' rwset old
      exact ⟨isEligible, hash, notLater, fun mem => notMissing mem.2⟩
    · exact ⟨isEligible, hash, notLater, by simp⟩
  later k' mem := by
    rw [resolved, mem_erase]
    rcases later k' mem with old | ⟨rfl, isEligible⟩
    · exact ⟨(placed.later k' old).1, fun mem => (placed.later k' old).2 mem.2⟩
    · exact ⟨isEligible, by simp⟩
  missing k' mem := placed.missing k' (mem_of_mem_erase (resolved ▸ mem))
  covered k' isEligible := by
    have moved := covered k'
    simp only [resolved, mem_erase]
    by_cases isMoved : k = k'
    · grind
    · rcases placed.covered k' isEligible with stored | later | missing | isPurged <;> grind
  ineligible k' := by rw [same, placed.ineligible]
  hashes k' isEligible := by rw [hashes, placed.hashes k' isEligible]

theorem Placed.store (isMissing : s.isMissing k = true) {rwset : Bytes}
    (hash : p.hasExpectedHash s k rwset = true) : Placed p elig ineligible expected purged (s.store k rwset) := by
  rw [isMissing_iff] at isMissing
  have isEligible := placed.missing k isMissing
  have sameHash : p.computeSHA256 rwset = expected k := by
    rw [← placed.hashes k isEligible]
    exact (of_decide_eq_true hash).symm
  refine placed.moved rfl (fun k' rwset' found => ?_) (fun _ => .inl) (fun k' => ?_) rfl rfl
  · simp only [Retrieval.store, get_insert] at found
    split at found
    · rename_i same
      obtain rfl := some.inj found
      obtain rfl := same
      exact ⟨fun mem => (placed.later k mem).2 isMissing, .inr ⟨rfl, isEligible, sameHash⟩⟩
    · exact ⟨(placed.stored k' rwset' found).2.2.1, .inl found⟩
  · simp only [Retrieval.store, mem_insert, Std.LawfulEqCmp.compare_eq_iff_eq]
    grind [Retrieval.resolve]

theorem Placed.reconcileLater (isMissing : s.isMissing k = true) : Placed p elig ineligible expected purged (s.reconcileLater k) := by
  rw [isMissing_iff] at isMissing
  obtain ⟨info, found⟩ : ∃ info, s.info.remainingEligibleMissingKeys[k]? = some info :=
    mem_iff_get.mp isMissing
  simp only [Retrieval.reconcileLater, found]
  refine placed.moved rfl (fun k' rwset isStored => ?_) (fun k' mem => ?_) (fun k' => ?_) rfl rfl
  · obtain ⟨-, -, notLater, notMissing⟩ := placed.stored k' rwset isStored
    have other : k ≠ k' := fun same => notMissing (same ▸ isMissing)
    exact ⟨by simp [other, notLater], .inl isStored⟩
  · simp only [mem_insertKey] at mem
    rcases mem with rfl | old
    · exact .inr ⟨rfl, placed.missing k isMissing⟩
    · exact .inl old
  · simp only [mem_insertKey]
    grind [Retrieval.resolve]

theorem Placed.resolve (isPurged : purged k) : Placed p elig ineligible expected purged (s.resolve k) := by
  refine placed.moved rfl (fun k' rwset found => ⟨(placed.stored k' rwset found).2.2.1, .inl found⟩) (fun _ => .inl) ?_ rfl rfl
  rintro k' (stored | later | rfl)
  · exact .inl stored
  · exact .inr (.inl later)
  · exact .inr (.inr isPurged)

theorem Placed.settle (rwset : Bytes) : Placed p elig ineligible expected purged (p.settle s k rwset) := by
  rw [PvtdataProvider.settle]
  split
  · exact placed
  · rename_i isMissing
    split
    · rename_i hash
      exact placed.store (not_not.mp isMissing) hash
    · exact placed.reconcileLater (not_not.mp isMissing)

theorem Placed.settleFromTransientStore
    (found : Bytes × CollectionPvtReadWriteSet) : Placed p elig ineligible expected purged (p.settleFromTransientStore k s found) := by
  rw [PvtdataProvider.settleFromTransientStore]
  split
  · exact placed
  · rename_i isMissing
    split
    · exact placed
    · rename_i hash
      exact placed.store (not_not.mp isMissing) (not_not.mp hash)

end

variable {P : Retrieval → Prop}

theorem populateFromCache_invariant (settled : ∀ s k rwset, P s → P (p.settle s k rwset)) (txs : List (TxPvtdataInfo Config))
    (prefetchedPvtdata : List Gossip.Privdata.TxPvtData) (start : P s) : P (p.populateFromCache txs prefetchedPvtdata s) := by
  apply foldlRecOn _ _ start
  intro s holds txPvtdata _
  rw [PvtdataProvider.populateFromCacheTx]
  split
  · exact holds
  · exact foldlRecOn _ _ holds fun s holds found _ => settled s _ _ holds

theorem scanTransientStore_invariant (settled : ∀ s found, P s → P (p.settleFromTransientStore k s found))
    (iterator : List (Result (Option TxPvtReadWriteSet))) (start : P s) : P (p.scanTransientStore k iterator s).1 := by
  induction iterator generalizing s with
  | nil => exact start
  | cons item iterator ih =>
    match item with
    | .error _ => exact start
    | .ok none => exact ih start
    | .ok (some pvtRwset) => exact ih (foldlRecOn _ _ start fun s holds found _ => settled s found holds)

theorem populateFromTransientStore_invariant (settled : ∀ k s found, P s → P (p.settleFromTransientStore k s found))
    (transientStore : RwSetKey → Result (List (Result (Option TxPvtReadWriteSet)))) (order : List RwSetKey) (start : P s) :
    P (p.populateFromTransientStore transientStore order s) := by
  induction order generalizing s with
  | nil => exact start
  | cons k order ih =>
    rw [PvtdataProvider.populateFromTransientStore]
    split
    · exact ih start
    · split
      · exact start
      · rename_i iterator _
        have scanned := scanTransientStore_invariant (settled k) iterator start
        split
        · rename_i s' isEnd
          rw [isEnd] at scanned
          exact ih scanned
        · rename_i s' isFailed
          rw [isFailed] at scanned
          exact scanned

theorem populateFromRemotePeers_invariant (settled : ∀ s k rwset, P s → P (p.settle s k rwset))
    {answer : Result FetchedPvtDataContainer} (resolved : ∀ fetchedData, answer = .ok fetchedData →
      ∀ dig ∈ fetchedData.purgedElements, ∀ s, P s → P (s.resolve dig.key)) (start : P s) : P (p.populateFromRemotePeers s answer).1 := by
  simp only [PvtdataProvider.populateFromRemotePeers]
  split
  · exact start
  · split
    · exact start
    · rename_i fetchedData
      refine foldlRecOn _ _ ?_ fun s holds dig mem => resolved fetchedData rfl dig mem s holds
      apply foldlRecOn _ _ start
      intro s holds element _
      exact foldlRecOn _ _ holds fun s holds rws _ => settled s _ rws holds

theorem pull_invariant (settled : ∀ s k rwset, P s → P (p.settle s k rwset)) {answers : List (Result FetchedPvtDataContainer)}
    (resolved : ∀ fetchedData, .ok fetchedData ∈ answers → ∀ dig ∈ fetchedData.purgedElements, ∀ s, P s → P (s.resolve dig.key))
    (start : P s) : P (p.pull answers s) := by
  induction answers generalizing s with
  | nil => exact start
  | cons answer answers ih =>
    rw [PvtdataProvider.pull]
    split
    · exact start
    · have round := populateFromRemotePeers_invariant settled
        (fun fetchedData isOk => resolved fetchedData (isOk ▸ mem_cons_self)) start
      split
      · rename_i s' again
        rw [again] at round
        exact ih (fun fetchedData mem => resolved fetchedData (mem_cons_of_mem _ mem)) round
      · rename_i s' finished
        rw [finished] at round
        exact round

end Fabric.Proof.Privdata
