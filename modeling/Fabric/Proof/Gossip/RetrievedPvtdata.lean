import Fabric.Lib.Extract
import Fabric.Proof.Gossip.Retrieval

/-! # The private data of a block accounts for its write-sets -/

namespace Fabric.Proof.Privdata

open Lib Fabric.Ledger Fabric.Ledger.PvtdataStorage Fabric.Gossip.Privdata Option TxPvtReadWriteSet PvtdataProvider Std.ExtTreeMap
open List hiding getElem?_eq_none getElem?_map

variable {code : Nat} {txi : TxInfo} {e : Listing} {w : Bytes × CollHashedRwSet} {info : PvtdataRetrievalInfo}
  {r : BlockPvtdata} {k : RwSetKey}

def found (r : BlockPvtdata) (seq : Nat) (ns coll : Bytes) : List Bytes :=
  ((r.pvtData[seq]?.elim [] fun t => collections t.writeSet).filter
    fun e => e.1 = ns ∧ e.2.collectionName = coll).map fun e => e.2.rwset

def missing (r : BlockPvtdata) (seq : Nat) (ns coll : Bytes) : List Bool :=
  ((r.missingPvtData.getD seq []).filter fun m => m.ns = ns ∧ m.coll = coll).map MissingPvtData.isEligible

section

variable {s : Retrieval} {txID : Bytes} {seq : Nat}

theorem collections_toRWSet (rws : List (RwSetKey × Bytes)) (ns coll : Bytes) :
    ((collections (toRWSet rws)).filter fun e => e.1 = ns ∧ e.2.collectionName = coll).map (fun e => e.2.rwset) =
      (rws.filter fun e => e.1.ns = ns ∧ e.1.collection = coll).map Prod.snd := by
  have isUngroup : collections (toRWSet rws) = ungroup (groupInto (fun e => e.1.ns) (fun e => ⟨e.1.collection, e.2⟩) rws
        (∅ : Map Bytes (List CollectionPvtReadWriteSet))).toList := by
    simp [collections, toRWSet, ungroup, flatMap_map]
  have byNamespace := filter_ungroup_toList (groupInto (fun e => e.1.ns) (fun e => ⟨e.1.collection, e.2⟩) rws
    (∅ : Map Bytes (List CollectionPvtReadWriteSet))) ns
  rw [getD_groupInto, getD_empty, nil_append] at byNamespace
  have both := congrArg (fun cols => (cols.filter fun col => col.collectionName = coll).map CollectionPvtReadWriteSet.rwset) byNamespace
  simp only [List.filter_map, List.filter_filter, List.map_map, Function.comp_def] at both
  rw [isUngroup]
  simpa [and_comm, ← Bool.decide_and] using both

theorem found_prepareBlockPvtdata (s : Retrieval) (seq : Nat) (ns coll : Bytes) : found (prepareBlockPvtdata s) seq ns coll =
      (s.pvtdata.toList.filter fun e => e.1.seqInBlock = seq ∧ e.1.ns = ns ∧ e.1.collection = coll).map Prod.snd := by
  have bySeq : (bySeqsInBlock s.pvtdata).getD seq [] = s.pvtdata.toList.filter (·.1.seqInBlock = seq) := by
    rw [bySeqsInBlock, getD_groupInto]
    simp
  have isElim : (prepareBlockPvtdata s).pvtData[seq]?.elim [] (fun t => collections t.writeSet) =
      collections (toRWSet ((bySeqsInBlock s.pvtdata).getD seq [])) := by
    simp only [prepareBlockPvtdata, getElem?_map, getD_eq_getD_getElem?]
    cases (bySeqsInBlock s.pvtdata)[seq]? with
    | none => rfl
    | some rws => rfl
  rw [found, isElim, collections_toRWSet, bySeq, List.filter_filter]
  simp [and_comm, ← Bool.decide_and]

theorem missing_addMissing (keys : Map RwSetKey RwsetInfo) (isEligible : Bool) (m : TxMissingPvtData) (seq : Nat) (ns coll : Bytes) :
    (((addMissing keys isEligible m).getD seq []).filter fun e => e.ns = ns ∧ e.coll = coll).map MissingPvtData.isEligible =
      ((m.getD seq []).filter fun e => e.ns = ns ∧ e.coll = coll).map MissingPvtData.isEligible ++
        (keys.toList.filter fun e => e.1.seqInBlock = seq ∧ e.1.ns = ns ∧ e.1.collection = coll).map fun _ => isEligible := by
  rw [addMissing, getD_groupInto, filter_append, map_append, List.filter_map, List.map_map, List.filter_filter]
  simp [Function.comp_def, and_comm, ← Bool.decide_and]

theorem filter_of_unique {V : Type} {m : Map RwSetKey V} (unique : ∀ k ∈ m, k.seqInBlock = seq → k.txID = txID)
    (ns coll : Bytes) : (m.toList.filter fun e => e.1.seqInBlock = seq ∧ e.1.ns = ns ∧ e.1.collection = coll) =
      m[(⟨txID, seq, ns, coll⟩ : RwSetKey)]?.toList.map fun v => (⟨txID, seq, ns, coll⟩, v) := by
  rw [← filter_toList]
  apply filter_congr
  intro e mem
  have present := mem_of_mem_toList mem
  obtain ⟨⟨txID', seq', ns', coll'⟩, v⟩ := e
  simp only [RwSetKey.mk.injEq, decide_eq_decide]
  constructor
  · intro ⟨sameSeq, sameNs, sameColl⟩
    exact ⟨unique _ present sameSeq, sameSeq, sameNs, sameColl⟩
  · intro ⟨_, rest⟩
    exact rest

end

section

variable {Config : Type} (p : PvtdataProvider Config) (cfgOf : CollectionCriteria → Result Config)

def writtenHash (w : Bytes × CollHashedRwSet) : Bytes := w.2.pvtRwSetHash.getD []

def writtenKey (seq : Nat) (txi : TxInfo) (w : Bytes × CollHashedRwSet) : RwSetKey :=
  ⟨txi.txID, seq, w.1, w.2.collectionName⟩

def eligibleFor (txi : TxInfo) (w : Bytes × CollHashedRwSet) : Bool :=
  match cfgOf ⟨txi.channelID, w.1, w.2.collectionName⟩ with
  | .ok config => isEligible p config
  | .error _ => false

def transactionListings (tx : Nat × Nat × TxInfo) : List Listing :=
  tx.2.2.writtenCollections.map fun w =>
    ⟨writtenKey tx.1 tx.2.2 w, eligibleFor p cfgOf tx.2.2 w, writtenHash w⟩

def storedTransactions (block : Block) (flags : List Nat) : List (Nat × Nat × TxInfo) :=
  (block.transactions flags).filter fun tx => toStore p (tx.2.1 ≠ 0)

def blockListings (block : Block) (flags : List Nat) : List Listing :=
  (storedTransactions p block flags).flatMap (transactionListings p cfgOf)

variable {p cfgOf} {block : Block} {flags : List Nat} {seq : Nat}

theorem txListings_of_txPvtdataInfo {info : TxPvtdataInfo Config} (isOk : txPvtdataInfo cfgOf seq code txi = .ok info) :
    info.invalid = decide (code ≠ 0) ∧ txListings p info = transactionListings p cfgOf (seq, code, txi) := by
  obtain ⟨cols, areCols, isInfo⟩ := bind_eq_ok.mp isOk
  obtain rfl := ok.inj isInfo
  refine ⟨rfl, ?_⟩
  have each := mapM_eq_ok.mp areCols
  simp only [txListings, transactionListings]
  clear areCols isOk isInfo
  generalize txi.writtenCollections = ws at each ⊢
  induction each with
  | nil => rfl
  | cons isCol _ ih =>
    obtain ⟨config, isConfig, isCol⟩ := bind_eq_ok.mp isCol
    obtain rfl := ok.inj isCol
    rw [map_cons, map_cons]
    apply congrArg₂ List.cons
    · simp only [eligibleFor, isConfig]
      rfl
    · exact ih

variable {infos : List (TxPvtdataInfo Config)}

theorem listings_of_block (isOk : getTxPvtdataInfoFromBlock cfgOf block = .ok infos) :
    ∃ flags, block.txsFilter = some flags ∧ listings p infos = blockListings p cfgOf block flags := by
  rw [getTxPvtdataInfoFromBlock] at isOk
  split at isOk
  · cases isOk
  · rename_i flags isFilter
    refine ⟨flags, isFilter, ?_⟩
    split at isOk
    · cases isOk
    · have each := mapM_eq_ok.mp isOk
      rw [blockListings, storedTransactions]
      generalize block.transactions flags = transactions at each
      clear isOk
      induction each with
      | nil => rfl
      | @cons tx info _ _ isInfo _ ih =>
        obtain ⟨invalid, areListings⟩ := txListings_of_txPvtdataInfo (p := p) isInfo
        have isCons : ∀ infos, listings p (info :: infos) =
            (if toStore p info.invalid then txListings p info else []) ++ listings p infos := by
          intro infos
          by_cases stored : toStore p info.invalid
          · simp [listings, stored]
          · simp [listings, stored]
        rw [isCons, ih, invalid, areListings, filter_cons]
        simp only [decide_eq_true_eq]
        split
        · rw [flatMap_cons]
        · rfl

theorem nodup_transactions (block : Block) (flags : List Nat) : ((block.transactions flags).map Prod.fst).Nodup := by
  rw [Block.transactions, List.Nodup, pairwise_map, pairwise_filterMap]
  have distinct : (block.data.zip flags).zipIdx.Pairwise fun a b => a.2 ≠ b.2 := by
    rw [← pairwise_map (f := Prod.snd), zipIdx_map_snd]
    exact nodup_range'
  apply distinct.imp
  intro a b different x isX y isY
  obtain ⟨_, _, rfl⟩ := map_eq_some_iff.mp isX
  obtain ⟨_, _, rfl⟩ := map_eq_some_iff.mp isY
  exact different

theorem mem_blockListings : e ∈ blockListings p cfgOf block flags ↔
    ∃ seq code txi, (seq, code, txi) ∈ block.transactions flags ∧ toStore p (code ≠ 0) ∧
      ∃ w ∈ txi.writtenCollections, ⟨writtenKey seq txi w, eligibleFor p cfgOf txi w, writtenHash w⟩ = e := by
  simp only [blockListings, storedTransactions, transactionListings, mem_flatMap, mem_filter, List.mem_map, decide_eq_true_eq, Prod.exists]
  constructor
  · intro ⟨seq, code, txi, ⟨mem, stored⟩, written⟩
    exact ⟨seq, code, txi, mem, stored, written⟩
  · intro ⟨seq, code, txi, mem, stored, written⟩
    exact ⟨seq, code, txi, ⟨mem, stored⟩, written⟩

theorem transaction_unique {a b : Nat × Nat × TxInfo} (memA : a ∈ block.transactions flags)
    (memB : b ∈ block.transactions flags) (same : a.1 = b.1) : a = b :=
  inj_on_of_nodup_map (nodup_transactions block flags) memA memB same

def writtenHashes (txi : TxInfo) : List ((Bytes × Bytes) × Bytes) :=
  txi.writtenCollections.map fun w => ((w.1, w.2.collectionName), writtenHash w)

theorem lastFor_blockListings (mem : (seq, code, txi) ∈ block.transactions flags)
    (stored : toStore p (code ≠ 0)) (elig : eligibleFor p cfgOf txi w = true) :
    lastFor (writtenKey seq txi w) (eligibleHashes (blockListings p cfgOf block flags)) =
      lastFor (w.1, w.2.collectionName) (writtenHashes txi) := by
  have inStored : (seq, code, txi) ∈ storedTransactions p block flags := mem_filter.mpr ⟨mem, by simpa using stored⟩
  have nodup : (storedTransactions p block flags).Nodup := (nodup_transactions block flags).of_map.filter _
  have others : ∀ tx ∈ storedTransactions p block flags, tx ≠ (seq, code, txi) → ∀ e ∈ transactionListings p cfgOf tx,
        (e.isEligible && decide (e.key = writtenKey seq txi w)) = false := by
    intro tx memTx other e memE
    obtain ⟨v, _, rfl⟩ := List.mem_map.mp memE
    have differs : tx.1 ≠ seq := fun same => other (transaction_unique (mem_of_mem_filter memTx) mem same)
    simp [writtenKey, differs]
  have unique := filter_flatMap_of_unique nodup inStored others
  have sameEligibility : ∀ v : Bytes × CollHashedRwSet, v.1 = w.1 → v.2.collectionName = w.2.collectionName →
      eligibleFor p cfgOf txi v = true := by
    intro v sameNs sameColl
    rw [eligibleFor, sameNs, sameColl]
    exact elig
  have hashes := congrArg (List.map Listing.hash) unique
  rw [transactionListings, List.filter_map, List.map_map] at hashes
  simp only [lastFor, eligibleHashes, writtenHashes, List.filter_map, List.filter_filter, List.map_map]
  apply congrArg List.getLast?
  refine Eq.trans ?_ (hashes.trans ?_)
  · simp [Function.comp_def, blockListings, Bool.and_comm]
  · apply congrArg (List.map writtenHash)
    apply filter_congr
    intro v _
    simp only [Function.comp_apply, writtenKey, RwSetKey.mk.injEq, true_and, Prod.mk.injEq]
    by_cases sameColl : v.1 = w.1 ∧ v.2.collectionName = w.2.collectionName
    · simp [sameColl, sameEligibility v sameColl.1 sameColl.2]
    · simp [sameColl]

def Reported (srcs : Sources) (k : RwSetKey) : Prop :=
  ∃ fetchedData, .ok fetchedData ∈ srcs.answers ∧ ∃ dig ∈ fetchedData.purgedElements, dig.key = k

variable (p cfgOf) in
/-- What the private data has for one write-set of the block. -/
inductive Outcome (srcs : Sources) (r : BlockPvtdata) (seq : Nat) (txi : TxInfo) (w : Bytes × CollHashedRwSet) : Prop where
  | stored (rwset : Bytes) (elig : eligibleFor p cfgOf txi w = true)
      (hash : p.computeSHA256 rwset = writtenHash w) (isFound : found r seq w.1 w.2.collectionName = [rwset])
      (notMissing : missing r seq w.1 w.2.collectionName = [])
  | missing (elig : eligibleFor p cfgOf txi w = true)
      (notFound : found r seq w.1 w.2.collectionName = [])
      (isMissing : missing r seq w.1 w.2.collectionName = [true])
  | ineligible (notEligible : eligibleFor p cfgOf txi w = false)
      (notFound : found r seq w.1 w.2.collectionName = [])
      (isMissing : missing r seq w.1 w.2.collectionName = [false])
  | purged (elig : eligibleFor p cfgOf txi w = true)
      (reported : Reported srcs (writtenKey seq txi w))
      (notFound : found r seq w.1 w.2.collectionName = [])
      (notMissing : missing r seq w.1 w.2.collectionName = [])

variable (p cfgOf) in
structure Accounted (srcs : Sources) (block : Block) (r : BlockPvtdata) : Prop where
  each : ∀ flags, block.txsFilter = some flags → ∀ seq code txi,
    (seq, code, txi) ∈ block.transactions flags → toStore p (code ≠ 0) →
      ∀ w ∈ txi.writtenCollections, Outcome p cfgOf srcs r seq txi w
  nothingElse : ∀ seq ns coll, found r seq ns coll ≠ [] ∨ missing r seq ns coll ≠ [] →
    ∃ flags code txi, block.txsFilter = some flags ∧ (seq, code, txi) ∈ block.transactions flags ∧
      toStore p (code ≠ 0) ∧ ∃ w ∈ txi.writtenCollections, w.1 = ns ∧ w.2.collectionName = coll
  places : ∀ (seq : Nat) (t : Gossip.Privdata.TxPvtData), r.pvtData[seq]? = some t →
    t.seqInBlock = seq ∧ collections t.writeSet ≠ []

variable (p cfgOf) in
/-- A collection that the peer is eligible for is not listed with two hashes, the last of which bytes have. -/
def Unambiguous (block : Block) : Prop :=
  ∀ flags, block.txsFilter = some flags → ∀ seq code txi,
    (seq, code, txi) ∈ block.transactions flags → toStore p (code ≠ 0) → ∀ w ∈ txi.writtenCollections,
      eligibleFor p cfgOf txi w = true → ∀ rwset,
        lastFor (w.1, w.2.collectionName) (writtenHashes txi) = some (p.computeSHA256 rwset) →
          writtenHash w = p.computeSHA256 rwset

variable (p cfgOf) in
def BlockPlaced (srcs : Sources) (block : Block) (flags : List Nat) (s : Retrieval) : Prop :=
  Placed p (fun k => ∃ e ∈ blockListings p cfgOf block flags, e.key = k ∧ e.isEligible = true)
    (fun k => ∃ e ∈ blockListings p cfgOf block flags, e.key = k ∧ e.isEligible = false)
    (fun k => (lastFor k (eligibleHashes (blockListings p cfgOf block flags))).getD [])
    (Reported srcs) s

theorem Computed.placed {es : List Listing} (computed : Computed es info) (purged : RwSetKey → Prop) :
    Placed p (fun k => ∃ e ∈ es, e.key = k ∧ e.isEligible = true) (fun k => ∃ e ∈ es, e.key = k ∧ e.isEligible = false)
      (fun k => (lastFor k (eligibleHashes es)).getD []) purged ⟨∅, info⟩ where
  stored := by simp
  later := by simp [computed.resolved]
  missing := fun k => (computed.remaining k).mp
  covered := fun k isEligible => .inr (.inr (.inl ((computed.remaining k).mpr isEligible)))
  ineligible := computed.ineligible
  hashes := by
    intro k _
    rw [getD_eq_getD_getElem?, computed.expected]

theorem placed_of_retrieveForBlock {srcs : Sources} (got : p.retrieveForBlock cfgOf srcs block = .ok r) :
    ∃ flags s, block.txsFilter = some flags ∧ r = prepareBlockPvtdata s ∧ BlockPlaced p cfgOf srcs block flags s := by
  obtain ⟨infos, areInfos, got⟩ := bind_eq_ok.mp got
  obtain ⟨info, isInfo, got⟩ := bind_eq_ok.mp got
  obtain ⟨flags, isFilter, areListings⟩ := @listings_of_block _ p _ _ _ areInfos
  refine ⟨flags, ?_⟩
  have opened : BlockPlaced p cfgOf srcs block flags ⟨∅, info⟩ := by
    have computed : Computed (listings p infos) info := computed_of_computeEligibility isInfo
    rw [areListings] at computed
    exact computed.placed _
  have cached := populateFromCache_invariant (fun s k rwset placed => placed.settle rwset) infos srcs.prefetchedPvtdata opened
  have scanned := populateFromTransientStore_invariant (fun k s found placed => placed.settleFromTransientStore found)
    srcs.transientStore srcs.order cached
  have pulled := pull_invariant (fun s k rwset placed => placed.settle rwset)
    (fun fetchedData mem dig memDig s placed => placed.resolve ⟨fetchedData, mem, dig, memDig, rfl⟩) scanned
  simp only at got
  split at got
  · exact ⟨_, isFilter, (ok.inj got).symm, opened⟩
  · split at got
    · exact ⟨_, isFilter, (ok.inj got).symm, cached⟩
    · split at got
      · exact ⟨_, isFilter, (ok.inj got).symm, scanned⟩
      · exact ⟨_, isFilter, (ok.inj got).symm, pulled⟩

def Keeps (s : Retrieval) (k : RwSetKey) : Prop :=
  k ∈ s.pvtdata ∨ k ∈ s.info.resolvedAsToReconcileLater ∨ k ∈ s.info.remainingEligibleMissingKeys ∨ k ∈ s.info.ineligibleMissingKeys

section

variable {srcs : Sources} {s : Retrieval} (placed : BlockPlaced p cfgOf srcs block flags s)

include placed

theorem BlockPlaced.listed (mem : Keeps s k) : ∃ seq code txi, (seq, code, txi) ∈ block.transactions flags ∧ toStore p (code ≠ 0) ∧
      ∃ w ∈ txi.writtenCollections, writtenKey seq txi w = k := by
  obtain ⟨e, inBlock, isKey⟩ : ∃ e ∈ blockListings p cfgOf block flags, e.key = k := by
    rcases mem with stored | later | missing | ineligible
    · obtain ⟨rwset, isStored⟩ := mem_iff_get.mp stored
      obtain ⟨⟨e, inBlock, isKey, _⟩, _⟩ := Placed.stored placed k rwset isStored
      exact ⟨e, inBlock, isKey⟩
    · obtain ⟨⟨e, inBlock, isKey, _⟩, _⟩ := Placed.later placed k later
      exact ⟨e, inBlock, isKey⟩
    · obtain ⟨e, inBlock, isKey, _⟩ := Placed.missing placed k missing
      exact ⟨e, inBlock, isKey⟩
    · obtain ⟨e, inBlock, isKey, _⟩ := (Placed.ineligible placed k).mp ineligible
      exact ⟨e, inBlock, isKey⟩
  obtain ⟨seq, code, txi, mem, stored, w, written, rfl⟩ := mem_blockListings.mp inBlock
  exact ⟨seq, code, txi, mem, stored, w, written, isKey⟩

theorem BlockPlaced.unique (mem : (seq, code, txi) ∈ block.transactions flags)
    (inside : Keeps s k) (same : k.seqInBlock = seq) : k.txID = txi.txID := by
  obtain ⟨seq', code', txi', mem', _, w, _, rfl⟩ := placed.listed inside
  have isSame := transaction_unique mem' mem same
  exact congrArg (fun tx : Nat × Nat × TxInfo => tx.2.2.txID) isSame

theorem BlockPlaced.account (mem : (seq, code, txi) ∈ block.transactions flags) (ns coll : Bytes) :
    found (prepareBlockPvtdata s) seq ns coll = s.pvtdata[(⟨txi.txID, seq, ns, coll⟩ : RwSetKey)]?.toList ∧
    missing (prepareBlockPvtdata s) seq ns coll =
      s.info.resolvedAsToReconcileLater[(⟨txi.txID, seq, ns, coll⟩ : RwSetKey)]?.toList.map (fun _ => true) ++
      s.info.remainingEligibleMissingKeys[(⟨txi.txID, seq, ns, coll⟩ : RwSetKey)]?.toList.map (fun _ => true) ++
      s.info.ineligibleMissingKeys[(⟨txi.txID, seq, ns, coll⟩ : RwSetKey)]?.toList.map (fun _ => false) := by
  constructor
  · rw [found_prepareBlockPvtdata, filter_of_unique (fun k inside => placed.unique mem (.inl inside)), List.map_map]
    simp [Function.comp_def]
  · rw [missing, prepareBlockPvtdata, missing_addMissing, missing_addMissing, missing_addMissing,
      filter_of_unique (fun k inside => placed.unique mem (.inr (.inl inside))),
      filter_of_unique (fun k inside => placed.unique mem (.inr (.inr (.inl inside)))),
      filter_of_unique (fun k inside => placed.unique mem (.inr (.inr (.inr inside))))]
    simp [Function.comp_def]

end

theorem eligible_of_key (listed : e ∈ blockListings p cfgOf block flags)
    (mem : (seq, code, txi) ∈ block.transactions flags) (isKey : e.key = writtenKey seq txi w) :
    e.isEligible = eligibleFor p cfgOf txi w := by
  obtain ⟨seq', code', txi', mem', _, w', _, rfl⟩ := mem_blockListings.mp listed
  obtain ⟨_, sameSeq, sameNs, sameColl⟩ := RwSetKey.mk.inj isKey
  obtain ⟨_, _, rfl⟩ : _ ∧ _ ∧ txi' = txi := by simpa using transaction_unique mem' mem sameSeq
  simp [eligibleFor, sameNs, sameColl]

theorem lastFor_writtenHashes (written : w ∈ txi.writtenCollections) :
    ∃ hash, lastFor (w.1, w.2.collectionName) (writtenHashes txi) = some hash := by
  cases last : lastFor (w.1, w.2.collectionName) (writtenHashes txi) with
  | some hash => exact ⟨hash, rfl⟩
  | none => exact absurd (List.mem_map.mpr ⟨w, written, rfl⟩) (lastFor_eq_none.mp last (writtenHash w))

theorem BlockPlaced.outcome {srcs : Sources} {s : Retrieval} (placed : BlockPlaced p cfgOf srcs block flags s)
    (isFilter : block.txsFilter = some flags) (unambiguous : Unambiguous p cfgOf block)
    {seq : Nat} (mem : (seq, code, txi) ∈ block.transactions flags) (stored : toStore p (code ≠ 0)) (written : w ∈ txi.writtenCollections) :
    Outcome p cfgOf srcs (prepareBlockPvtdata s) seq txi w := by
  obtain ⟨isFound, isMissing⟩ := placed.account mem w.1 w.2.collectionName
  have listed : ⟨writtenKey seq txi w, eligibleFor p cfgOf txi w, writtenHash w⟩ ∈
      blockListings p cfgOf block flags :=
    mem_blockListings.mpr ⟨seq, code, txi, mem, stored, w, written, rfl⟩
  have isKey : (⟨txi.txID, seq, w.1, w.2.collectionName⟩ : RwSetKey) = writtenKey seq txi w := rfl
  rw [isKey] at isFound isMissing
  cases elig : eligibleFor p cfgOf txi w with
  | false =>
    have notEligible : ¬ ∃ e ∈ blockListings p cfgOf block flags, e.key = writtenKey seq txi w ∧ e.isEligible = true := by
      intro ⟨e, inBlock, isKey, isEligible⟩
      rw [eligible_of_key inBlock mem isKey, elig] at isEligible
      cases isEligible
    have notStored : s.pvtdata[writtenKey seq txi w]? = none := by
      cases found : s.pvtdata[writtenKey seq txi w]? with
      | none => rfl
      | some rwset => exact absurd (Placed.stored placed _ rwset found).1 notEligible
    have notLater : writtenKey seq txi w ∉ s.info.resolvedAsToReconcileLater :=
      fun later => notEligible (Placed.later placed _ later).1
    have notRemaining : writtenKey seq txi w ∉ s.info.remainingEligibleMissingKeys :=
      fun remaining => notEligible (Placed.missing placed _ remaining)
    obtain ⟨info, isIneligible⟩ : ∃ info, s.info.ineligibleMissingKeys[writtenKey seq txi w]? = some info := by
      apply isSome_iff_exists.mp
      rw [← mem_iff_isSome_getElem?, Placed.ineligible placed]
      exact ⟨_, listed, rfl, elig⟩
    apply Outcome.ineligible elig
    · rw [isFound, notStored]
      rfl
    · rw [isMissing, getElem?_eq_none notLater, getElem?_eq_none notRemaining, isIneligible]
      rfl
  | true =>
    have isEligible : ∃ e ∈ blockListings p cfgOf block flags, e.key = writtenKey seq txi w ∧ e.isEligible = true :=
      ⟨_, listed, rfl, elig⟩
    have notIneligible : writtenKey seq txi w ∉ s.info.ineligibleMissingKeys := by
      rw [Placed.ineligible placed]
      intro ⟨e, inBlock, isKey, notEligible⟩
      rw [eligible_of_key inBlock mem isKey, elig] at notEligible
      cases notEligible
    rw [getElem?_eq_none notIneligible, toList_none, map_nil, append_nil] at isMissing
    cases isStored : s.pvtdata[writtenKey seq txi w]? with
    | some rwset =>
      obtain ⟨_, hash, notLater, notRemaining⟩ := Placed.stored placed _ rwset isStored
      obtain ⟨last, isLast⟩ := lastFor_writtenHashes written
      rw [lastFor_blockListings mem stored elig, isLast, getD_some] at hash
      have sameHash := unambiguous flags isFilter seq code txi mem stored w written elig rwset (hash ▸ isLast)
      apply Outcome.stored rwset elig sameHash.symm
      · rw [isFound, isStored]
        rfl
      · rw [isMissing, getElem?_eq_none notLater, getElem?_eq_none notRemaining]
        rfl
    | none =>
      rw [isStored, toList_none] at isFound
      by_cases later : writtenKey seq txi w ∈ s.info.resolvedAsToReconcileLater
      · obtain ⟨info, isLater⟩ := mem_iff_get.mp later
        apply Outcome.missing elig isFound
        rw [isMissing, isLater, getElem?_eq_none (Placed.later placed _ later).2]
        rfl
      · rw [getElem?_eq_none later, toList_none, map_nil, nil_append] at isMissing
        by_cases remaining : writtenKey seq txi w ∈ s.info.remainingEligibleMissingKeys
        · obtain ⟨info, isRemaining⟩ := mem_iff_get.mp remaining
          apply Outcome.missing elig isFound
          rw [isMissing, isRemaining]
          rfl
        · rw [getElem?_eq_none remaining] at isMissing
          apply Outcome.purged elig _ isFound isMissing
          rcases Placed.covered placed _ isEligible with inData | inLater | inRemaining | reported
          · rw [mem_iff_isSome_getElem?, isStored] at inData
            cases inData
          · exact absurd inLater later
          · exact absurd inRemaining remaining
          · exact reported

theorem BlockPlaced.written_of_account {srcs : Sources} {s : Retrieval}
    (placed : BlockPlaced p cfgOf srcs block flags s) {seq : Nat} {ns coll : Bytes}
    (inside : found (prepareBlockPvtdata s) seq ns coll ≠ [] ∨ missing (prepareBlockPvtdata s) seq ns coll ≠ []) :
    ∃ code txi, (seq, code, txi) ∈ block.transactions flags ∧ toStore p (code ≠ 0) ∧
      ∃ w ∈ txi.writtenCollections, w.1 = ns ∧ w.2.collectionName = coll := by
  have ofMap : ∀ {V : Type} (m : Map RwSetKey V), (∀ k ∈ m, Keeps s k) →
      (m.toList.filter fun e => e.1.seqInBlock = seq ∧ e.1.ns = ns ∧ e.1.collection = coll) ≠ [] →
      ∃ k, Keeps s k ∧ k.seqInBlock = seq ∧ k.ns = ns ∧ k.collection = coll := by
    intro V m inside nonempty
    obtain ⟨e, mem⟩ := exists_mem_of_ne_nil _ nonempty
    obtain ⟨inMap, isKey⟩ := mem_filter.mp mem
    exact ⟨e.1, inside e.1 (mem_of_mem_toList inMap), of_decide_eq_true isKey⟩
  obtain ⟨k, mem, sameSeq, sameNs, sameColl⟩ : ∃ k, Keeps s k ∧ k.seqInBlock = seq ∧ k.ns = ns ∧ k.collection = coll := by
    rw [found_prepareBlockPvtdata, missing, prepareBlockPvtdata, missing_addMissing, missing_addMissing, missing_addMissing] at inside
    simp only [getD_empty, filter_nil, map_nil, nil_append, ne_eq, append_eq_nil_iff, map_eq_nil_iff, not_and_or] at inside
    rcases inside with inData | (inLater | inRemaining) | inIneligible
    · exact ofMap _ (fun k mem => .inl mem) inData
    · exact ofMap _ (fun k mem => .inr (.inl mem)) inLater
    · exact ofMap _ (fun k mem => .inr (.inr (.inl mem))) inRemaining
    · exact ofMap _ (fun k mem => .inr (.inr (.inr mem))) inIneligible
  obtain ⟨seq', code, txi, mem', stored, w, written, rfl⟩ := placed.listed mem
  obtain rfl : seq' = seq := sameSeq
  exact ⟨code, txi, mem', stored, w, written, sameNs, sameColl⟩

theorem prepareBlockPvtdata_places (s : Retrieval) {t : Gossip.Privdata.TxPvtData}
    (present : (prepareBlockPvtdata s).pvtData[seq]? = some t) : t.seqInBlock = seq ∧ collections t.writeSet ≠ [] := by
  have present' := present
  simp only [prepareBlockPvtdata, getElem?_map] at present'
  obtain ⟨rws, isGroup, rfl⟩ := map_eq_some_iff.mp present'
  refine ⟨rfl, ?_⟩
  intro empty
  have inGroups : seq ∈ bySeqsInBlock s.pvtdata := mem_of_get isGroup
  rcases mem_groupInto.mp inGroups with inEmpty | ⟨e, mem, isSeq⟩
  · simp at inEmpty
  · have isFound : e.2 ∈ found (prepareBlockPvtdata s) seq e.1.ns e.1.collection := by
      rw [found_prepareBlockPvtdata]
      exact List.mem_map.mpr ⟨e, mem_filter.mpr ⟨mem, by simp [isSeq]⟩, rfl⟩
    rw [found, present, elim_some, empty] at isFound
    cases isFound

theorem accounted_of_unambiguous {srcs : Sources} (got : p.retrieveForBlock cfgOf srcs block = .ok r)
    (unambiguous : Unambiguous p cfgOf block) : Accounted p cfgOf srcs block r := by
  obtain ⟨flags, s, isFilter, rfl, placed⟩ := placed_of_retrieveForBlock got
  exact
    { each := by
        intro flags' isFilter' seq code txi mem stored w written
        obtain rfl := some.inj (isFilter.symm.trans isFilter')
        exact placed.outcome isFilter unambiguous mem stored written
      nothingElse := by
        intro seq ns coll inside
        obtain ⟨code, txi, mem, stored, written⟩ := placed.written_of_account inside
        exact ⟨flags, code, txi, isFilter, mem, stored, written⟩
      places := fun seq t => prepareBlockPvtdata_places s }

def offer (k : RwSetKey) (rwset : Bytes) : Sources where
  prefetchedPvtdata := []
  order := [k]
  transientStore _ := .ok [.ok (some [⟨k.ns, [⟨k.collection, rwset⟩]⟩])]
  answers := []

theorem retrievePvtdata_offer {rwset : Bytes}
    (isInfo : p.computeEligibility infos = .ok info) (isMissing : k ∈ info.remainingEligibleMissingKeys)
    (hash : info.expectedHashes[k]? = some (p.computeSHA256 rwset)) :
    p.retrievePvtdata (offer k rwset) infos = .ok (prepareBlockPvtdata (Retrieval.store ⟨∅, info⟩ k rwset)) := by
  have notEmpty : info.remainingEligibleMissingKeys.isEmpty = false := by
    rw [Bool.eq_false_iff]
    intro isEmpty
    rw [isEmpty_iff.mp isEmpty] at isMissing
    simp at isMissing
  have missing : Retrieval.isMissing ⟨∅, info⟩ k = true := by simpa [Retrieval.isMissing] using isMissing
  have hasHash : p.hasExpectedHash ⟨∅, info⟩ k rwset = true := by
    simp [hasExpectedHash, getD_eq_getD_getElem?, hash]
  have settled : p.settleFromTransientStore k ⟨∅, info⟩ (k.ns, ⟨k.collection, rwset⟩) = Retrieval.store ⟨∅, info⟩ k rwset := by
    simp [settleFromTransientStore, missing, hasHash]
  have scanned : p.populateFromTransientStore (offer k rwset).transientStore (offer k rwset).order ⟨∅, info⟩ =
      Retrieval.store ⟨∅, info⟩ k rwset := by
    simp [offer, populateFromTransientStore, scanTransientStore, missing, collections, settled]
  have cached : p.populateFromCache infos (offer k rwset).prefetchedPvtdata ⟨∅, info⟩ = ⟨∅, info⟩ := rfl
  rw [retrievePvtdata, isInfo]
  simp only [bind, Except.bind, notEmpty, cached, scanned, Bool.false_eq_true, if_false]
  split
  · rfl
  · rfl

/-- The private data of a block that is built accounts for every write-set of the block, whatever the sources hold,
exactly if no collection that the peer is eligible for is listed with two hashes. -/
theorem retrieved_accounted_iff (p : PvtdataProvider Config) (cfgOf : CollectionCriteria → Result Config)
    (block : Block) : ((∀ srcs r, p.retrieveForBlock cfgOf srcs block = .ok r → Accounted p cfgOf srcs block r) ↔
      ((∃ srcs r, p.retrieveForBlock cfgOf srcs block = .ok r) → Unambiguous p cfgOf block)) ∧
    ∀ infos, getTxPvtdataInfoFromBlock cfgOf block = .ok infos →
      (∀ tx ∈ infos, toStore p tx.invalid → ∀ col ∈ tx.collectionPvtdataInfo,
        ∃ policy, p.newSimpleCollection col.collectionConfig = .ok policy) →
      ∀ srcs, ∃ r, p.retrieveForBlock cfgOf srcs block = .ok r := by
  refine ⟨⟨?_, ?_⟩, ?_⟩
  · intro accounted ⟨srcs, r, got⟩ flags isFilter seq code txi mem stored w written elig rwset last
    obtain ⟨infos, areInfos, got⟩ := bind_eq_ok.mp got
    obtain ⟨info, isInfo, _⟩ := bind_eq_ok.mp got
    obtain ⟨flags', isFilter', areListings⟩ := @listings_of_block _ p _ _ _ areInfos
    obtain rfl := some.inj (isFilter.symm.trans isFilter')
    have computed : Computed (listings p infos) info := computed_of_computeEligibility isInfo
    rw [areListings] at computed
    have isMissing : writtenKey seq txi w ∈ info.remainingEligibleMissingKeys := by
      rw [computed.remaining]
      exact ⟨_, mem_blockListings.mpr ⟨seq, code, txi, mem, stored, w, written, rfl⟩, rfl, elig⟩
    have hash : info.expectedHashes[writtenKey seq txi w]? = some (p.computeSHA256 rwset) := by
      rw [computed.expected, lastFor_blockListings mem stored elig]
      exact last
    have offered : p.retrieveForBlock cfgOf (offer (writtenKey seq txi w) rwset) block = .ok _ :=
      bind_eq_ok.mpr ⟨infos, areInfos, retrievePvtdata_offer isInfo isMissing hash⟩
    have isFound : rwset ∈ found (prepareBlockPvtdata (Retrieval.store ⟨∅, info⟩ (writtenKey seq txi w) rwset))
        seq w.1 w.2.collectionName := by
      rw [found_prepareBlockPvtdata]
      refine List.mem_map.mpr ⟨(writtenKey seq txi w, rwset), mem_filter.mpr ⟨?_, by simp [writtenKey]⟩, rfl⟩
      rw [mem_toList_iff_getElem?_eq_some]
      simp [Retrieval.store]
    cases (accounted _ _ offered).each flags isFilter seq code txi mem stored w written with
    | stored rwset' _ hash' isFound' _ =>
      rw [isFound', mem_singleton] at isFound
      rw [isFound, hash']
    | missing _ notFound _ => simp [notFound] at isFound
    | ineligible _ notFound _ => simp [notFound] at isFound
    | purged _ _ notFound _ => simp [notFound] at isFound
  · intro unambiguous srcs r got
    exact accounted_of_unambiguous got (unambiguous ⟨srcs, r, got⟩)
  · intro infos areInfos built srcs
    obtain ⟨info, isInfo⟩ := computeEligibility_isOk built
    rw [retrieveForBlock, areInfos]
    simp only [bind, Except.bind, retrievePvtdata, isInfo]
    split
    · exact ⟨_, rfl⟩
    · split
      · exact ⟨_, rfl⟩
      · split
        · exact ⟨_, rfl⟩
        · exact ⟨_, rfl⟩

end

namespace TwoHashes

def listing (hash : Bytes) : CollHashedRwSet := ⟨[7], ⟨[], [⟨[5], false, [6], false⟩], []⟩, some hash⟩

def transaction : TxInfo := ⟨[3], [4], [], ⟨[⟨[8], ⟨[], [], [], []⟩, [listing [1], listing [2]]⟩]⟩⟩

def block : Block := ⟨some [10], [some transaction]⟩

def provider : PvtdataProvider Unit where
  mspID := [9]
  blockNum := 5
  storePvtdataOfInvalidTx := true
  skipPullingInvalidTransactions := false
  newSimpleCollection _ := .ok ⟨[[9]], false⟩
  endorserMSPID _ := none
  computeSHA256 := id

def srcs : Sources := ⟨[⟨0, [⟨[8], [⟨[7], [2]⟩]⟩]⟩], [], fun _ => .ok [], []⟩

/-- A transaction lists a collection with two hashes.  A write-set with the second one is stored, and nothing in the
private data is for the first one. -/
theorem firstHash_unaccounted : ∃ r, provider.retrieveForBlock (fun _ => .ok ()) srcs block = .ok r ∧
    ¬ Accounted provider (fun _ => .ok ()) srcs block r := by
  have run : (provider.retrieveForBlock (fun _ => .ok ()) srcs block).toOption.any
      (fun r => decide (found r 0 [8] [7] = [[2]])) = true := by decide +kernel
  obtain ⟨r, got, isFound⟩ := (Option.any_eq_true ..).mp run
  refine ⟨r, toOption_eq_some.mp got, ?_⟩
  intro accounted
  have outcome := accounted.each [10] rfl 0 10 transaction (by decide) (by decide) ([8], listing [1]) (by decide)
  cases outcome with
  | stored rwset _ hash isFound' _ =>
    have isRwset := (of_decide_eq_true isFound).symm.trans isFound'
    obtain rfl : [2] = rwset := by simpa using isRwset
    exact absurd hash (by decide)
  | missing _ notFound _ => exact absurd ((of_decide_eq_true isFound).symm.trans notFound) (by decide)
  | ineligible notEligible _ _ => exact absurd notEligible (by decide)
  | purged _ _ notFound _ => exact absurd ((of_decide_eq_true isFound).symm.trans notFound) (by decide)

end TwoHashes

end Fabric.Proof.Privdata
