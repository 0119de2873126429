import Fabric.Ledger.PvtdataStore
import Fabric.Lib.Grouping

/-! # Retrieval of the private data of a block

The provider looks for the private write-sets that the peer is eligible for in the data that came with the block, in
the transient store and at other peers. -/

namespace Fabric.Gossip.Privdata

open Lib Ledger Ledger.PvtdataStorage

structure Endorsement where
  endorser : Bytes
  signature : Bytes
  deriving DecidableEq

structure TxInfo where
  channelID : Bytes
  txID : Bytes
  endorsements : List Endorsement
  txRWSet : TxRwSet
  deriving DecidableEq

-- Without the transactions filter if the metadata lacks it; envelopes that are not parsed as endorser transactions
-- are left out of the private data.
structure Block where
  txsFilter : Option (List Nat)
  data : List (Option TxInfo)

structure CollectionCriteria where
  channel : Bytes
  ns : Bytes
  collection : Bytes

/-- The access policy of a collection, its filter applied to the signed data of the peer itself. -/
structure SimpleCollection where
  memberOrgs : List Bytes
  accessFilter : Bool

structure CollectionPvtdataInfo (Config : Type) where
  ns : Bytes
  collection : Bytes
  expectedHash : Bytes
  collectionConfig : Config
  endorsers : List Endorsement

structure TxPvtdataInfo (Config : Type) where
  txID : Bytes
  invalid : Bool
  seqInBlock : Nat
  collectionPvtdataInfo : List (CollectionPvtdataInfo Config)

structure CollectionPvtReadWriteSet where
  collectionName : Bytes
  rwset : Bytes
  deriving DecidableEq

structure NsPvtReadWriteSet where
  ns : Bytes
  collectionPvtRwset : List CollectionPvtReadWriteSet

abbrev TxPvtReadWriteSet := List NsPvtReadWriteSet

structure TxPvtData where
  seqInBlock : Nat
  writeSet : TxPvtReadWriteSet

structure BlockPvtdata where
  pvtData : Map Nat TxPvtData
  missingPvtData : TxMissingPvtData

structure RwSetKey where
  txID : Bytes
  seqInBlock : Nat
  ns : Bytes
  collection : Bytes
  deriving DecidableEq

def RwSetKey.fields (k : RwSetKey) : List (List Nat) :=
  [bytesField k.txID, [k.seqInBlock], bytesField k.ns, bytesField k.collection]

instance : Ord RwSetKey := ⟨compareOn RwSetKey.fields⟩

instance : Std.TransOrd RwSetKey := inferInstanceAs (Std.TransCmp (compareOn RwSetKey.fields))

instance : Std.LawfulEqOrd RwSetKey :=
  lawfulEqOrd_of_injective (f := RwSetKey.fields)
    (by rintro ⟨_, _, _, _⟩ ⟨_, _, _, _⟩ same; simpa [RwSetKey.fields, bytesField_injective.eq_iff] using same)

structure DigKey where
  txID : Bytes
  ns : Bytes
  collection : Bytes
  blockSeq : Nat
  seqInBlock : Nat
  deriving DecidableEq

def DigKey.key (dig : DigKey) : RwSetKey := ⟨dig.txID, dig.seqInBlock, dig.ns, dig.collection⟩

structure PvtDataElement where
  digest : DigKey
  payload : List Bytes
  deriving DecidableEq

structure FetchedPvtDataContainer where
  availableElements : List PvtDataElement
  purgedElements : List DigKey

-- `GetTxPvtdataInfoFromBlock` skips collections that are only read.
def containsWrites (colHashedRWSet : CollHashedRwSet) : Bool :=
  ¬ (colHashedRWSet.hashedRwSet.hashedWrites.length = 0 ∧ colHashedRWSet.hashedRwSet.metadataWrites.length = 0)

def TxInfo.writtenCollections (txInfo : TxInfo) : List (Bytes × CollHashedRwSet) :=
  txInfo.txRWSet.nsRwSets.flatMap fun ns => (ns.collHashedRwSets.filter containsWrites).map fun coll => (ns.nameSpace, coll)

section

variable {Config : Type} (retrieveCollectionConfig : CollectionCriteria → Result Config)

def collectionPvtdataInfo (txInfo : TxInfo) (written : Bytes × CollHashedRwSet) : Result (CollectionPvtdataInfo Config) := do
  let colConfig ← retrieveCollectionConfig ⟨txInfo.channelID, written.1, written.2.collectionName⟩
  return ⟨written.1, written.2.collectionName, written.2.pvtRwSetHash.getD [], colConfig, txInfo.endorsements⟩

def txPvtdataInfo (seqInBlock : Nat) (code : Nat) (txInfo : TxInfo) : Result (TxPvtdataInfo Config) := do
  let colPvtdataInfo ← txInfo.writtenCollections.mapM (collectionPvtdataInfo retrieveCollectionConfig txInfo)
  return ⟨txInfo.txID, code ≠ 0, seqInBlock, colPvtdataInfo⟩

def Block.transactions (block : Block) (txsFilter : List Nat) : List (Nat × Nat × TxInfo) :=
  (block.data.zip txsFilter).zipIdx.filterMap fun ((txInfo, code), seqInBlock) => txInfo.map (seqInBlock, code, ·)

def getTxPvtdataInfoFromBlock (block : Block) : Result (List (TxPvtdataInfo Config)) :=
  match block.txsFilter with
  | none => .error (.error "Block.Metadata is nil or Block.Metadata lacks a Tx filter bitmap")
  | some txsFilter =>
    if txsFilter.length ≠ block.data.length then
      let dataSize := block.data.length
      let filterSize := txsFilter.length
      .error (.error s!"block data size({dataSize}) is different from Tx filter size({filterSize})")
    else (block.transactions txsFilter).mapM fun (seqInBlock, code, txInfo) =>
      txPvtdataInfo retrieveCollectionConfig seqInBlock code txInfo

end

structure RwsetInfo where
  invalid : Bool

structure PvtdataRetrievalInfo where
  sources : Map RwSetKey (List Endorsement)
  expectedHashes : Map RwSetKey Bytes
  txns : List Bytes
  remainingEligibleMissingKeys : Map RwSetKey RwsetInfo
  resolvedAsToReconcileLater : Map RwSetKey RwsetInfo
  ineligibleMissingKeys : Map RwSetKey RwsetInfo

structure PvtdataProvider (Config : Type) where
  mspID : Bytes
  blockNum : Nat
  storePvtdataOfInvalidTx : Bool
  skipPullingInvalidTransactions : Bool
  newSimpleCollection : Config → Result SimpleCollection
  endorserMSPID : Bytes → Option Bytes
  computeSHA256 : Bytes → Bytes

def txKey {Config : Type} (tx : TxPvtdataInfo Config) (col : CollectionPvtdataInfo Config) : RwSetKey :=
  ⟨tx.txID, tx.seqInBlock, col.ns, col.collection⟩

namespace PvtdataProvider

variable {Config : Type} (p : PvtdataProvider Config)

def endorsersFromEligibleOrgs (endorsers : List Endorsement) (orgs : List Bytes) : List Endorsement :=
  endorsers.filter fun e => (p.endorserMSPID e.endorser).any (· ∈ orgs)

def addCollection (tx : TxPvtdataInfo Config) (info : PvtdataRetrievalInfo) (col : CollectionPvtdataInfo Config) :
    Result PvtdataRetrievalInfo := do
  let policy ← p.newSimpleCollection col.collectionConfig
  let key := txKey tx col
  if p.mspID ∉ policy.memberOrgs ∧ ¬ policy.accessFilter then
    return { info with ineligibleMissingKeys := info.ineligibleMissingKeys.insert key ⟨false⟩ }
  else
    return { info with
      remainingEligibleMissingKeys := info.remainingEligibleMissingKeys.insert key ⟨tx.invalid⟩
      sources := info.sources.insert key (p.endorsersFromEligibleOrgs col.endorsers policy.memberOrgs)
      expectedHashes := info.expectedHashes.insert key col.expectedHash }

def addTx (info : PvtdataRetrievalInfo) (tx : TxPvtdataInfo Config) : Result PvtdataRetrievalInfo :=
  let info := { info with txns := info.txns ++ [tx.txID] }
  if tx.invalid ∧ ¬ p.storePvtdataOfInvalidTx then .ok info
  else tx.collectionPvtdataInfo.foldlM (p.addCollection tx) info

def computeEligibility (pvtdataToRetrieve : List (TxPvtdataInfo Config)) : Result PvtdataRetrievalInfo :=
  pvtdataToRetrieve.foldlM p.addTx ⟨∅, ∅, [], ∅, ∅, ∅⟩

end PvtdataProvider

structure Retrieval where
  pvtdata : Map RwSetKey Bytes
  info : PvtdataRetrievalInfo

namespace Retrieval

variable (s : Retrieval) (key : RwSetKey)

def isMissing : Bool := key ∈ s.info.remainingEligibleMissingKeys

def resolve : Retrieval :=
  { s with info.remainingEligibleMissingKeys := s.info.remainingEligibleMissingKeys.erase key }

def store (rwset : Bytes) : Retrieval :=
  { s.resolve key with pvtdata := s.pvtdata.insert key rwset }

def reconcileLater : Retrieval :=
  match s.info.remainingEligibleMissingKeys[key]? with
  | none => s
  | some info => { s.resolve key with
      info.resolvedAsToReconcileLater := s.info.resolvedAsToReconcileLater.insert key info }

end Retrieval

def getTxIDBySeqInBlock {Config : Type} (seqInBlock : Nat) (pvtdataToRetrieve : List (TxPvtdataInfo Config)) : Bytes :=
  match pvtdataToRetrieve.find? (·.seqInBlock = seqInBlock) with
  | some txPvtdataItem => txPvtdataItem.txID
  | none => []

def TxPvtReadWriteSet.collections (writeSet : TxPvtReadWriteSet) : List (Bytes × CollectionPvtReadWriteSet) :=
  writeSet.flatMap fun ns => ns.collectionPvtRwset.map fun col => (ns.ns, col)

structure Sources where
  prefetchedPvtdata : List TxPvtData
  order : List RwSetKey
  transientStore : RwSetKey → Result (List (Result (Option TxPvtReadWriteSet)))
  answers : List (Result FetchedPvtDataContainer)

namespace PvtdataProvider

variable {Config : Type} (p : PvtdataProvider Config)

def hasExpectedHash (s : Retrieval) (key : RwSetKey) (rwset : Bytes) : Bool :=
  s.info.expectedHashes.getD key [] = p.computeSHA256 rwset

-- A write-set from the cache or from another peer that does not have the hash in the block is left to reconciliation.
def settle (s : Retrieval) (key : RwSetKey) (rwset : Bytes) : Retrieval :=
  if ¬ s.isMissing key then s
  else if p.hasExpectedHash s key rwset then s.store key rwset
  else s.reconcileLater key

variable (pvtdataToRetrieve : List (TxPvtdataInfo Config))

def populateFromCacheTx (s : Retrieval) (txPvtdata : TxPvtData) : Retrieval :=
  let txID := getTxIDBySeqInBlock txPvtdata.seqInBlock pvtdataToRetrieve
  if txID = [] then s
  else (TxPvtReadWriteSet.collections txPvtdata.writeSet).foldl
    (fun s (ns, col) => p.settle s ⟨txID, txPvtdata.seqInBlock, ns, col.collectionName⟩ col.rwset) s

def populateFromCache (prefetchedPvtdata : List TxPvtData) (s : Retrieval) :
    Retrieval :=
  prefetchedPvtdata.foldl (p.populateFromCacheTx pvtdataToRetrieve) s

def settleFromTransientStore (k : RwSetKey) (s : Retrieval) (found : Bytes × CollectionPvtReadWriteSet) : Retrieval :=
  let key : RwSetKey := ⟨k.txID, k.seqInBlock, found.1, found.2.collectionName⟩
  if ¬ s.isMissing key then s
  else if ¬ p.hasExpectedHash s key found.2.rwset then s
  else s.store key found.2.rwset

def scanTransientStore (k : RwSetKey) : List (Result (Option TxPvtReadWriteSet)) → Retrieval → Retrieval × Bool
  | [], s => (s, true)
  | .error _ :: _, s => (s, false)
  | .ok none :: iterator, s => scanTransientStore k iterator s
  | .ok (some pvtRwset) :: iterator, s =>
    scanTransientStore k iterator ((TxPvtReadWriteSet.collections pvtRwset).foldl (p.settleFromTransientStore k) s)

def populateFromTransientStore (transientStore : RwSetKey → Result (List (Result (Option TxPvtReadWriteSet)))) :
    List RwSetKey → Retrieval → Retrieval
  | [], s => s
  | k :: order, s =>
    if ¬ s.isMissing k then populateFromTransientStore transientStore order s
    else match transientStore k with
      | .error _ => s
      | .ok iterator =>
        match p.scanTransientStore k iterator s with
        | (s, true) => populateFromTransientStore transientStore order s
        | (s, false) => s

def digest (k : RwSetKey) : DigKey := ⟨k.txID, k.ns, k.collection, p.blockNum, k.seqInBlock⟩

def isSkipped (info : RwsetInfo) : Bool := info.invalid ∧ p.skipPullingInvalidTransactions

def dig2src (s : Retrieval) : List (DigKey × List Endorsement) :=
  (s.info.remainingEligibleMissingKeys.toList.filter fun (_, v) => ¬ p.isSkipped v).map fun (k, _) =>
    (p.digest k, s.info.sources.getD k [])

def settleElement (s : Retrieval) (element : PvtDataElement) : Retrieval :=
  element.payload.foldl (fun s rws => p.settle s element.digest.key rws) s

def populateFromRemotePeers (s : Retrieval) (answer : Result FetchedPvtDataContainer) : Retrieval × Bool :=
  let skipped := (s.info.remainingEligibleMissingKeys.toList.filter fun (_, v) => p.isSkipped v).length
  if p.dig2src s = [] then (s, false)
  else match answer with
    | .error _ => (s, true)
    | .ok fetchedData =>
      let s := fetchedData.availableElements.foldl p.settleElement s
      let s := fetchedData.purgedElements.foldl (fun s dig => s.resolve dig.key) s
      (s, skipped < s.info.remainingEligibleMissingKeys.size)

def pull : List (Result FetchedPvtDataContainer) → Retrieval → Retrieval
  | [], s => s
  | answer :: answers, s =>
    if s.info.remainingEligibleMissingKeys.isEmpty then s
    else match p.populateFromRemotePeers s answer with
      | (s, true) => pull answers s
      | (s, false) => s

end PvtdataProvider

def bySeqsInBlock (pvtdata : Map RwSetKey Bytes) : Map Nat (List (RwSetKey × Bytes)) :=
  groupInto (fun e => e.1.seqInBlock) id pvtdata.toList ∅

-- Go's maps are listed in any order; here they are listed in the order of the keys.
def toRWSet (rws : List (RwSetKey × Bytes)) : TxPvtReadWriteSet :=
  let namespaces : Map Bytes (List CollectionPvtReadWriteSet) :=
    groupInto (fun e => e.1.ns) (fun e => ⟨e.1.collection, e.2⟩) rws ∅
  namespaces.toList.map fun (ns, collectionPvtRwset) => ⟨ns, collectionPvtRwset⟩

def addMissing (keys : Map RwSetKey RwsetInfo) (isEligible : Bool) (missingPvtData : TxMissingPvtData) : TxMissingPvtData :=
  groupInto (fun e => e.1.seqInBlock) (fun e => ⟨e.1.ns, e.1.collection, isEligible⟩) keys.toList missingPvtData

def prepareBlockPvtdata (s : Retrieval) : BlockPvtdata where
  pvtData := (bySeqsInBlock s.pvtdata).map fun seqInBlock rws => ⟨seqInBlock, toRWSet rws⟩
  missingPvtData := addMissing s.info.ineligibleMissingKeys false
    (addMissing s.info.remainingEligibleMissingKeys true (addMissing s.info.resolvedAsToReconcileLater true ∅))

namespace PvtdataProvider

variable {Config : Type} (p : PvtdataProvider Config)

def retrievePvtdata (sources : Sources) (pvtdataToRetrieve : List (TxPvtdataInfo Config)) : Result BlockPvtdata := do
  let info ← p.computeEligibility pvtdataToRetrieve
  let s : Retrieval := ⟨∅, info⟩
  if s.info.remainingEligibleMissingKeys.isEmpty then return prepareBlockPvtdata s
  let s := p.populateFromCache pvtdataToRetrieve sources.prefetchedPvtdata s
  if s.info.remainingEligibleMissingKeys.isEmpty then return prepareBlockPvtdata s
  let s := p.populateFromTransientStore sources.transientStore sources.order s
  if s.info.remainingEligibleMissingKeys.isEmpty then return prepareBlockPvtdata s
  return prepareBlockPvtdata (p.pull sources.answers s)

def retrieveForBlock (retrieveCollectionConfig : CollectionCriteria → Result Config) (sources : Sources) (block : Block) :
    Result BlockPvtdata := do
  let pvtdataToRetrieve ← getTxPvtdataInfoFromBlock retrieveCollectionConfig block
  p.retrievePvtdata sources pvtdataToRetrieve

end PvtdataProvider

end Fabric.Gossip.Privdata
