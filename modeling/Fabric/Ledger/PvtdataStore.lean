import Fabric.Ledger.PurgeMgmt

/-! # The private data store -/

namespace Fabric.Ledger.PvtdataStorage

open Lib Ledger Ledger.PurgeMgmt

structure NsColl where
  ns : Bytes
  coll : Bytes
  deriving DecidableEq

structure NsCollBlk where
  ns : Bytes
  coll : Bytes
  blkNum : Nat
  deriving DecidableEq

structure DataKey where
  blkNum : Nat
  txNum : Nat
  ns : Bytes
  coll : Bytes
  deriving DecidableEq

structure HashedIndexKey where
  ns : Bytes
  coll : Bytes
  pvtkeyHash : Bytes
  blkNum : Nat
  txNum : Nat
  deriving DecidableEq

def bytesField (b : Bytes) : List Nat := b.map UInt8.toNat

theorem bytesField_injective : Function.Injective bytesField :=
  List.map_injective_iff.mpr fun _ _ same => UInt8.toNat_inj.mp same

def NsColl.fields (k : NsColl) : List (List Nat) := [bytesField k.ns, bytesField k.coll]

def NsCollBlk.fields (k : NsCollBlk) : List (List Nat) := [bytesField k.ns, bytesField k.coll, [k.blkNum]]

def DataKey.fields (k : DataKey) : List (List Nat) := [[k.blkNum], [k.txNum], bytesField k.ns, bytesField k.coll]

def HashedIndexKey.fields (k : HashedIndexKey) : List (List Nat) :=
  [bytesField k.ns, bytesField k.coll, bytesField k.pvtkeyHash, [k.blkNum], [k.txNum]]

instance : Ord NsColl := ⟨compareOn NsColl.fields⟩

instance : Ord NsCollBlk := ⟨compareOn NsCollBlk.fields⟩

instance : Ord DataKey := ⟨compareOn DataKey.fields⟩

instance : Ord HashedIndexKey := ⟨compareOn HashedIndexKey.fields⟩

instance : Std.TransOrd NsColl := inferInstanceAs (Std.TransCmp (compareOn NsColl.fields))

instance : Std.TransOrd NsCollBlk := inferInstanceAs (Std.TransCmp (compareOn NsCollBlk.fields))

instance : Std.TransOrd DataKey := inferInstanceAs (Std.TransCmp (compareOn DataKey.fields))

instance : Std.TransOrd HashedIndexKey := inferInstanceAs (Std.TransCmp (compareOn HashedIndexKey.fields))

instance : Std.LawfulEqOrd NsCollBlk :=
  lawfulEqOrd_of_injective (f := NsCollBlk.fields)
    (by rintro ⟨_, _, _⟩ ⟨_, _, _⟩ same; simpa [NsCollBlk.fields, bytesField_injective.eq_iff] using same)

instance : Std.LawfulEqOrd DataKey :=
  lawfulEqOrd_of_injective (f := DataKey.fields)
    (by rintro ⟨_, _, _, _⟩ ⟨_, _, _, _⟩ same; simpa [DataKey.fields, bytesField_injective.eq_iff] using same)

instance : Std.LawfulEqOrd HashedIndexKey :=
  lawfulEqOrd_of_injective (f := HashedIndexKey.fields)
    (by rintro ⟨_, _, _, _, _⟩ ⟨_, _, _, _, _⟩ same
        simpa [HashedIndexKey.fields, bytesField_injective.eq_iff] using same)

def DataKey.nsCollBlk (k : DataKey) : NsCollBlk := ⟨k.ns, k.coll, k.blkNum⟩

def DataKey.height (k : DataKey) : Height := ⟨k.blkNum, k.txNum⟩

def HashedIndexKey.dataKey (k : HashedIndexKey) : DataKey := ⟨k.blkNum, k.txNum, k.ns, k.coll⟩

abbrev MissingEntries := Map NsCollBlk (List Nat)

structure ExpiryData where
  presentData : List (NsColl × Nat)
  missingData : List NsColl

structure Store where
  lastCommittedBlock : Option Nat
  dataEntries : Map DataKey PvtKVRWSet
  hashedIndexEntries : Map HashedIndexKey Bytes
  purgeMarkers : Map CollKey Height
  purgeMarkersForRecon : Map CollKey Height
  purgeMarkerColls : Map NsColl Height
  expiryEntries : Map ExpiryInfoKey ExpiryData
  elgPrioMissing : MissingEntries
  elgDeprioMissing : MissingEntries
  inelgMissing : MissingEntries

def Store.empty : Store := ⟨none, ∅, ∅, ∅, ∅, ∅, ∅, ∅, ∅, ∅⟩

def Store.nextBlockNum (s : Store) : Nat := s.lastCommittedBlock.elim 0 (· + 1)

abbrev TxPvtData := Nat × TxPvtRwSet

structure MissingPvtData where
  ns : Bytes
  coll : Bytes
  isEligible : Bool

abbrev TxMissingPvtData := Map Nat (List MissingPvtData)

structure PurgeMarker where
  ns : Bytes
  coll : Bytes
  pvtkeyHash : Bytes
  txNum : Nat

def prepareDataEntries (blockNum : Nat) (pvtData : List TxPvtData) : List (DataKey × PvtKVRWSet) :=
  pvtData.flatMap fun txPvtdata => txPvtdata.2.nsPvtRwSet.flatMap fun nsPvtdata =>
    nsPvtdata.collPvtRwSets.map fun collPvtdata =>
      (⟨blockNum, txPvtdata.1, nsPvtdata.nameSpace, collPvtdata.collectionName⟩, collPvtdata.kvRwSet)

def hashedIndexEntry (codec : Codec) (k : DataKey) (w : KVWrite) : HashedIndexKey × Bytes :=
  (⟨k.ns, k.coll, codec.computeHash w.key, k.blkNum, k.txNum⟩, w.key)

def prepareHashedIndexEntries (codec : Codec) (dataEntries : List (DataKey × PvtKVRWSet)) :
    List (HashedIndexKey × Bytes) :=
  dataEntries.flatMap fun d => d.2.writes.map (hashedIndexEntry codec d.1)

def setMissing (entries : MissingEntries) (k : NsCollBlk) (txNum : Nat) : MissingEntries :=
  let txNums := entries[k]?.getD []
  entries.insert k (if txNum ∈ txNums then txNums else txNums ++ [txNum])

def prepareMissingDataEntries (committingBlk : Nat) (missingPvtData : TxMissingPvtData) (eligible : Bool) :
    MissingEntries :=
  let missing := missingPvtData.toList.flatMap fun e => (e.2.filter (·.isEligible = eligible)).map fun m => (e.1, m)
  missing.foldl (fun entries e => setMissing entries ⟨e.2.ns, e.2.coll, committingBlk⟩ e.1) ∅

def ExpiryData.addPresentData (d : ExpiryData) (k : NsColl) (txNum : Nat) : ExpiryData :=
  { d with presentData := d.presentData ++ [(k, txNum)] }

def ExpiryData.addMissingData (d : ExpiryData) (k : NsColl) : ExpiryData :=
  { d with missingData := if k ∈ d.missingData then d.missingData else d.missingData ++ [k] }

section

variable (btlPolicy : BTLPolicy)

def updateExpiryData (entries : Map ExpiryInfoKey ExpiryData) (k : NsCollBlk) (change : ExpiryData → ExpiryData) :
    Map ExpiryInfoKey ExpiryData :=
  let expKey := expiryInfoKey btlPolicy k.ns k.coll k.blkNum
  if neverExpires expKey.expiryBlk then entries
  else entries.insert expKey (change (entries[expKey]?.getD ⟨[], []⟩))

def prepareExpiryEntries (dataKeys : List DataKey) (missingKeys : List NsCollBlk) : Map ExpiryInfoKey ExpiryData :=
  let entries := dataKeys.foldl
    (fun entries k => updateExpiryData btlPolicy entries k.nsCollBlk (·.addPresentData ⟨k.ns, k.coll⟩ k.txNum)) ∅
  missingKeys.foldl (fun entries k => updateExpiryData btlPolicy entries k (·.addMissingData ⟨k.ns, k.coll⟩)) entries

end

def PurgeMarker.key (m : PurgeMarker) : CollKey := ⟨m.ns, m.coll, m.pvtkeyHash⟩

variable (blkNum : Nat)

def preparePurgeMarkerEntries (purgeMarkers : List PurgeMarker) : List (CollKey × Height) :=
  purgeMarkers.map fun m => (m.key, ⟨blkNum, m.txNum⟩)

def addPurgeMarkerCollEntry (visited : Map NsColl Height) (m : PurgeMarker) : Map NsColl Height :=
  let nsColl : NsColl := ⟨m.ns, m.coll⟩
  let version : Height := ⟨blkNum, m.txNum⟩
  match visited[nsColl]? with
  | some visitedVersion => if visitedVersion.compare version > 0 then visited else visited.insert nsColl version
  | none => visited.insert nsColl version

def preparePurgeMarkerCollEntries (purgeMarkers : List PurgeMarker) : Map NsColl Height :=
  purgeMarkers.foldl (addPurgeMarkerCollEntry blkNum) ∅

def Store.commit (codec : Codec) (btlPolicy : BTLPolicy) (s : Store) (blockNum : Nat) (pvtData : List TxPvtData)
    (missingPvtData : TxMissingPvtData) (purgeMarkers : List PurgeMarker) : Result Store :=
  let expectedBlockNum := s.nextBlockNum
  if expectedBlockNum ≠ blockNum then
    .error (.error s!"expected block number={expectedBlockNum}, received block number={blockNum}")
  else
    let dataEntries := prepareDataEntries blockNum pvtData
    let elgMissing := prepareMissingDataEntries blockNum missingPvtData true
    let inelgMissing := prepareMissingDataEntries blockNum missingPvtData false
    let markers := preparePurgeMarkerEntries blockNum purgeMarkers
    .ok {
      lastCommittedBlock := some blockNum
      dataEntries := putAll s.dataEntries dataEntries
      hashedIndexEntries := putAll s.hashedIndexEntries (prepareHashedIndexEntries codec dataEntries)
      purgeMarkers := putAll s.purgeMarkers markers
      purgeMarkersForRecon := putAll s.purgeMarkersForRecon markers
      purgeMarkerColls := s.purgeMarkerColls ∪ preparePurgeMarkerCollEntries blockNum purgeMarkers
      expiryEntries := s.expiryEntries ∪
        prepareExpiryEntries btlPolicy (dataEntries.map (·.1)) (elgMissing.keys ++ inelgMissing.keys)
      elgPrioMissing := s.elgPrioMissing ∪ elgMissing
      elgDeprioMissing := s.elgDeprioMissing
      inelgMissing := s.inelgMissing ∪ inelgMissing }

def isExpired (btlPolicy : BTLPolicy) (k : NsCollBlk) (latestBlkNum : Nat) : Bool :=
  decide (btlPolicy.getExpiringBlock k.ns k.coll k.blkNum ≤ latestBlkNum)

def markedForPurge (markers : Map CollKey Height) (key : CollKey) (ht : Height) : Bool :=
  markers[key]?.any fun purgeMarkerHt => decide (ht.compare purgeMarkerHt ≤ 0)

def Store.keyPotentiallyPurged (s : Store) (k : DataKey) : Bool :=
  s.purgeMarkerColls[(⟨k.ns, k.coll⟩ : NsColl)]?.any fun purgeMarkerHt => decide (k.height.compare purgeMarkerHt ≤ 0)

def Store.removePurgedDataFromCollPvtRWset (codec : Codec) (s : Store) (k : DataKey) (v : PvtKVRWSet) : PvtKVRWSet :=
  if s.keyPotentiallyPurged k then
    { v with writes := v.writes.filter fun w =>
        !markedForPurge s.purgeMarkers ⟨k.ns, k.coll, codec.computeHash w.key⟩ k.height }
  else v

abbrev KVHashes := Map Bytes Bytes

def Store.removeAppInitiatedPurgesUsingReconMarker (s : Store) (kvHashes : KVHashes) (ns coll : Bytes) (ht : Height) :
    KVHashes :=
  kvHashes.filter fun keyHash _ => !markedForPurge s.purgeMarkersForRecon ⟨ns, coll, keyHash⟩ ht

abbrev BlocksPvtData := Map Nat (List TxPvtData)

structure EntriesForPvtDataOfOldBlocks where
  dataEntries : Map DataKey PvtKVRWSet
  expiryEntries : Map ExpiryInfoKey ExpiryData
  prioritizedMissingDataEntries : MissingEntries
  deprioritizedMissingDataEntries : MissingEntries

section

variable (btlPolicy : BTLPolicy) (s : Store) (p : EntriesForPvtDataOfOldBlocks)

-- Data whose expiry entry is gone has been purged and is not stored again.
def prepareDataAndExpiryEntry (d : DataKey × PvtKVRWSet) :
    EntriesForPvtDataOfOldBlocks :=
  let expKey := expiryInfoKey btlPolicy d.1.ns d.1.coll d.1.blkNum
  if neverExpires expKey.expiryBlk then { p with dataEntries := p.dataEntries.insert d.1 d.2 }
  else match p.expiryEntries[expKey]?.or s.expiryEntries[expKey]? with
  | none => p
  | some expData => { p with
      dataEntries := p.dataEntries.insert d.1 d.2
      expiryEntries := p.expiryEntries.insert expKey (expData.addPresentData ⟨d.1.ns, d.1.coll⟩ d.1.txNum) }

def reflectReconciledData (k : DataKey) : EntriesForPvtDataOfOldBlocks :=
  let key := k.nsCollBlk
  let prio := (p.prioritizedMissingDataEntries[key]?.or s.elgPrioMissing[key]?).getD []
  let deprio := (p.deprioritizedMissingDataEntries[key]?.or s.elgDeprioMissing[key]?).getD []
  if k.txNum ∈ prio then
    { p with prioritizedMissingDataEntries := p.prioritizedMissingDataEntries.insert key (prio.erase k.txNum) }
  else if k.txNum ∈ deprio then
    { p with deprioritizedMissingDataEntries := p.deprioritizedMissingDataEntries.insert key (deprio.erase k.txNum) }
  else p

def reflectPriority (e : NsCollBlk × Nat) : EntriesForPvtDataOfOldBlocks :=
  match p.prioritizedMissingDataEntries[e.1]?.or s.elgPrioMissing[e.1]? with
  | none => p
  | some prio =>
    let deprio := (p.deprioritizedMissingDataEntries[e.1]?.or s.elgDeprioMissing[e.1]?).getD []
    { p with
      prioritizedMissingDataEntries := p.prioritizedMissingDataEntries.insert e.1 (prio.erase e.2)
      deprioritizedMissingDataEntries := p.deprioritizedMissingDataEntries.insert e.1
        (if e.2 ∈ deprio then deprio else deprio ++ [e.2]) }

def putMissing (entries changes : MissingEntries) : MissingEntries :=
  (entries ∪ changes).filter fun _ txNums => !txNums.isEmpty

def Store.commitPvtDataOfOldBlocks (codec : Codec) (blocksPvtData : BlocksPvtData)
    (unreconciledMissingData : List (NsCollBlk × Nat)) : Store :=
  let dataEntries := blocksPvtData.toList.flatMap fun b => prepareDataEntries b.1 b.2
  let p := dataEntries.foldl (prepareDataAndExpiryEntry btlPolicy s) ⟨∅, ∅, ∅, ∅⟩
  let p := p.dataEntries.keys.foldl (reflectReconciledData s) p
  let p := unreconciledMissingData.foldl (reflectPriority s) p
  { s with
    dataEntries := s.dataEntries ∪ p.dataEntries
    hashedIndexEntries := putAll s.hashedIndexEntries (prepareHashedIndexEntries codec p.dataEntries.toList)
    expiryEntries := s.expiryEntries ∪ p.expiryEntries
    elgPrioMissing := putMissing s.elgPrioMissing p.prioritizedMissingDataEntries
    elgDeprioMissing := putMissing s.elgDeprioMissing p.deprioritizedMissingDataEntries }

end

def ExpiryData.dataKeys (d : ExpiryData) (committingBlk : Nat) : List DataKey :=
  d.presentData.map fun e => ⟨committingBlk, e.2, e.1.ns, e.1.coll⟩

def ExpiryData.missingDataKeys (d : ExpiryData) (committingBlk : Nat) : List NsCollBlk :=
  d.missingData.map fun k => ⟨k.ns, k.coll, committingBlk⟩

-- An absent value is decoded to an empty write-set.
def Store.retrieveDataEntries (s : Store) (dataKeys : List DataKey) : List (DataKey × PvtKVRWSet) :=
  dataKeys.map fun k => (k, s.dataEntries[k]?.getD ⟨[], []⟩)

def Store.purgeExpiryEntry (codec : Codec) (s : Store) (e : ExpiryInfoKey × ExpiryData) : Store :=
  let dataKeys := e.2.dataKeys e.1.committingBlk
  let missingDataKeys := e.2.missingDataKeys e.1.committingBlk
  { s with
    expiryEntries := s.expiryEntries.erase e.1
    dataEntries := eraseAll s.dataEntries dataKeys
    elgPrioMissing := eraseAll s.elgPrioMissing missingDataKeys
    elgDeprioMissing := eraseAll s.elgDeprioMissing missingDataKeys
    inelgMissing := eraseAll s.inelgMissing missingDataKeys
    hashedIndexEntries := eraseAll s.hashedIndexEntries
      ((prepareHashedIndexEntries codec (s.retrieveDataEntries dataKeys)).map (·.1)) }

def Store.retrieveExpiryEntries (s : Store) (maxBlkNum : Nat) : List (ExpiryInfoKey × ExpiryData) :=
  s.expiryEntries.toList.filter fun e => decide (e.1.expiryBlk ≤ maxBlkNum)

structure PurgeUpdatesProcessor where
  pvtWrites : Map DataKey PvtKVRWSet
  hashedIndexDeletions : List HashedIndexKey
  purgeMarkerDeletions : List CollKey

def newPurgeUpdatesProcessor : PurgeUpdatesProcessor := ⟨∅, [], []⟩

-- The write-set is fetched once and loses the first write of the raw key.
def PurgeUpdatesProcessor.process (p : PurgeUpdatesProcessor) (s : Store) (e : HashedIndexKey × Bytes) :
    PurgeUpdatesProcessor :=
  let dataKey := e.1.dataKey
  let collWS := (p.pvtWrites[dataKey]?.or s.dataEntries[dataKey]?).getD ⟨[], []⟩
  { p with
    pvtWrites := p.pvtWrites.insert dataKey { collWS with writes := collWS.writes.eraseP (·.key == e.2) }
    hashedIndexDeletions := p.hashedIndexDeletions ++ [e.1] }

def PurgeUpdatesProcessor.addProcessedPurgeMarkerForDeletion (p : PurgeUpdatesProcessor) (k : CollKey) :
    PurgeUpdatesProcessor :=
  { p with purgeMarkerDeletions := p.purgeMarkerDeletions ++ [k] }

-- The deletions and the trimmed write-sets are written together and the processor starts anew.
def PurgeUpdatesProcessor.commitPendingChanges (p : PurgeUpdatesProcessor) (s : Store) : Store :=
  { s with
    dataEntries := s.dataEntries ∪ p.pvtWrites
    hashedIndexEntries := eraseAll s.hashedIndexEntries p.hashedIndexDeletions
    purgeMarkers := eraseAll s.purgeMarkers p.purgeMarkerDeletions }

def Store.hashedIndexRange (s : Store) (marker : CollKey × Height) : List (HashedIndexKey × Bytes) :=
  s.hashedIndexEntries.toList.filter fun e =>
    (⟨e.1.ns, e.1.coll, e.1.pvtkeyHash⟩ : CollKey) == marker.1 &&
      (decide (e.1.blkNum < marker.2.blockNum) || e.1.blkNum == marker.2.blockNum && decide (e.1.txNum ≤ marker.2.txNum))

def Store.deleteDataMarkedForPurge (s : Store) : Store :=
  let processMarker (p : PurgeUpdatesProcessor) (marker : CollKey × Height) : PurgeUpdatesProcessor :=
    ((s.hashedIndexRange marker).foldl (fun p e => p.process s e) p).addProcessedPurgeMarkerForDeletion marker.1
  (s.purgeMarkers.toList.foldl processMarker newPurgeUpdatesProcessor).commitPendingChanges s

-- Format V11 keeps the data of a transaction under one key; it is given with its block number.
structure OldStore where
  v11Data : List (Nat × TxPvtData)
  store : Store

def constructHashedIndexFor (codec : Codec) (old : OldStore) : Store :=
  let converted := old.v11Data.flatMap fun b => prepareDataEntries b.1 [b.2]
  { old.store with
    dataEntries := putAll old.store.dataEntries converted
    hashedIndexEntries := putAll old.store.hashedIndexEntries
      (prepareHashedIndexEntries codec (old.store.dataEntries.toList ++ converted)) }

end Fabric.Ledger.PvtdataStorage
