import Fabric.Lib.Transition
import Fabric.Ledger.KvLedger

/-! # The goroutines of the private data store -/

namespace Fabric.Ledger.PvtdataStorage

open Lib Ledger Ledger.Validation Ledger.PurgeMgmt

structure EntrySizes where
  dataEntry : DataKey → Option PvtKVRWSet → Nat
  hashedIndexKey : HashedIndexKey → Nat
  purgeMarkerKey : CollKey → Nat

structure StoreConf where
  codec : Codec
  btlPolicy : BTLPolicy
  purgeInterval : Nat
  maxBatchSize : Nat
  maxPurgeBatchSize : Nat
  sizes : EntrySizes
  enabledColls : Nat → List NsColl

structure BatchedProcessor where
  updates : PurgeUpdatesProcessor
  currentSize : Int

def newBatchedProcessor : BatchedProcessor := ⟨newPurgeUpdatesProcessor, 0⟩

def EntrySizes.batch (sizes : EntrySizes) (p : PurgeUpdatesProcessor) : Nat :=
  (p.hashedIndexDeletions.map sizes.hashedIndexKey).sum + (p.purgeMarkerDeletions.map sizes.purgeMarkerKey).sum

def BatchedProcessor.process (conf : StoreConf) (p : BatchedProcessor) (s : Store) (e : HashedIndexKey × Bytes) :
    BatchedProcessor :=
  let dataKey := e.1.dataKey
  let fetched : Nat := if p.updates.pvtWrites.contains dataKey then 0 else conf.sizes.dataEntry dataKey s.dataEntries[dataKey]?
  let collWS := (p.updates.pvtWrites[dataKey]?.or s.dataEntries[dataKey]?).getD ⟨[], []⟩
  let removed : Nat := (collWS.writes.find? (·.key == e.2)).elim 0 fun w => w.key.length + w.value.length
  ⟨p.updates.process s e, p.currentSize + fetched - removed⟩

variable (conf : StoreConf)

def BatchedProcessor.isFull (p : BatchedProcessor) : Bool :=
  decide (conf.maxPurgeBatchSize < p.currentSize + conf.sizes.batch p.updates)

-- The size of what was written stays counted.
def BatchedProcessor.written (p : BatchedProcessor) : BatchedProcessor := { p with updates := newPurgeUpdatesProcessor }

variable (s : Store)

def processIndexEntry (p : BatchedProcessor) (e : HashedIndexKey × Bytes) :
    Store × BatchedProcessor :=
  let p := p.process conf s e
  if p.isFull conf then (p.updates.commitPendingChanges s, p.written) else (s, p)

def processPurgeMarker (sp : Store × BatchedProcessor) (marker : CollKey × Height) :
    Store × BatchedProcessor :=
  let sp := (sp.1.hashedIndexRange marker).foldl (fun sp e => processIndexEntry conf sp.1 sp.2 e) sp
  (sp.1, { sp.2 with updates := sp.2.updates.addProcessedPurgeMarkerForDeletion marker.1 })

def Store.deleteDataMarkedForPurgeInBatches : Store :=
  let sp := s.purgeMarkers.toList.foldl (processPurgeMarker conf) (s, newBatchedProcessor)
  sp.2.updates.commitPendingChanges sp.1

inductive Purger where
  | expiring (entries : List (ExpiryInfoKey × ExpiryData))
  | marking (markers : List (CollKey × Height)) (current : Option ((CollKey × Height) × List (HashedIndexKey × Bytes)))
      (p : BatchedProcessor)

def Purger.step : Purger → Store × Option Purger
  | .expiring (e :: entries) => (s.purgeExpiryEntry conf.codec e, some (.expiring entries))
  | .expiring [] => (s, some (.marking s.purgeMarkers.toList none newBatchedProcessor))
  | .marking (marker :: markers) none p => (s, some (.marking markers (some (marker, s.hashedIndexRange marker)) p))
  | .marking markers (some (marker, e :: entries)) p =>
    let sp := processIndexEntry conf s p e
    (sp.1, some (.marking markers (some (marker, entries)) sp.2))
  | .marking markers (some (marker, [])) p =>
    (s, some (.marking markers none { p with updates := p.updates.addProcessedPurgeMarkerForDeletion marker.1 }))
  | .marking [] none p => (p.updates.commitPendingChanges s, none)

abbrev CollElgEvents := Map Nat (List NsColl)

structure ElgProc where
  events : List (Nat × List NsColl)
  entries : List (NsCollBlk × List Nat)
  converted : List (NsCollBlk × List Nat)
  processed : List Nat
  sleeping : Bool

def unprocessedEvents (events : CollElgEvents) : List (Nat × List NsColl) :=
  (events.toList.filter (·.1 ≠ 0)).reverse

def Store.inelgMissingRange (maxBlkNum : Nat) (c : NsColl) : List (NsCollBlk × List Nat) :=
  (s.inelgMissing.toList.filter fun e =>
    e.1.ns == c.ns && e.1.coll == c.coll && decide (0 < e.1.blkNum) && decide (e.1.blkNum ≤ maxBlkNum)).reverse

def Store.convertToEligible (converted : List (NsCollBlk × List Nat)) : Store :=
  { s with
    inelgMissing := eraseAll s.inelgMissing (converted.map (·.1))
    elgPrioMissing := putAll s.elgPrioMissing converted }

def ElgProc.batchLen (p : ElgProc) : Nat := 2 * p.converted.length + p.processed.length

structure PurgeFiltering where
  key : DataKey
  value : PvtKVRWSet
  unchecked : List KVWrite
  filterIn : List KVWrite

structure Reader where
  blockNum : Nat
  lastCommittedBlock : Nat
  filter : NsColl → Bool
  entries : List (DataKey × PvtKVRWSet)
  filtering : Option PurgeFiltering
  blockPvtdata : List (DataKey × PvtKVRWSet)

def Store.openReader (blockNum : Nat) (filter : NsColl → Bool) : Option Reader :=
  match s.lastCommittedBlock with
  | none => none
  | some lastCommittedBlock =>
    if lastCommittedBlock < blockNum then none
    else some ⟨blockNum, lastCommittedBlock, filter, s.dataEntries.toList.filter (·.1.blkNum == blockNum), none, []⟩

def Reader.step (r : Reader) : Option Reader :=
  match r.filtering, r.entries with
  | some ⟨key, value, w :: unchecked, filterIn⟩, _ =>
    let purged := markedForPurge s.purgeMarkers ⟨key.ns, key.coll, conf.codec.computeHash w.key⟩ key.height
    some { r with filtering := some ⟨key, value, unchecked, if purged then filterIn else filterIn ++ [w]⟩ }
  | some ⟨key, value, [], filterIn⟩, _ =>
    some { r with filtering := none, blockPvtdata := r.blockPvtdata ++ [(key, { value with writes := filterIn })] }
  | none, e :: entries =>
    if isExpired conf.btlPolicy e.1.nsCollBlk r.lastCommittedBlock || !r.filter ⟨e.1.ns, e.1.coll⟩ then
      some { r with entries := entries }
    else if s.keyPotentiallyPurged e.1 then
      some { r with entries := entries, filtering := some ⟨e.1, e.2, e.2.writes, []⟩ }
    else some { r with entries := entries, blockPvtdata := r.blockPvtdata ++ [e] }
  | none, [] => none

structure Threads where
  store : Store
  collElgEvents : CollElgEvents
  validated : Bool
  scheduledPurges : List Nat
  purger : Option Purger
  elgProc : Option ElgProc
  requested : List (NsCollBlk × Nat)
  reader : Option Reader

def Threads.opened (events : CollElgEvents) : Threads := ⟨s, events, false, [], none, none, [], none⟩

variable (t : Threads)

def Threads.locked : Bool := t.purger.isSome || t.elgProc.any (!·.sleeping)

variable (p : ElgProc)

def Threads.writeBatch : Threads :=
  { t with
    store := t.store.convertToEligible p.converted
    collElgEvents := eraseAll t.collElgEvents p.processed }

def Threads.convertEntry (t : Threads) (e : NsCollBlk × List Nat)
    (entries : List (NsCollBlk × List Nat)) : Threads :=
  let p := { p with entries := entries, converted := p.converted ++ [e] }
  if conf.maxBatchSize < p.batchLen then
    { t.writeBatch p with elgProc := some { p with converted := [], processed := [], sleeping := true } }
  else { t with elgProc := some p }

def Threads.elgStep (t : Threads) : Option Threads :=
  match p.entries, p.events with
  | e :: entries, _ => some (t.convertEntry conf p e entries)
  | [], (blkNum, []) :: events =>
    some { t with elgProc := some { p with events := events, processed := p.processed ++ [blkNum] } }
  | [], (_, _ :: _) :: _ => none
  | [], [] => some { t.writeBatch p with elgProc := none }

def Threads.scanColl (c : NsColl) : Option Threads :=
  match p.entries, p.events with
  | [], (blkNum, colls) :: events =>
    if c ∈ colls then
      some { t with elgProc := some { p with
        events := (blkNum, colls.erase c) :: events
        entries := t.store.inelgMissingRange blkNum c } }
    else none
  | _, _ => none

def BlocksPvtData.dataKeys (data : BlocksPvtData) : List DataKey :=
  data.toList.flatMap fun b => (prepareDataEntries b.1 b.2).map (·.1)

def DataKey.missingKey (k : DataKey) : NsCollBlk × Nat := (k.nsCollBlk, k.txNum)

def MissingEntries.has (m : MissingEntries) (e : NsCollBlk × Nat) : Bool := m[e.1]?.any (e.2 ∈ ·)

inductive StoreStep where
  | validate
  | commit (pvtData : TxPvtDataMap) (missingPvtData : TxMissingPvtData) (purgeUpdates : PvtdataPurgeTracker)
  | startPurger (latestCommittedBlk : Nat)
  | purgerStep
  | startElgProc
  | scanColl (c : NsColl)
  | elgStep
  | wakeElgProc
  | request (missing : List (NsCollBlk × Nat))
  | reconcile (fetched : List (NsCollBlk × Nat)) (data : BlocksPvtData)
  | openReader (blockNum : Nat) (filter : NsColl → Bool)
  | readerStep
  | closeReader
  | restart

-- Validating a block notifies the store of new eligibilities; the block is committed afterwards.
def Threads.validate (t : Threads) : Threads :=
  let blkNum := t.store.nextBlockNum
  { t with
    validated := true
    collElgEvents :=
      if conf.enabledColls blkNum = [] then t.collElgEvents else t.collElgEvents.insert blkNum (conf.enabledColls blkNum) }

def Threads.commit (conf : StoreConf) (t : Threads) (pvtData : TxPvtDataMap) (missingPvtData : TxMissingPvtData)
    (purgeUpdates : PvtdataPurgeTracker) : Option Threads :=
  let blkNum := t.store.nextBlockNum
  match t.store.commit conf.codec conf.btlPolicy blkNum pvtData.toList missingPvtData (purgeMarkers purgeUpdates) with
  | .error _ => none
  | .ok store => some { t with
      store := store
      validated := false
      scheduledPurges := if blkNum % conf.purgeInterval = 0 then t.scheduledPurges ++ [blkNum] else t.scheduledPurges }

-- The reconciler asks for data that is recorded in one of the eligible groups, and hands over what it
-- received of it; the rest is deprioritised.
def Threads.request (missing : List (NsCollBlk × Nat)) : Option Threads :=
  if missing.all t.store.elgPrioMissing.has || missing.all t.store.elgDeprioMissing.has then
    some { t with requested := missing }
  else none

def Threads.reconcile (t : Threads) (fetched : List (NsCollBlk × Nat)) (data : BlocksPvtData) :
    Option Threads :=
  if !t.locked && fetched.all (· ∈ t.requested) && data.dataKeys.all (·.missingKey ∈ fetched) then
    some { t with
      store := t.store.commitPvtDataOfOldBlocks conf.btlPolicy conf.codec data (t.requested.filter (· ∉ fetched))
      requested := [] }
  else none

def Threads.purgerStep (t : Threads) (p : Purger) : Threads :=
  { t with store := (p.step conf t.store).1, purger := (p.step conf t.store).2 }

def Threads.startPurger (latestCommittedBlk : Nat) : Threads :=
  { t with
    scheduledPurges := t.scheduledPurges.erase latestCommittedBlk
    purger := some (.expiring (t.store.retrieveExpiryEntries latestCommittedBlk)) }

def Threads.step (conf : StoreConf) (t : Threads) : StoreStep → Option Threads
  | .validate => if t.validated then none else some (t.validate conf)
  | .commit pvtData missingPvtData purgeUpdates =>
    if t.validated then t.commit conf pvtData missingPvtData purgeUpdates else none
  | .startPurger latestCommittedBlk =>
    if !t.locked && t.scheduledPurges.contains latestCommittedBlk then some (t.startPurger latestCommittedBlk) else none
  | .purgerStep => t.purger.map (t.purgerStep conf)
  | .startElgProc =>
    if !t.locked && t.elgProc.isNone then
      some { t with elgProc := some ⟨unprocessedEvents t.collElgEvents, [], [], [], false⟩ }
    else none
  | .scanColl c => t.elgProc.bind fun p => if p.sleeping then none else t.scanColl p c
  | .elgStep => t.elgProc.bind fun p => if p.sleeping then none else t.elgStep conf p
  | .wakeElgProc =>
    t.elgProc.bind fun p =>
      if p.sleeping && !t.locked then some { t with elgProc := some { p with sleeping := false } } else none
  | .request missing => t.request missing
  | .reconcile fetched data => t.reconcile conf fetched data
  | .openReader blockNum filter =>
    if t.reader.isNone then (t.store.openReader blockNum filter).map fun r => { t with reader := some r } else none
  | .readerStep => (t.reader.bind (Reader.step conf t.store)).map fun r => { t with reader := some r }
  | .closeReader => if t.reader.any fun r => r.filtering.isNone && r.entries.isEmpty then some { t with reader := none } else none
  | .restart => some (.opened t.store t.collElgEvents)

end Fabric.Ledger.PvtdataStorage
