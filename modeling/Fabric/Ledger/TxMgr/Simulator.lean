import Fabric.Ledger.RwsetBuilder

/-! # The transaction simulator -/

namespace Fabric.Ledger.TxMgr

open Lib Ledger

-- `validateCollName` is the answer of the collection configuration; what its provider reads through
-- the executor to find it counts as a read of the chaincode.
structure SimulatorEnv where
  codec : Codec
  db : DB
  txid : String
  validateCollName : Bytes → Bytes → Result Unit
  queryReadsHashingEnabled : Bool
  maxDegreeQueryReadsHashing : Nat

def heightString : Option Height → String
  | none => "<nil>"
  | some h => s!"\x7bBlockNum: {h.blockNum}, TxNum: {h.txNum}\x7d"

structure ResultsItr where
  ns : Bytes
  endKey : Bytes
  dbItr : List VersionedKV
  rangeQueryInfo : RangeQueryInfo
  rangeQueryResultsHelper : RangeQueryResultsHelper

structure KV where
  nameSpace : Bytes
  key : Bytes
  value : Option Bytes

def getStateRangeScanIteratorWithPagination (db : State CompositeKey) (ns startKey endKey : Bytes) (pageSize : Int) :
    List VersionedKV :=
  let results := db.getStateRangeScanIterator ns startKey endKey
  if 0 < pageSize then results.take pageSize.toNat else results

def newResultsItr (env : SimulatorEnv) (ns startKey endKey : Bytes) (pageSize : Int) : Result ResultsItr := do
  let helper ← newRangeQueryResultsHelper env.queryReadsHashingEnabled env.maxDegreeQueryReadsHashing
  .ok {
    ns := ns
    endKey := endKey
    dbItr := getStateRangeScanIteratorWithPagination env.db.pub ns startKey endKey pageSize
    rangeQueryInfo := ⟨startKey, [], false, .unset⟩
    rangeQueryResultsHelper := helper }

def ResultsItr.updateRangeQueryInfo (codec : Codec) (itr : ResultsItr) : Option VersionedKV → Result ResultsItr
  | none =>
    .ok { itr with
      rangeQueryInfo.itrExhausted := true
      rangeQueryInfo.endKey := itr.endKey }
  | some queryResult => do
    let helper ← itr.rangeQueryResultsHelper.addResult codec (newKVRead queryResult.1 (some queryResult.2.version))
    .ok { itr with
      rangeQueryResultsHelper := helper
      rangeQueryInfo.endKey := queryResult.1 }

def ResultsItr.next (codec : Codec) (itr : ResultsItr) : Result (Option KV × ResultsItr) := do
  let queryResult := itr.dbItr.head?
  let itr ← { itr with dbItr := itr.dbItr.tail }.updateRangeQueryInfo codec queryResult
  .ok (queryResult.map fun kv => ⟨itr.ns, kv.1, kv.2.value⟩, itr)

def setReads (rqi : RangeQueryInfo) (results : List KVRead) (hash : Option QueryReadsMerkleSummary) :
    RangeQueryInfo :=
  let rqi := if results.isEmpty then rqi else { rqi with readsInfo := .rawReads results }
  match hash with
  | none => rqi
  | some summary => { rqi with readsInfo := .readsMerkleHashes summary }

structure TxSimulator where
  rwsetBuilder : RWSetBuilder
  itrs : List ResultsItr
  writePerformed : Bool
  pvtdataQueriesPerformed : Bool
  paginatedQueriesPerformed : Bool

def newTxSimulator : TxSimulator := ⟨newRWSetBuilder, [], false, false, false⟩

namespace TxSimulator

variable (env : SimulatorEnv)

def unsupported (reason : String) : Failure :=
  .error s!"txid [{env.txid}]: unsuppored transaction. {reason}"

def getState (s : TxSimulator) (ns key : Bytes) : Option VersionedValue × TxSimulator :=
  let versionedValue := env.db.pub.getState ⟨ns, key⟩
  (versionedValue, { s with
    rwsetBuilder := s.rwsetBuilder.addToReadSet ns key (versionedValue.map (·.version)) })

variable (s : TxSimulator)

def getStateMetadata (ns key : Bytes) : Option Bytes × TxSimulator :=
  let (versionedValue, s) := s.getState env ns key
  (versionedValue.bind (·.metadata), s)

def getStateMultipleKeys (s : TxSimulator) (ns : Bytes) : List Bytes → List (Option Bytes) × TxSimulator
  | [] => ([], s)
  | key :: keys =>
    let (versionedValue, s) := s.getState env ns key
    let (values, s) := s.getStateMultipleKeys ns keys
    (versionedValue.bind (·.value) :: values, s)

def getStateRangeScanIterator (ns startKey endKey : Bytes) : Result TxSimulator := do
  let itr ← newResultsItr env ns startKey endKey 0
  .ok { s with itrs := s.itrs ++ [itr] }

def checkBeforePaginatedQueries : Result TxSimulator :=
  if s.writePerformed then
    .error (unsupported env "Paginated queries are supported only in a read-only transaction")
  else .ok { s with paginatedQueriesPerformed := true }

def getStateRangeScanIteratorWithPagination (ns startKey endKey : Bytes) (pageSize : Int) :
    Result TxSimulator := do
  let s ← s.checkBeforePaginatedQueries env
  let itr ← newResultsItr env ns startKey endKey pageSize
  .ok { s with itrs := s.itrs ++ [itr] }

variable (ns coll key : Bytes)

def addHashedRead (version : Option Height) : TxSimulator :=
  { s with rwsetBuilder := s.rwsetBuilder.addToHashedReadSet env.codec ns coll key version }

def hashedKey : CollKey := ⟨ns, coll, env.codec.computeHash key⟩

def getPrivateData : Result (Option Bytes × TxSimulator) := do
  env.validateCollName ns coll
  let versionedValue := env.db.pvt.getState ⟨ns, coll, key⟩
  let ver := versionedValue.map (·.version)
  let hashVersion := env.db.hashed.getVersion (hashedKey env ns coll key)
  if !areSame hashVersion ver then
    .error (.error (s!"private data matching public hash version is not available. " ++
      s!"Public hash version = {heightString hashVersion}, Private data version = {heightString ver}"))
  else .ok (versionedValue.bind (·.value), s.addHashedRead env ns coll key ver)

def getPrivateDataValueHash : Result (Option VersionedValue × TxSimulator) := do
  env.validateCollName ns coll
  let versionedValue := env.db.hashed.getState (hashedKey env ns coll key)
  .ok (versionedValue, s.addHashedRead env ns coll key (versionedValue.map (·.version)))

def recordPrivateReads (s : TxSimulator) (ns coll : Bytes) : List Bytes → List (Option Bytes) × TxSimulator
  | [] => ([], s)
  | key :: keys =>
    let versionedValue := env.db.pvt.getState ⟨ns, coll, key⟩
    let s := s.addHashedRead env ns coll key (versionedValue.map (·.version))
    let (values, s) := s.recordPrivateReads ns coll keys
    (versionedValue.bind (·.value) :: values, s)

def getPrivateDataMultipleKeys (ns coll : Bytes) (keys : List Bytes) :
    Result (List (Option Bytes) × TxSimulator) := do
  env.validateCollName ns coll
  .ok (s.recordPrivateReads env ns coll keys)

def checkBeforePvtdataQueries : Result TxSimulator :=
  if s.writePerformed then
    .error (unsupported env "Queries on pvt data is supported only in a read-only transaction")
  else .ok { s with pvtdataQueriesPerformed := true }

def checkWritePrecondition : Result TxSimulator :=
  if s.pvtdataQueriesPerformed then
    .error (unsupported env
      "Transaction has already performed queries on pvt data. Writes are not allowed")
  else if s.paginatedQueriesPerformed then
    .error (unsupported env "Transaction has already performed a paginated query. Writes are not allowed")
  else .ok { s with writePerformed := true }

def setState (ns key value : Bytes) : Result TxSimulator := do
  let s ← s.checkWritePrecondition env
  .ok { s with rwsetBuilder := s.rwsetBuilder.addToWriteSet ns key value }

def setStateMetadata (ns key : Bytes) (metadata : Map Bytes Bytes) : Result TxSimulator := do
  let s ← s.checkWritePrecondition env
  .ok { s with rwsetBuilder := s.rwsetBuilder.addToMetadataWriteSet ns key metadata }

def setPrivateData (ns coll key value : Bytes) : Result TxSimulator := do
  env.validateCollName ns coll
  let s ← s.checkWritePrecondition env
  .ok { s with rwsetBuilder := s.rwsetBuilder.addToPvtAndHashedWriteSet env.codec ns coll key value }

def purgePrivateData : Result TxSimulator := do
  env.validateCollName ns coll
  let s ← s.checkWritePrecondition env
  .ok { s with rwsetBuilder := s.rwsetBuilder.addToPvtAndHashedWriteSetForPurge env.codec ns coll key }

def setPrivateDataMetadata (metadata : Map Bytes Bytes) :
    Result TxSimulator := do
  env.validateCollName ns coll
  let s ← s.checkWritePrecondition env
  .ok { s with rwsetBuilder := s.rwsetBuilder.addToHashedMetadataWriteSet env.codec ns coll key metadata }

def addRangeQueryInfo (codec : Codec) (b : RWSetBuilder) : List ResultsItr → RWSetBuilder
  | [] => b
  | itr :: itrs =>
    match itr.rangeQueryResultsHelper.done codec with
    | .error _ => b
    | .ok (results, hash) =>
      addRangeQueryInfo codec (b.addToRangeQuerySet itr.ns (setReads itr.rangeQueryInfo results hash)) itrs

def getTxSimulationResults (s : TxSimulator) : TxSimulationResults :=
  (addRangeQueryInfo env.codec s.rwsetBuilder s.itrs).getTxSimulationResults env.codec

end TxSimulator

inductive Call where
  | getState (ns key : Bytes)
  | getStateMetadata (ns key : Bytes)
  | getStateMultipleKeys (ns : Bytes) (keys : List Bytes)
  | getStateRangeScanIterator (ns startKey endKey : Bytes)
  | getStateRangeScanIteratorWithPagination (ns startKey endKey : Bytes) (pageSize : Int)
  | next (itr : Nat)
  | getPrivateData (ns coll key : Bytes)
  | getPrivateDataHash (ns coll key : Bytes)
  | getPrivateDataMetadata (ns coll key : Bytes)
  | getPrivateDataMultipleKeys (ns coll : Bytes) (keys : List Bytes)
  | getPrivateDataRangeScanIterator (ns coll startKey endKey : Bytes)
  | setState (ns key value : Bytes)
  | setStateMetadata (ns key : Bytes) (metadata : Map Bytes Bytes)
  | setPrivateData (ns coll key value : Bytes)
  | purgePrivateData (ns coll key : Bytes)
  | setPrivateDataMetadata (ns coll key : Bytes) (metadata : Map Bytes Bytes)

def orUnchanged (s : TxSimulator) : Result TxSimulator → TxSimulator
  | .ok s' => s'
  | .error _ => s

-- A refused call leaves the simulator as it is and the chaincode goes on; a run ends early only when
-- the results of a range cannot be encoded.
def TxSimulator.call (env : SimulatorEnv) (s : TxSimulator) : Call → Result TxSimulator
  | .getState ns key => .ok (s.getState env ns key).2
  | .getStateMetadata ns key => .ok (s.getStateMetadata env ns key).2
  | .getStateMultipleKeys ns keys => .ok (s.getStateMultipleKeys env ns keys).2
  | .getStateRangeScanIterator ns startKey endKey =>
    .ok (orUnchanged s (s.getStateRangeScanIterator env ns startKey endKey))
  | .getStateRangeScanIteratorWithPagination ns startKey endKey pageSize =>
    .ok (orUnchanged s (s.getStateRangeScanIteratorWithPagination env ns startKey endKey pageSize))
  | .next i =>
    match s.itrs[i]? with
    | none => .ok s
    | some itr => do
      let (_, itr) ← itr.next env.codec
      .ok { s with itrs := s.itrs.set i itr }
  | .getPrivateData ns coll key => .ok (orUnchanged s ((s.getPrivateData env ns coll key).map (·.2)))
  | .getPrivateDataHash ns coll key => .ok (orUnchanged s ((s.getPrivateDataValueHash env ns coll key).map (·.2)))
  | .getPrivateDataMetadata ns coll key =>
    .ok (orUnchanged s ((s.getPrivateDataValueHash env ns coll key).map (·.2)))
  | .getPrivateDataMultipleKeys ns coll keys =>
    .ok (orUnchanged s ((s.getPrivateDataMultipleKeys env ns coll keys).map (·.2)))
  | .getPrivateDataRangeScanIterator _ _ _ _ => .ok (orUnchanged s (s.checkBeforePvtdataQueries env))
  | .setState ns key value => .ok (orUnchanged s (s.setState env ns key value))
  | .setStateMetadata ns key metadata => .ok (orUnchanged s (s.setStateMetadata env ns key metadata))
  | .setPrivateData ns coll key value => .ok (orUnchanged s (s.setPrivateData env ns coll key value))
  | .purgePrivateData ns coll key => .ok (orUnchanged s (s.purgePrivateData env ns coll key))
  | .setPrivateDataMetadata ns coll key metadata =>
    .ok (orUnchanged s (s.setPrivateDataMetadata env ns coll key metadata))

def simulate (env : SimulatorEnv) (calls : List Call) : Result TxSimulationResults := do
  let s ← calls.foldlM (TxSimulator.call env) newTxSimulator
  .ok (s.getTxSimulationResults env)

end Fabric.Ledger.TxMgr
