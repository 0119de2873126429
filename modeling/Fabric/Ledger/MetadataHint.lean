import Fabric.Lib.Transition
import Fabric.Ledger.PrivacyState

/-! # The metadata hint -/

namespace Fabric.Ledger.PrivacyEnabledState

open Lib Ledger

def nsJoiner : Bytes := [36, 36]

def hashDataPrefix : Bytes := [104]

def pvtDataPrefix : Bytes := [112]

def derivePvtDataNs (ns coll : Bytes) : Bytes := ns ++ nsJoiner ++ pvtDataPrefix ++ coll

def deriveHashedDataNs (ns coll : Bytes) : Bytes := ns ++ nsJoiner ++ hashDataPrefix ++ coll

def cut (sep : Bytes) : Bytes → Option (Bytes × Bytes)
  | [] => none
  | b :: bs =>
    if sep.isPrefixOf (b :: bs) then some ([], (b :: bs).drop sep.length)
    else (cut sep bs).map fun parts => (b :: parts.1, parts.2)

def decodeHashedDataNsColl (hashedDataNs : Bytes) : Result (Bytes × Bytes) :=
  match cut (nsJoiner ++ hashDataPrefix) hashedDataNs with
  | none => .error (.error "not a valid hashedDataNs")
  | some (ns, coll) =>
    if (cut (nsJoiner ++ hashDataPrefix) coll).isSome then .error (.error "not a valid hashedDataNs") else .ok (ns, coll)

def addUpdates (derive : Bytes → Bytes → Bytes) (encodeKey : Bytes → Bytes) (combined : Updates CompositeKey)
    (updates : Updates CollKey) : Updates CompositeKey :=
  putAll combined (updates.toList.map fun e => (⟨derive e.1.ns e.1.coll, encodeKey e.1.key⟩, e.2))

def addPvtUpdates : Updates CompositeKey → Updates CollKey → Updates CompositeKey := addUpdates derivePvtDataNs id

variable (encodeKeyHash : Bytes → Bytes)

-- A database without byte keys stores the key hash in base64.
def addHashedUpdates : Updates CompositeKey → Updates CollKey → Updates CompositeKey :=
  addUpdates deriveHashedDataNs encodeKeyHash

def combinedUpdates (updates : PrivacyUpdateBatch) : Updates CompositeKey :=
  addHashedUpdates encodeKeyHash (addPvtUpdates updates.pubUpdates.updates updates.pvtUpdates) updates.hashUpdates

/-- The public updates already hold the derived namespaces when the flags are computed. -/
def namespacesToFlag (updates : PrivacyUpdateBatch) : Finset Bytes :=
  filterNamespacesThatHasMetadata (combinedUpdates encodeKeyHash updates) updates.hashUpdates

def storedValue (vv : VersionedValue) : VersionedValue :=
  { vv with metadata := vv.metadata.filter (!·.isEmpty) }

variable (vdb : Map CompositeKey VersionedValue)

def applyEntry (e : CompositeKey × VersionedValue) : Map CompositeKey VersionedValue :=
  if e.2.isDelete then vdb.erase e.1 else vdb.insert e.1 (storedValue e.2)

structure SnapshotRecord where
  key : Bytes
  value : Bytes
  metadata : Bytes
  version : Height

/-- A record with its namespace as the file of public state or of private state hashes gives it. -/
inductive SnapshotEntry where
  | pubState (ns : Bytes) (record : SnapshotRecord)
  | pvtStateHash (hashedDataNs : Bytes) (record : SnapshotRecord)

structure ImportedKV where
  ns : Bytes
  key : CompositeKey
  value : VersionedValue

def SnapshotRecord.versionedValue (r : SnapshotRecord) : VersionedValue := ⟨some r.value, some r.metadata, r.version⟩

def SnapshotEntry.next : SnapshotEntry → Result ImportedKV
  | .pubState ns r => .ok ⟨ns, ⟨ns, r.key⟩, r.versionedValue⟩
  | .pvtStateHash hashedDataNs r => do
    let (ns, _) ← decodeHashedDataNsColl hashedDataNs
    .ok ⟨ns, ⟨hashedDataNs, encodeKeyHash r.key⟩, r.versionedValue⟩

def importState (kvs : List ImportedKV) : Map CompositeKey VersionedValue :=
  (kvs.map fun kv => (kv.key, kv.value)).foldl applyEntry vdb

def namespacesThatUseMetadata (kvs : List ImportedKV) : Finset Bytes :=
  ((kvs.filter fun kv => (storedValue kv.value).metadata.isSome).map (·.ns)).toFinset

inductive Status where
  | absent
  | underConstruction
  | active
  deriving DecidableEq

structure ChannelDB where
  vdb : Map CompositeKey VersionedValue
  bookkeeper : Finset Bytes
  status : Status
  cache : Option (Finset Bytes)

def ChannelDB.empty : ChannelDB := ⟨∅, ∅, .absent, none⟩

variable (db : ChannelDB)

def ChannelDB.getDBHandle : ChannelDB := { db with cache := some db.bookkeeper }

def ChannelDB.setMetadataUsedFlag (cache namespaces : Finset Bytes) : ChannelDB :=
  { db with bookkeeper := db.bookkeeper ∪ (namespaces \ cache), cache := some (cache ∪ namespaces) }

def ChannelDB.applyUpdates (entries : List (CompositeKey × VersionedValue)) : ChannelDB :=
  { db with vdb := entries.foldl applyEntry db.vdb }

inductive Event where
  | createFromGenesisBlock
  | createFromSnapshot (snapshot : List SnapshotEntry)
  | interruptedImport (imported : List SnapshotEntry)
  | updateLedgerStatus
  | openLedger
  | applyPrivacyAwareUpdates (updates : PrivacyUpdateBatch)
  | interruptedUpdates (updates : PrivacyUpdateBatch) (written : List (CompositeKey × VersionedValue))
  | close
  | interruptedCleanup
  | runCleanup

variable (encodeKeyHash : Bytes → Bytes)

def ChannelDB.step (db : ChannelDB) : Event → Option ChannelDB
  | .createFromGenesisBlock =>
    if db.status = .absent then some (ChannelDB.getDBHandle { db with status := .underConstruction }) else none
  | .createFromSnapshot snapshot =>
    match db.status, snapshot.mapM (SnapshotEntry.next encodeKeyHash) with
    | .absent, .ok kvs =>
      some (ChannelDB.getDBHandle {
        vdb := importState db.vdb kvs
        bookkeeper := db.bookkeeper ∪ namespacesThatUseMetadata kvs
        status := .underConstruction
        cache := none })
    | _, _ => none
  | .interruptedImport imported =>
    match db.status, imported.mapM (SnapshotEntry.next encodeKeyHash) with
    | .absent, .ok kvs => some { db with vdb := importState db.vdb kvs, status := .underConstruction, cache := none }
    | _, _ => none
  | .updateLedgerStatus =>
    if db.status = .underConstruction ∧ db.cache.isSome then some { db with status := .active } else none
  | .openLedger => if db.status = .active ∧ db.cache.isNone then some db.getDBHandle else none
  | .applyPrivacyAwareUpdates updates =>
    db.cache.map fun cache => (db.setMetadataUsedFlag cache (namespacesToFlag encodeKeyHash updates)).applyUpdates
      (combinedUpdates encodeKeyHash updates).toList
  | .interruptedUpdates updates written =>
    if ∀ e ∈ written, e ∈ (combinedUpdates encodeKeyHash updates).toList then
      db.cache.map fun cache =>
        { (db.setMetadataUsedFlag cache (namespacesToFlag encodeKeyHash updates)).applyUpdates written with cache := none }
    else none
  | .close => some { db with cache := none }
  | .interruptedCleanup => if db.status = .underConstruction then some { db with vdb := ∅, cache := none } else none
  | .runCleanup => if db.status = .underConstruction then some .empty else none

def ChannelDB.getStateMetadata (cache : Finset Bytes) (ns key : Bytes) : Option Bytes :=
  if ns ∈ cache then db.vdb[(⟨ns, key⟩ : CompositeKey)]?.bind (·.metadata) else none

def ChannelDB.getPrivateDataMetadataByHash (db : ChannelDB) (cache : Finset Bytes)
    (ns coll keyHash : Bytes) : Option Bytes :=
  if ns ∈ cache then db.vdb[(⟨deriveHashedDataNs ns coll, encodeKeyHash keyHash⟩ : CompositeKey)]?.bind (·.metadata) else none

end Fabric.Ledger.PrivacyEnabledState
