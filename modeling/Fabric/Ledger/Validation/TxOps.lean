import Fabric.Ledger.Rwset

/-! # Write operations of a transaction -/

namespace Fabric.Ledger.Validation

open Lib Ledger

abbrev KeyOpsFlag := UInt8

def upsertVal : KeyOpsFlag := 1
def metadataUpdate : KeyOpsFlag := 2
def metadataDelete : KeyOpsFlag := 4
def keyDelete : KeyOpsFlag := 8

structure KeyOps where
  flag : KeyOpsFlag
  value : Option Bytes
  metadata : Option Bytes

variable (keyops : KeyOps)

def KeyOps.isDelete : Bool :=
  keyops.flag &&& keyDelete == keyDelete

def KeyOps.isUpsertAndMetadataUpdate : Bool :=
  keyops.flag &&& upsertVal == upsertVal &&
    (keyops.flag &&& metadataUpdate == metadataUpdate || keyops.flag &&& metadataDelete == metadataDelete)

def KeyOps.isOnlyUpsert : Bool :=
  keyops.flag ||| upsertVal == upsertVal

/-- A key of the public state has the empty collection. -/
abbrev TxOps := Map CollKey KeyOps

namespace TxOps

variable (txops : TxOps)

def getOrCreateKeyEntry (k : CollKey) : KeyOps :=
  txops[k]?.getD ⟨0, none, none⟩

def upsert (k : CollKey) (val : Bytes) : TxOps :=
  let keyops := txops.getOrCreateKeyEntry k
  txops.insert k { keyops with flag := keyops.flag + upsertVal, value := some val }

def delete (k : CollKey) : TxOps :=
  let keyops := txops.getOrCreateKeyEntry k
  txops.insert k { keyops with flag := keyops.flag + keyDelete }

def metadataUpdate (k : CollKey) (metadata : Bytes) : TxOps :=
  let keyops := txops.getOrCreateKeyEntry k
  txops.insert k { keyops with flag := keyops.flag + Validation.metadataUpdate, metadata := some metadata }

def metadataDelete (k : CollKey) : TxOps :=
  let keyops := txops.getOrCreateKeyEntry k
  txops.insert k { keyops with flag := keyops.flag + Validation.metadataDelete }

def applyKVWrite (ns coll : Bytes) (txops : TxOps) (kvWrite : KVWrite) : TxOps :=
  if kvWrite.isKVWriteDelete then txops.delete ⟨ns, coll, kvWrite.key⟩
  else txops.upsert ⟨ns, coll, kvWrite.key⟩ kvWrite.value

variable (codec : Codec)

def applyMetadata (ns coll : Bytes) (txops : TxOps) (metadataWrite : KVMetadataWrite) : TxOps :=
  if metadataWrite.entries.isEmpty then txops.metadataDelete ⟨ns, coll, metadataWrite.key⟩
  else txops.metadataUpdate ⟨ns, coll, metadataWrite.key⟩ (codec.serializeMetadata metadataWrite.entries)

def hashedKVWrite (hashedWrite : KVWriteHash) : KVWrite where
  key := hashedWrite.keyHash
  value := hashedWrite.valueHash
  isDelete := hashedWrite.isKVWriteHashDelete codec

def hashedMetadataWrite (metadataWrite : KVMetadataWriteHash) : KVMetadataWrite where
  key := metadataWrite.keyHash
  entries := metadataWrite.entries

def applyCollHashedRwSet (ns : Bytes) (txops : TxOps) (collHashRWset : CollHashedRwSet) : TxOps :=
  let coll := collHashRWset.collectionName
  let txops := (collHashRWset.hashedRwSet.hashedWrites.map (hashedKVWrite codec)).foldl (applyKVWrite ns coll) txops
  (collHashRWset.hashedRwSet.metadataWrites.map hashedMetadataWrite).foldl (applyMetadata codec ns coll) txops

def applyNsRwSet (txops : TxOps) (nsRWSet : NsRwSet) : TxOps :=
  let ns := nsRWSet.nameSpace
  let txops := nsRWSet.kvRwSet.writes.foldl (applyKVWrite ns []) txops
  let txops := nsRWSet.kvRwSet.metadataWrites.foldl (applyMetadata codec ns []) txops
  nsRWSet.collHashedRwSets.foldl (applyCollHashedRwSet codec ns) txops

def applyTxRwset (txops : TxOps) (rwset : TxRwSet) : TxOps :=
  rwset.nsRwSets.foldl (applyNsRwSet codec) txops

end TxOps

structure PubAndHashUpdates where
  publicUpdates : UpdateBatch
  hashUpdates : Updates CollKey

def newPubAndHashUpdates : PubAndHashUpdates := ⟨UpdateBatch.new, ∅⟩

def PubAndHashUpdates.get (u : PubAndHashUpdates) (k : CollKey) : Option VersionedValue :=
  if k.coll.isEmpty then u.publicUpdates.updates[(⟨k.ns, k.key⟩ : CompositeKey)]? else u.hashUpdates[k]?

def latestState (db : DB) (k : CollKey) : Option VersionedValue :=
  if k.coll.isEmpty then db.pub.getState ⟨k.ns, k.key⟩ else db.hashed.getState k

def latestMetadata (db : DB) (k : CollKey) : Option Bytes :=
  if k.coll.isEmpty then db.getStateMetadata ⟨k.ns, k.key⟩ else db.getPrivateDataMetadataByHash k

def retrieveLatestState (k : CollKey) (precedingUpdates : PubAndHashUpdates) (db : DB) : Option VersionedValue :=
  (precedingUpdates.get k).or (latestState db k)

def retrieveLatestMetadata (k : CollKey) (precedingUpdates : PubAndHashUpdates) (db : DB) : Option Bytes :=
  match precedingUpdates.get k with
  | some vv => vv.metadata
  | none => latestMetadata db k

/-- The final state of a key: a value or a metadata that the transaction does not set is the latest one,
and metadata for a key that does not exist is dropped. -/
def finalKeyOps (precedingUpdates : PubAndHashUpdates) (db : DB) (ck : CollKey) (keyop : KeyOps) : Option KeyOps :=
  if keyop.isDelete || keyop.isUpsertAndMetadataUpdate then some keyop
  else if keyop.isOnlyUpsert then
    some { keyop with metadata := retrieveLatestMetadata ck precedingUpdates db }
  else
    match retrieveLatestState ck precedingUpdates db with
    | some latestVal => some { keyop with value := latestVal.value }
    | none => none

def prepareTxOps (codec : Codec) (rwset : TxRwSet) (precedingUpdates : PubAndHashUpdates) (db : DB) : TxOps :=
  (TxOps.applyTxRwset codec ∅ rwset).filterMap (finalKeyOps precedingUpdates db)

def PubAndHashUpdates.applyKeyOps (txHeight : Height) (u : PubAndHashUpdates) (op : CollKey × KeyOps) :
    Result PubAndHashUpdates :=
  let ck := op.1
  let keyops := op.2
  if ck.coll.isEmpty then
    let key : CompositeKey := ⟨ck.ns, ck.key⟩
    if keyops.isDelete then
      .ok { u with publicUpdates.updates := Updates.delete u.publicUpdates.updates key txHeight }
    else do
      let updates ← Updates.putValAndMetadata u.publicUpdates.updates key keyops.value keyops.metadata txHeight
      .ok { u with publicUpdates.updates := updates }
  else if keyops.isDelete then .ok { u with hashUpdates := Updates.delete u.hashUpdates ck txHeight }
  else do
    let hashUpdates ← Updates.putValAndMetadata u.hashUpdates ck keyops.value keyops.metadata txHeight
    .ok { u with hashUpdates }

def PubAndHashUpdates.applyWriteSet (codec : Codec) (u : PubAndHashUpdates) (txRWSet : TxRwSet) (txHeight : Height)
    (db : DB) (containsPostOrderWrites : Bool) : Result PubAndHashUpdates :=
  let u := { u with publicUpdates.containsPostOrderWrites :=
    u.publicUpdates.containsPostOrderWrites || containsPostOrderWrites }
  (prepareTxOps codec txRWSet u db).toList.foldlM (PubAndHashUpdates.applyKeyOps txHeight) u

end Fabric.Ledger.Validation
