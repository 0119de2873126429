import Fabric.Ledger.TxMgr.LockBasedTxMgr

/-! # Verification of reconciled private data -/

namespace Fabric.Ledger

open Lib Validation PvtdataStorage

def purgeMarkers (purgeUpdates : PvtdataPurgeTracker) : List PurgeMarker :=
  purgeUpdates.toList.map fun u => ⟨u.1.ns, u.1.coll, u.1.key, u.2.txNum⟩

def retrieveCollKVHashes (txRWSet : TxRwSet) (ns coll : Bytes) : KVHashes :=
  match retrieveHashedColl txRWSet ns coll with
  | none => ∅
  | some c => putAll ∅ (c.hashedRwSet.hashedWrites.map fun h => (h.keyHash, h.valueHash))

def getPvtDataHash (txRWSet : TxRwSet) (ns coll : Bytes) : Option Bytes :=
  (txRWSet.nsRwSets.find? (·.nameSpace = ns)).bind fun nsRwSet =>
    (nsRwSet.collHashedRwSets.find? (·.collectionName = coll)).bind (·.pvtRwSetHash)

def matchKeys (codec : Codec) : List KVWrite → KVHashes → Option (List KVWrite × KVHashes)
  | [], kvHashes => some ([], kvHashes)
  | kv :: pvtKVs, kvHashes =>
    let keyHash := codec.computeHash kv.key
    match kvHashes[keyHash]? with
    | none => matchKeys codec pvtKVs kvHashes
    | some expectedValueHash =>
      if expectedValueHash = codec.computeHash kv.value then
        (matchKeys codec pvtKVs (kvHashes.erase keyHash)).map fun r => (kv :: r.1, r.2)
      else none

def validateAndRemovePurgedKeys (codec : Codec) (s : Store) (coll : CollPvtRwSet) (kvHashes : KVHashes)
    (collWSHashFromBlock : Option Bytes) (ns : Bytes) (ht : Height) : Option CollPvtRwSet :=
  let trimmedKVHashes := s.removeAppInitiatedPurgesUsingReconMarker kvHashes ns coll.collectionName ht
  let pvtKVs := coll.kvRwSet.writes
  -- All keys are purged: the empty write-set removes the entry for the missing data.
  if trimmedKVHashes.isEmpty then some ⟨coll.collectionName, ⟨[], []⟩⟩
  else if collWSHashFromBlock.isSome && trimmedKVHashes.size == kvHashes.size && pvtKVs.length == kvHashes.size then
    if codec.computeHash (codec.marshalKVRWSet coll.kvRwSet) = collWSHashFromBlock.getD [] then some coll else none
  else if pvtKVs.length < trimmedKVHashes.size then none
  else match matchKeys codec pvtKVs trimmedKVHashes with
  | none => none
  | some (finalPvtKVs, leftover) =>
    if leftover.isEmpty then some ⟨coll.collectionName, ⟨finalPvtKVs, []⟩⟩ else none

end Fabric.Ledger
