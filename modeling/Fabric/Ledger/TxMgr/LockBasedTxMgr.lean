import Fabric.Lib.Varint
import Fabric.Ledger.PvtdataStore

/-! # The bytes of the updates that enter the commit hash -/

namespace Fabric.Ledger.TxMgr

open Lib Ledger Ledger.Validation

def toBytes (h : Height) : Bytes :=
  Varint.encodeOrderPreserving h.blockNum ++ Varint.encodeOrderPreserving h.txNum

def genKV (kv : VersionedKV) : UpdateKVWrite where
  nameSpace := []
  collection := []
  key := kv.1
  isDelete := kv.2.isDelete
  value := kv.2.value.getD []
  versionBytes := toBytes kv.2.version

def dedupAndSort (names : List Bytes) : List Bytes :=
  (names.foldl (fun m name => m.insert name ()) (∅ : Map Bytes Unit)).keys

-- Only the first write of a collection, and of a namespace, carries its name.
def nameFirst (name : UpdateKVWrite → UpdateKVWrite) : List UpdateKVWrite → List UpdateKVWrite
  | [] => []
  | kv :: kvs => name kv :: kvs

def collEntries (entries : Updates CollKey) (ns coll : Bytes) : List VersionedKV :=
  entries.toList.filterMap fun e => if e.1.ns = ns ∧ e.1.coll = coll then some (e.1.key, e.2) else none

def genKVsFromCollsUpdates (hashUpdates : Updates CollKey) (ns : Bytes) : List UpdateKVWrite :=
  (dedupAndSort ((hashUpdates.keys.filter (·.ns = ns)).map (·.coll))).flatMap fun coll =>
    nameFirst ({ · with collection := coll }) ((collEntries hashUpdates ns coll).map genKV)

-- The empty namespace holds the channel configuration, which is not encoded deterministically.
def deterministicBytesForPubAndHashUpdates (codec : Codec) (u : PrivacyUpdateBatch) : Bytes :=
  let pubUpdates := u.pubUpdates.updates
  let namespaces := dedupAndSort (pubUpdates.keys.map (·.ns) ++ u.hashUpdates.keys.map (·.ns))
  codec.marshalUpdates ((namespaces.filter (!·.isEmpty)).flatMap fun ns =>
    nameFirst ({ · with nameSpace := ns })
      ((nsEntries pubUpdates ns).map genKV ++ genKVsFromCollsUpdates u.hashUpdates ns))

end Fabric.Ledger.TxMgr
