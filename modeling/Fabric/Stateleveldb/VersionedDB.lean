import Fabric.Lib.Cursor
import Fabric.Lib.PrefixRange
import Fabric.Ledger.Statedb

/-! # The state database in LevelDB -/

namespace Fabric.Stateleveldb

open Lib Ledger

def dbNameKeySep : UInt8 := 0

def nsKeySep : UInt8 := 0

def lastKeyIndicator : UInt8 := 1

def dataKeyPrefix : Bytes := [100]

def dataKeyStopper : Bytes := [101]

/-- A named database; the name of a channel has only letters, digits, dots and dashes. -/
structure DBHandle where
  dbName : Bytes
  sepFree : dbNameKeySep ∉ dbName

def DBHandle.constructLevelKey (h : DBHandle) (key : Bytes) : Bytes := h.dbName ++ dbNameKeySep :: key

def splitAt (sep : UInt8) (b : Bytes) : Bytes × Bytes := (b.takeWhile (· ≠ sep), (b.dropWhile (· ≠ sep)).tail)

def retrieveAppKey (levelKey : Bytes) : Bytes := (splitAt dbNameKeySep levelKey).2

def encodeDataKey (ns key : Bytes) : Bytes := dataKeyPrefix ++ ns ++ nsKeySep :: key

def decodeDataKey (encodedDataKey : Bytes) : CompositeKey :=
  ⟨(splitAt nsKeySep encodedDataKey).1.tail, (splitAt nsKeySep encodedDataKey).2⟩

def dataKeyStarterForNextNamespace (ns : Bytes) : Bytes := dataKeyPrefix ++ ns ++ [lastKeyIndicator]

/-- A state entry as `encodeValue` encodes it, or what is stored under another key, such as the savepoint. -/
inductive DbValue where
  | encoded (vv : VersionedValue)
  | other (bytes : Bytes)

def decodeValue : DbValue → Result VersionedValue
  | .encoded vv => .ok vv
  | .other _ => .error (.error "proto: cannot parse invalid wire-format data")

def IsEntry (k : Bytes) : DbValue → Prop
  | .encoded _ => ∃ (h : DBHandle) (ns key : Bytes), k = h.constructLevelKey (encodeDataKey ns key)
  | .other _ => ∃ (h : DBHandle) (key : Bytes), k = h.constructLevelKey key ∧ ¬ dataKeyPrefix <+: key

structure LevelDB where
  entries : Map Bytes DbValue
  typed : ∀ (k : Bytes) (v : DbValue), entries[k]? = some v → IsEntry k v

namespace LevelDB

variable (db : LevelDB) (h : DBHandle)

def getState (ns key : Bytes) : Result (Option VersionedValue) :=
  match db.entries[h.constructLevelKey (encodeDataKey ns key)]? with
  | none => .ok none
  | some dbVal => some <$> decodeValue dbVal

def getIterator (startKey endKey : Bytes) : Cursor Bytes DbValue where
  entries := db.entries.toList.filter fun e =>
    (compare (h.constructLevelKey startKey) e.1).isLE && compare e.1 (h.constructLevelKey endKey) == .lt
  pos := 0

end LevelDB

structure KvScanner where
  ns : Bytes
  dbItr : Cursor Bytes DbValue
  requestedLimit : Int
  totalRecordsReturned : Int

def getStateRangeScanIteratorWithPagination (db : LevelDB) (h : DBHandle) (ns startKey endKey : Bytes) (pageSize : Int) :
    KvScanner :=
  let dataStartKey := encodeDataKey ns startKey
  let dataEndKey := if endKey.isEmpty then (encodeDataKey ns endKey).dropLast ++ [lastKeyIndicator] else encodeDataKey ns endKey
  ⟨ns, db.getIterator h dataStartKey dataEndKey, pageSize, 0⟩

namespace KvScanner

def next (scanner : KvScanner) : Result (Option (CompositeKey × VersionedValue) × KvScanner) :=
  if scanner.requestedLimit > 0 ∧ scanner.totalRecordsReturned ≥ scanner.requestedLimit then .ok (none, scanner)
  else match scanner.dbItr.next with
    | (none, dbItr) => .ok (none, { scanner with dbItr })
    | (some (dbKey, dbVal), dbItr) => do
      let vv ← decodeValue dbVal
      .ok (some (⟨scanner.ns, (decodeDataKey (retrieveAppKey dbKey)).key⟩, vv),
        { scanner with dbItr, totalRecordsReturned := scanner.totalRecordsReturned + 1 })

def getBookmarkAndClose (scanner : KvScanner) : Bytes :=
  match scanner.dbItr.next.1 with
  | none => []
  | some (dbKey, _) => (decodeDataKey (retrieveAppKey dbKey)).key

def drain : Nat → KvScanner → Result (List (CompositeKey × VersionedValue) × KvScanner)
  | 0, scanner => .ok ([], scanner)
  | fuel + 1, scanner => do
    match ← scanner.next with
    | (none, scanner) => .ok ([], scanner)
    | (some kv, scanner) =>
      let (kvs, scanner) ← drain fuel scanner
      .ok (kv :: kvs, scanner)

end KvScanner

def scanPage (db : LevelDB) (h : DBHandle) (ns startKey endKey : Bytes) (pageSize : Int) :
    Result (List (CompositeKey × VersionedValue) × Bytes) := do
  let scanner := getStateRangeScanIteratorWithPagination db h ns startKey endKey pageSize
  let (kvs, scanner) ← scanner.drain (scanner.dbItr.entries.length + 1)
  .ok (kvs, scanner.getBookmarkAndClose)

inductive Pages (db : LevelDB) (h : DBHandle) (ns endKey : Bytes) (pageSize : Int) :
    Bytes → List (List (CompositeKey × VersionedValue)) → Prop
  | last {startKey page} : scanPage db h ns startKey endKey pageSize = .ok (page, []) →
      Pages db h ns endKey pageSize startKey [page]
  | more {startKey page bookmark pages} : scanPage db h ns startKey endKey pageSize = .ok (page, bookmark) →
      bookmark ≠ [] → Pages db h ns endKey pageSize bookmark pages → Pages db h ns endKey pageSize startKey (page :: pages)

structure FullDBScanner where
  db : DBHandle
  dbItr : Cursor Bytes DbValue
  toSkip : Bytes → Bool

def newFullDBScanner (db : LevelDB) (h : DBHandle) (skipNamespace : Bytes → Bool) : FullDBScanner :=
  ⟨h, db.getIterator h dataKeyPrefix dataKeyStopper, skipNamespace⟩

namespace FullDBScanner

def nextWith : Nat → FullDBScanner → Result (Option (CompositeKey × VersionedValue) × FullDBScanner)
  | 0, s => .ok (none, s)
  | fuel + 1, s =>
    match s.dbItr.next with
    | (none, dbItr) => .ok (none, { s with dbItr })
    | (some (dbKey, dbVal), dbItr) => do
      let compositeKey := decodeDataKey (retrieveAppKey dbKey)
      let versionedVal ← decodeValue dbVal
      if !s.toSkip compositeKey.ns then .ok (some (compositeKey, versionedVal), { s with dbItr })
      else
        let nextKey := s.db.constructLevelKey (dataKeyStarterForNextNamespace compositeKey.ns)
        nextWith fuel { s with dbItr := (dbItr.seek nextKey).prev }

-- Every round of the loop moves the iterator forward.
def next (s : FullDBScanner) : Result (Option (CompositeKey × VersionedValue) × FullDBScanner) :=
  s.nextWith (s.dbItr.entries.length + 1)

def drain : Nat → FullDBScanner → Result (List (CompositeKey × VersionedValue))
  | 0, _ => .ok []
  | fuel + 1, s => do
    match ← s.next with
    | (none, _) => .ok []
    | (some kv, s) => return kv :: (← drain fuel s)

def results (s : FullDBScanner) : Result (List (CompositeKey × VersionedValue)) := s.drain (s.dbItr.entries.length + 1)

end FullDBScanner

end Fabric.Stateleveldb
