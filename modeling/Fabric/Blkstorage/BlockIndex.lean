import Fabric.Lib.Varint
import Fabric.Ledger.Statedb

/-! # The index of the block store -/

namespace Fabric.Blkstorage

open Lib Ledger

structure LocPointer where
  offset : Nat
  bytesLength : Nat

structure FileLocPointer where
  fileSuffixNum : Nat
  offset : Nat
  bytesLength : Nat

def newFileLocationPointer (fileSuffixNum beginningOffset : Nat) (relativeLP : LocPointer) : FileLocPointer :=
  ⟨fileSuffixNum, beginningOffset + relativeLP.offset, relativeLP.bytesLength⟩

structure TxindexInfo where
  txID : Bytes
  loc : LocPointer

structure BlockIdxInfo where
  blockNum : Nat
  blockHash : Bytes
  flp : FileLocPointer
  txOffsets : List TxindexInfo
  txsfltr : List UInt8

inductive IndexValue where
  | location (flp : FileLocPointer)
  | txID (blkLocation txLocation : FileLocPointer) (txValidationCode : UInt8)
  | imported
  | savePoint (blockNum : Nat)

abbrev BlockIndex := Map Bytes IndexValue

def blockNumIdxKeyPrefix : UInt8 := 110
def blockHashIdxKeyPrefix : UInt8 := 104
def txIDIdxKeyPrefix : UInt8 := 116
def blockNumTranNumIdxKeyPrefix : UInt8 := 97

-- "indexCheckpointKey"
def indexSavePointKey : Bytes := [105, 110, 100, 101, 120, 67, 104, 101, 99, 107, 112, 111, 105, 110, 116, 75, 101, 121]

def constructBlockNumKey (blockNum : Nat) : Bytes :=
  blockNumIdxKeyPrefix :: Varint.encodeOrderPreserving blockNum

def constructBlockHashKey (blockHash : Bytes) : Bytes := blockHashIdxKeyPrefix :: blockHash

def txIDRangeStart (txID : Bytes) : Bytes :=
  txIDIdxKeyPrefix :: (Varint.encodeOrderPreserving txID.length ++ txID)

def constructTxIDKey (txID : Bytes) (blkNum txNum : Nat) : Bytes :=
  txIDRangeStart txID ++ (Varint.encodeOrderPreserving blkNum ++ Varint.encodeOrderPreserving txNum)

def constructBlockNumTranNumKey (blockNum txNum : Nat) : Bytes :=
  blockNumTranNumIdxKeyPrefix :: (Varint.encodeOrderPreserving blockNum ++ Varint.encodeOrderPreserving txNum)

def txIDEntry (info : BlockIdxInfo) (i : Nat) (txoffset : TxindexInfo) : Result (Bytes × IndexValue) :=
  match info.txsfltr[i]? with
  | none => .error (.panic s!"runtime error: index out of range [{i}] with length {info.txsfltr.length}")
  | some code => .ok (constructTxIDKey txoffset.txID info.blockNum i,
      .txID info.flp (newFileLocationPointer info.flp.fileSuffixNum info.flp.offset txoffset.loc) code)

def tranNumEntry (info : BlockIdxInfo) (i : Nat) (txoffset : TxindexInfo) : Bytes × IndexValue :=
  (constructBlockNumTranNumKey info.blockNum i,
    .location (newFileLocationPointer info.flp.fileSuffixNum info.flp.offset txoffset.loc))

variable (index : BlockIndex)

def BlockIndex.indexBlock (info : BlockIdxInfo) : Result BlockIndex := do
  let txIDEntries ← info.txOffsets.zipIdx.mapM fun t => txIDEntry info t.2 t.1
  .ok (putAll index (
    [(constructBlockHashKey info.blockHash, .location info.flp), (constructBlockNumKey info.blockNum, .location info.flp)] ++
    txIDEntries ++ info.txOffsets.zipIdx.map (fun t => tranNumEntry info t.2 t.1) ++
    [(indexSavePointKey, .savePoint info.blockNum)]))

-- The range ends before the start with the byte `0xff` behind it.
def BlockIndex.txIDEntriesOf (txID : Bytes) : List (Bytes × IndexValue) :=
  index.toList.filter fun e => prefixRange (txIDRangeStart txID) 255 e.1

def BlockIndex.txIDExists (txID : Bytes) : Bool := !(index.txIDEntriesOf txID).isEmpty

def importTxIDsFromSnapshot (txIDs : List Bytes) (lastBlockNumInSnapshot : Nat) : BlockIndex :=
  putAll ∅ (txIDs.zipIdx.map (fun t => (constructTxIDKey t.1 lastBlockNumInSnapshot t.2, .imported)) ++
    [(indexSavePointKey, .savePoint lastBlockNumInSnapshot)])

def retrieveTxID : Bytes → Result Bytes
  | [] => .error (.error "invalid txIDKey - zero-length slice")
  | first :: remainingBytes =>
    if first ≠ txIDIdxKeyPrefix then .error (.error "invalid txIDKey - unexpected prefix")
    else match Varint.decodeOrderPreserving remainingBytes with
      | none => .error (.error "invalid txIDKey")
      | some (txIDLen, remainingBytes) =>
        if remainingBytes.length ≤ txIDLen then .error (.error "invalid txIDKey, fewer bytes present")
        else .ok (remainingBytes.take txIDLen)

def uniqueTxIDs : Bytes → List Bytes → List Bytes
  | _, [] => []
  | previousTxID, txID :: txIDs =>
    if previousTxID = txID then uniqueTxIDs previousTxID txIDs else txID :: uniqueTxIDs txID txIDs

def BlockIndex.exportUniqueTxIDs : Result (Option (List Bytes)) := do
  let keys := index.keys.filter (inRange [txIDIdxKeyPrefix] [txIDIdxKeyPrefix + 1])
  let txIDs ← keys.mapM retrieveTxID
  .ok (if uniqueTxIDs [] txIDs = [] then none else some (uniqueTxIDs [] txIDs))

def bootstrapFromSnapshottedTxIDs (exported : Option (List Bytes)) (lastBlockNumInSnapshot : Nat) : Result BlockIndex :=
  match exported with
  | none => .error (.error "error while opening the snapshot file")
  | some txIDs => .ok (importTxIDsFromSnapshot txIDs lastBlockNumInSnapshot)

end Fabric.Blkstorage
