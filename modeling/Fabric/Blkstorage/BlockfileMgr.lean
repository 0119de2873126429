import Fabric.Blkstorage.Serialization

/-! # The block store -/

namespace Fabric.Blkstorage

open Lib Ledger

def hex (b : Bytes) : String :=
  String.join (b.map fun c => String.ofList [Nat.digitChar (c.toNat / 16), Nat.digitChar (c.toNat % 16)])

structure BlockPlacementInfo where
  fileNum : Nat
  blockStartOffset : Nat
  blockBytesOffset : Nat

def errUnexpectedEndOfBlockfile : Failure := .error "unexpected end of blockfile"

def nextBlockBytesAndPlacementInfo (file : Bytes) (fileNum currentOffset : Nat) :
    Result (Option (Bytes × BlockPlacementInfo × Nat)) :=
  if currentOffset = file.length then .ok none
  else if file.length < currentOffset then .error (.error "error peeking bytes from block file: bufio: negative count")
  else
    let remaining := file.drop currentOffset
    let lenBytes := remaining.take 8
    match Varint.decode lenBytes with
    | none =>
      if remaining.length < 8 then .error errUnexpectedEndOfBlockfile
      else .error (.panic s!"Error in decoding varint bytes [{lenBytes}]")
    | some (length, rest) =>
      let n := lenBytes.length - rest.length
      if remaining.length < n + length then .error errUnexpectedEndOfBlockfile
      else .ok (some ((remaining.drop n).take length, ⟨fileNum, currentOffset, currentOffset + n⟩,
        currentOffset + n + length))

def nextInFiles (endFileNum : Option Nat) : List Bytes → Nat → Nat → Result (Option (Bytes × BlockPlacementInfo × Nat))
  | [], fileNum, _ => .error (.error s!"error opening block file {fileNum}: no such file or directory")
  | file :: files, fileNum, currentOffset =>
    match nextBlockBytesAndPlacementInfo file fileNum currentOffset with
    | .ok none => if endFileNum.all (fileNum < ·) then nextInFiles endFileNum files (fileNum + 1) 0 else .ok none
    | r => r

structure BlockStream where
  currentFileNum : Nat
  currentOffset : Nat
  endFileNum : Option Nat

def BlockStream.nextBlockBytes (files : List Bytes) (s : BlockStream) :
    Result (Option (Bytes × BlockPlacementInfo × BlockStream)) := do
  let next ← nextInFiles s.endFileNum (files.drop s.currentFileNum) s.currentFileNum s.currentOffset
  .ok (next.map fun r => (r.1, r.2.1, { s with currentFileNum := r.2.1.fileNum, currentOffset := r.2.2 }))

structure BlockfilesInfo where
  latestFileNumber : Nat
  latestFileSize : Nat
  noBlockFiles : Bool
  lastPersistedBlock : Nat

structure BootstrappingSnapshotInfo where
  lastBlockNum : Nat
  lastBlockHash : Bytes
  previousBlockHash : Bytes

structure BlockchainInfo where
  height : Nat
  currentBlockHash : Bytes
  previousBlockHash : Bytes

structure Disk where
  files : List Bytes
  blkMgrInfo : Option BlockfilesInfo
  index : BlockIndex
  bootstrappingSnapshotInfo : Option BootstrappingSnapshotInfo

structure BlockfileMgr where
  disk : Disk
  blockfilesInfo : BlockfilesInfo
  bcInfo : BlockchainInfo

def Disk.firstPossibleBlockNumberInBlockFiles (disk : Disk) : Nat :=
  disk.bootstrappingSnapshotInfo.elim 0 (·.lastBlockNum + 1)

def errNilValue : Failure := .error "nil value"

def location (missing : String) : Option IndexValue → Result FileLocPointer
  | some (.location flp) => .ok flp
  | some _ => .error (.error "unexpected value in index")
  | none => .error (.error missing)

variable (index : BlockIndex)

def BlockIndex.getBlockLocByHash (blockHash : Bytes) : Result FileLocPointer :=
  location s!"no such block hash [{hex blockHash}] in index" index[constructBlockHashKey blockHash]?

def BlockIndex.getBlockLocByBlockNum (blockNum : Nat) : Result FileLocPointer :=
  location s!"no such block number [{blockNum}] in index" index[constructBlockNumKey blockNum]?

def BlockIndex.getTXLocByBlockNumTranNum (blockNum tranNum : Nat) : Result FileLocPointer :=
  location s!"no such blockNumber, transactionNumber <{blockNum}, {tranNum}> in index"
    index[constructBlockNumTranNumKey blockNum tranNum]?

structure TxIDIndexValue where
  blkLocation : FileLocPointer
  txLocation : FileLocPointer
  txValidationCode : UInt8

def BlockIndex.getTxIDVal (txID : Bytes) : Result (TxIDIndexValue × Nat) :=
  match (index.txIDEntriesOf txID).head? with
  | none => .error (.error s!"no such transaction ID [{txID}] in index")
  | some (_, .imported) => .error errNilValue
  | some (key, .txID blkLocation txLocation txValidationCode) =>
    match Varint.decodeOrderPreserving (key.drop (txIDRangeStart txID).length) with
    | none => .error (.error "error while decoding block number from txID index key")
    | some (blockNum, _) => .ok (⟨blkLocation, txLocation, txValidationCode⟩, blockNum)
  | some _ => .error (.error "unexpected value in index")

def BlockIndex.getLastBlockIndexed : Option Nat :=
  match index[indexSavePointKey]? with
  | some (.savePoint blockNum) => some blockNum
  | _ => none

def transactionsFilter : Nat := 2

def indexStoredBlock (blockHash : Bytes) (flp : FileLocPointer) (info : SerializedBlockInfo) :
    Result BlockIndex :=
  match info.metadata[transactionsFilter]? with
  | none => .error (.panic s!"runtime error: index out of range [2] with length {info.metadata.length}")
  | some txsfltr => index.indexBlock ⟨info.blockHeader.number, blockHash, flp, info.txOffsets, txsfltr⟩

def SerializedBlockInfo.shift (numBytesToShift : Nat) (info : SerializedBlockInfo) : SerializedBlockInfo :=
  { info with txOffsets := info.txOffsets.map fun t => { t with loc := { t.loc with offset := t.loc.offset + numBytesToShift } } }

variable {Envelope : Type} (protos : Protos Envelope) (files : List Bytes)

def fetchBlockBytes (lp : FileLocPointer) : Result Bytes :=
  match files[lp.fileSuffixNum]? with
  | none => .error (.error s!"error opening block file {lp.fileSuffixNum}: no such file or directory")
  | some file => do
    let next ← nextBlockBytesAndPlacementInfo file lp.fileSuffixNum lp.offset
    .ok (next.elim [] (·.1))

def fetchBlock (lp : FileLocPointer) : Result Block := do
  let blockBytes ← fetchBlockBytes files lp
  deserializeBlock protos blockBytes

def fetchRawBytes (lp : FileLocPointer) : Result Bytes :=
  match files[lp.fileSuffixNum]? with
  | none => .error (.error s!"error opening block file reader for file {lp.fileSuffixNum}: no such file or directory")
  | some file =>
    if file.length < lp.offset + lp.bytesLength then
      .error (.error s!"error reading block file for offset {lp.offset} and length {lp.bytesLength}: EOF")
    else .ok ((file.drop lp.offset).take lp.bytesLength)

def fetchTransactionEnvelope (lp : FileLocPointer) : Result Envelope := do
  let txEnvelopeBytes ← fetchRawBytes files lp
  protos.getEnvelopeFromBlock ((Varint.decode txEnvelopeBytes).elim txEnvelopeBytes (·.2))

def notServed {α : Type} (blockNum first : Nat) : Result α :=
  .error (.error (s!"cannot serve block [{blockNum}]. The ledger is bootstrapped from a snapshot. " ++
    s!"First available block = [{first}]"))

def Disk.retrieveBlockHeaderByNumber (disk : Disk) (blockNum : Nat) : Result BlockHeader :=
  if blockNum < disk.firstPossibleBlockNumberInBlockFiles then notServed blockNum disk.firstPossibleBlockNumberInBlockFiles
  else do
    let loc ← disk.index.getBlockLocByBlockNum blockNum
    let blockBytes ← fetchBlockBytes disk.files loc
    let info ← extractSerializedBlockInfo protos blockBytes
    .ok info.blockHeader

namespace BlockfileMgr

variable (mgr : BlockfileMgr)

def retrieveBlockByHash (blockHash : Bytes) : Result Block := do
  let loc ← mgr.disk.index.getBlockLocByHash blockHash
  fetchBlock protos mgr.disk.files loc

def blockNumToServe (blockNum : Nat) : Nat :=
  if blockNum = 2 ^ 64 - 1 then (mgr.bcInfo.height + 2 ^ 64 - 1) % 2 ^ 64 else blockNum

def retrieveBlockByNumber (blockNum : Nat) : Result Block :=
  let blockNum := mgr.blockNumToServe blockNum
  if blockNum < mgr.disk.firstPossibleBlockNumberInBlockFiles then
    notServed blockNum mgr.disk.firstPossibleBlockNumberInBlockFiles
  else do
    let loc ← mgr.disk.index.getBlockLocByBlockNum blockNum
    fetchBlock protos mgr.disk.files loc

variable (txID : Bytes)

def detailsForTxID {α : Type} : Result α → Result α
  | .error failure =>
    if failure = errNilValue then
      .error (.error (s!"details for the TXID [{txID}] not available. Ledger bootstrapped from a snapshot. " ++
        s!"First available block = [{mgr.disk.firstPossibleBlockNumberInBlockFiles}]"))
    else .error failure
  | r => r

def retrieveBlockByTxID : Result Block := do
  let v ← mgr.detailsForTxID txID (mgr.disk.index.getTxIDVal txID)
  fetchBlock protos mgr.disk.files v.1.blkLocation

def retrieveTransactionByID : Result Envelope := do
  let v ← mgr.detailsForTxID txID (mgr.disk.index.getTxIDVal txID)
  fetchTransactionEnvelope protos mgr.disk.files v.1.txLocation

def retrieveTxValidationCodeByTxID : Result (UInt8 × Nat) := do
  let v ← mgr.detailsForTxID txID (mgr.disk.index.getTxIDVal txID)
  .ok (v.1.txValidationCode, v.2)

def txIDExists : Bool := mgr.disk.index.txIDExists txID

def retrieveTransactionByBlockNumTranNum (blockNum tranNum : Nat) : Result Envelope :=
  if blockNum < mgr.disk.firstPossibleBlockNumberInBlockFiles then
    notServed blockNum mgr.disk.firstPossibleBlockNumberInBlockFiles
  else do
    let loc ← mgr.disk.index.getTXLocByBlockNumTranNum blockNum tranNum
    fetchTransactionEnvelope protos mgr.disk.files loc

end BlockfileMgr

variable (files : List Bytes)

def openFile (fileNum : Nat) : List Bytes := if fileNum < files.length then files else files ++ [[]]

def appendTo (fileNum : Nat) (b : Bytes) : List Bytes := files.modify fileNum (· ++ b)

def truncateFile (fileNum targetSize : Nat) : List Bytes := files.modify fileNum (·.take targetSize)

def BlockfileMgr.moveToNextFile (mgr : BlockfileMgr) : BlockfileMgr :=
  let blkfilesInfo : BlockfilesInfo :=
    { latestFileNumber := mgr.blockfilesInfo.latestFileNumber + 1
      latestFileSize := 0
      noBlockFiles := false
      lastPersistedBlock := mgr.blockfilesInfo.lastPersistedBlock }
  { mgr with
    disk := { mgr.disk with
      files := openFile mgr.disk.files blkfilesInfo.latestFileNumber
      blkMgrInfo := some blkfilesInfo }
    blockfilesInfo := blkfilesInfo }

/-- The calls of the file system and of the database that can fail, with the number of bytes that a failed
append has written.  An error of the truncation that follows is not looked at. -/
inductive Fault where
  | append (written : Nat) (truncated : Bool)
  | checkpoint (truncated : Bool)
  | index
  deriving DecidableEq

def BlockfileMgr.afterFailedWrite (mgr : BlockfileMgr) (written : Bytes) (truncated : Bool) : BlockfileMgr :=
  let info := mgr.blockfilesInfo
  let files := appendTo mgr.disk.files info.latestFileNumber written
  { mgr with disk := { mgr.disk with
      files := if truncated then truncateFile files info.latestFileNumber info.latestFileSize else files } }

def BlockfileMgr.writeBlock (mgr : BlockfileMgr) (block : Block) (blockBytes : Bytes) (info : SerializedBlockInfo)
    (fault : Option Fault) : BlockfileMgr × Result Unit :=
  let lengthBytes := Varint.encode blockBytes.length
  let current := mgr.blockfilesInfo
  match fault with
  | some (.append written truncated) =>
    (mgr.afterFailedWrite ((lengthBytes ++ blockBytes).take written) truncated,
      .error (.error "error appending block to file"))
  | some (.checkpoint truncated) =>
    (mgr.afterFailedWrite (lengthBytes ++ blockBytes) truncated,
      .error (.error "error saving blockfiles file info to db"))
  | _ =>
    let newBlkfilesInfo : BlockfilesInfo :=
      { latestFileNumber := current.latestFileNumber
        latestFileSize := current.latestFileSize + (blockBytes.length + lengthBytes.length)
        noBlockFiles := false
        lastPersistedBlock := block.header.number }
    let written : Disk := { mgr.disk with
      files := appendTo mgr.disk.files current.latestFileNumber (lengthBytes ++ blockBytes)
      blkMgrInfo := some newBlkfilesInfo }
    let blockHash := protos.blockHeaderHash block.header
    let flp : FileLocPointer := ⟨newBlkfilesInfo.latestFileNumber, current.latestFileSize, 0⟩
    if fault = some .index then ({ mgr with disk := written }, .error (.error "error writing the index"))
    else match indexStoredBlock mgr.disk.index blockHash flp (info.shift lengthBytes.length) with
      | .error failure => ({ mgr with disk := written }, .error failure)
      | .ok index =>
        ({ disk := { written with index := index }
           blockfilesInfo := newBlkfilesInfo
           bcInfo := ⟨mgr.bcInfo.height + 1, blockHash, block.header.previousHash⟩ }, .ok ())

def BlockfileMgr.addBlock (maxBlockfileSize : Nat) (mgr : BlockfileMgr) (block : Block) (fault : Option Fault) :
    BlockfileMgr × Result Unit :=
  if block.header.number ≠ mgr.bcInfo.height then
    (mgr, .error (.error s!"block number should have been {mgr.bcInfo.height} but was {block.header.number}"))
  else if block.header.previousHash ≠ mgr.bcInfo.currentBlockHash then
    (mgr, .error (.error ("unexpected Previous block hash. Expected PreviousHash = " ++
      s!"[{hex mgr.bcInfo.currentBlockHash}], PreviousHash referred in the latest block= [{hex block.header.previousHash}]")))
  else
    let serialized := serializeBlock protos block
    let totalBytesToAppend := serialized.1.length + (Varint.encode serialized.1.length).length
    if maxBlockfileSize < mgr.blockfilesInfo.latestFileSize + totalBytesToAppend then
      mgr.moveToNextFile.writeBlock protos block serialized.1 serialized.2 fault
    else mgr.writeBlock protos block serialized.1 serialized.2 fault

structure Scan where
  lastBlockBytes : Option Bytes
  endOffset : Nat
  numBlocks : Nat

def scanBlocks (file : Bytes) (fileNum : Nat) : Nat → Scan → Result Scan
  | 0, scan => .ok scan
  | fuel + 1, scan =>
    match nextBlockBytesAndPlacementInfo file fileNum scan.endOffset with
    | .ok none => .ok scan
    | .ok (some (blockBytes, _, endOffset)) => scanBlocks file fileNum fuel ⟨some blockBytes, endOffset, scan.numBlocks + 1⟩
    | .error failure => if failure = errUnexpectedEndOfBlockfile then .ok scan else .error failure

def scanForLastCompleteBlock (fileNum startingOffset : Nat) : Result Scan :=
  match files[fileNum]? with
  | none => .error (.error s!"error opening block file {fileNum}: no such file or directory")
  | some file => scanBlocks file fileNum (file.length + 1) ⟨none, startingOffset, 0⟩

def syncBlockfilesInfoFromFS (info : BlockfilesInfo) : Result BlockfilesInfo :=
  if (files[info.latestFileNumber]?).all (·.length = info.latestFileSize) then .ok info
  else do
    let scan ← scanForLastCompleteBlock files info.latestFileNumber info.latestFileSize
    .ok (if scan.numBlocks = 0 then { info with latestFileSize := scan.endOffset }
      else { info with
        latestFileSize := scan.endOffset
        lastPersistedBlock :=
          if info.noBlockFiles then scan.numBlocks - 1 else info.lastPersistedBlock + scan.numBlocks
        noBlockFiles := false })

-- The last block may be in the last file or, when that has none, in the one before it.
def constructBlockfilesInfo : Result BlockfilesInfo :=
  match files.length with
  | 0 => .ok ⟨0, 0, true, 0⟩
  | lastFileNum + 1 => do
    let scan ← scanForLastCompleteBlock files lastFileNum 0
    let before ← if scan.numBlocks = 0 ∧ 0 < lastFileNum then scanForLastCompleteBlock files (lastFileNum - 1) 0 else .ok scan
    let lastBlockNumber ← before.lastBlockBytes.elim (.ok 0) fun bytes =>
      (deserializeBlock protos bytes).map (·.header.number)
    .ok ⟨lastFileNum, scan.endOffset, lastFileNum = 0 ∧ scan.numBlocks = 0, lastBlockNumber⟩

def retrieveFirstBlockNumFromFile (fileNum : Nat) : Result Nat := do
  let blockBytes ← fetchBlockBytes files ⟨fileNum, 0, 0⟩
  let info ← extractSerializedBlockInfo protos blockBytes
  .ok info.blockHeader.number

def indexBlocks (files : List Bytes) : Nat → BlockStream → BlockIndex → Result BlockIndex
  | 0, _, index => .ok index
  | fuel + 1, stream, index => do
    match ← stream.nextBlockBytes files with
    | none => .ok index
    | some (blockBytes, placement, stream) =>
      let info ← extractSerializedBlockInfo protos blockBytes
      let index ← indexStoredBlock index (protos.blockHeaderHash info.blockHeader)
        ⟨placement.fileNum, placement.blockStartOffset, 0⟩
        (info.shift (placement.blockBytesOffset - placement.blockStartOffset))
      indexBlocks files fuel stream index

def skipBlock (lastBlockIndexed : Nat) (stream : BlockStream) : Result BlockStream := do
  match ← stream.nextBlockBytes files with
  | none => .error (.error (s!"block bytes for block num = [{lastBlockIndexed}] should not be nil here. " ++
      "The indexes for the block are already present"))
  | some (_, _, stream) => .ok stream

def syncIndex (disk : Disk) (info : BlockfilesInfo) : Result BlockIndex :=
  let lastBlockIndexed := disk.index.getLastBlockIndexed
  let nextIndexableBlock := lastBlockIndexed.elim 0 (· + 1)
  if nextIndexableBlock = 0 ∧ 0 < disk.firstPossibleBlockNumberInBlockFiles then
    .error (.error ("cannot sync index with block files. blockstore is bootstrapped from a snapshot and first " ++
      s!"available block=[{disk.firstPossibleBlockNumberInBlockFiles}]"))
  else if info.noBlockFiles then .ok disk.index
  else if nextIndexableBlock = info.lastPersistedBlock + 1 then .ok disk.index
  else do
    let fuel := (disk.files.map List.length).sum + 1
    let firstAvailableBlkNum ← retrieveFirstBlockNumFromFile protos disk.files 0
    if firstAvailableBlkNum < nextIndexableBlock then do
      let flp ← disk.index.getBlockLocByBlockNum (nextIndexableBlock - 1)
      let stream ← skipBlock disk.files (nextIndexableBlock - 1) ⟨flp.fileSuffixNum, flp.offset, some info.latestFileNumber⟩
      indexBlocks protos disk.files fuel stream disk.index
    else indexBlocks protos disk.files fuel ⟨0, 0, some info.latestFileNumber⟩ disk.index

def orPanic {α : Type} (msg : String) : Result α → Result α
  | .error (.error cause) => .error (.panic (msg ++ ": " ++ cause))
  | r => r

def bootstrappedInfo (disk : Disk) : BlockchainInfo :=
  disk.bootstrappingSnapshotInfo.elim ⟨0, [], []⟩ fun bsi => ⟨bsi.lastBlockNum + 1, bsi.lastBlockHash, bsi.previousBlockHash⟩

def loadBlockfilesInfo (disk : Disk) : Result BlockfilesInfo :=
  match disk.blkMgrInfo with
  | none => orPanic "Could not build blockfilesInfo info from block files" (constructBlockfilesInfo protos disk.files)
  | some info =>
    orPanic "Could not open current file for detecting last block in the file" (syncBlockfilesInfoFromFS disk.files info)

def Disk.withWriter (disk : Disk) (info : BlockfilesInfo) : Disk :=
  { disk with
    files := truncateFile (openFile disk.files info.latestFileNumber) info.latestFileNumber info.latestFileSize
    blkMgrInfo := some info }

def newBlockfileMgr (disk : Disk) : Result BlockfileMgr := do
  let info ← loadBlockfilesInfo protos disk
  let disk := disk.withWriter info
  let index ← syncIndex protos disk info
  let disk := { disk with index := index }
  if info.noBlockFiles then .ok ⟨disk, info, bootstrappedInfo disk⟩
  else do
    let lastBlockHeader ← orPanic "Could not retrieve header of the last block form file"
      (disk.retrieveBlockHeaderByNumber protos info.lastPersistedBlock)
    .ok ⟨disk, info, info.lastPersistedBlock + 1, protos.blockHeaderHash lastBlockHeader, lastBlockHeader.previousHash⟩

inductive Start where
  | empty
  | snapshot (bsi : BootstrappingSnapshotInfo) (txIDs : List Bytes)

def Start.disk : Start → Disk
  | .empty => ⟨[], none, ∅, none⟩
  | .snapshot bsi txIDs => ⟨[], none, importTxIDsFromSnapshot txIDs bsi.lastBlockNum, some bsi⟩

structure BlocksItr where
  maxBlockNumAvailable : Nat
  blockNumToRetrieve : Nat
  stream : Option BlockStream

def BlockfileMgr.retrieveBlocks (mgr : BlockfileMgr) (startNum : Nat) : Result BlocksItr :=
  if startNum < mgr.disk.firstPossibleBlockNumberInBlockFiles then
    notServed startNum mgr.disk.firstPossibleBlockNumberInBlockFiles
  else .ok ⟨mgr.blockfilesInfo.lastPersistedBlock, startNum, none⟩

variable (itr : BlocksItr)

def BlocksItr.openStream (mgr : BlockfileMgr) : Result BlockStream :=
  match itr.stream with
  | some stream => .ok stream
  | none => do
    let lp ← mgr.disk.index.getBlockLocByBlockNum itr.blockNumToRetrieve
    .ok ⟨lp.fileSuffixNum, lp.offset, none⟩

def BlocksItr.available (mgr : BlockfileMgr) : Nat :=
  if itr.maxBlockNumAvailable < itr.blockNumToRetrieve then mgr.blockfilesInfo.lastPersistedBlock
  else itr.maxBlockNumAvailable

def BlocksItr.next (mgr : BlockfileMgr) : Option (Result (Block × BlocksItr)) :=
  let available := itr.available mgr
  if available < itr.blockNumToRetrieve then none
  else some do
    let stream ← itr.openStream mgr
    match ← stream.nextBlockBytes mgr.disk.files with
    | none =>
      let block ← deserializeBlock protos []
      .ok (block, ⟨available, itr.blockNumToRetrieve + 1, some stream⟩)
    | some (blockBytes, _, stream) =>
      let block ← deserializeBlock protos blockBytes
      .ok (block, ⟨available, itr.blockNumToRetrieve + 1, some stream⟩)

structure Reader where
  startNum : Nat
  itr : BlocksItr
  served : List Block

structure Session where
  mgr : BlockfileMgr
  added : List Block
  readers : List Reader

inductive Op where
  | addBlock (block : Block) (fault : Option Fault)
  | reopen
  | retrieveBlocks (startNum : Nat)
  | next (reader : Nat)

def Session.step (maxBlockfileSize : Nat) (s : Session) : Op → Option Session
  | .addBlock block fault =>
    match s.mgr.addBlock protos maxBlockfileSize block fault with
    | (mgr, .ok ()) => some { s with mgr := mgr, added := s.added ++ [block] }
    | (mgr, .error (.error _)) => some { s with mgr := mgr }
    | (_, .error (.panic _)) => none
  | .reopen => (newBlockfileMgr protos s.mgr.disk).toOption.map fun mgr => { s with mgr := mgr, readers := [] }
  | .retrieveBlocks startNum => (s.mgr.retrieveBlocks startNum).toOption.map fun itr =>
    { s with readers := s.readers ++ [⟨startNum, itr, []⟩] }
  | .next i => do
    let reader ← s.readers[i]?
    match ← reader.itr.next protos s.mgr with
    | .ok (block, itr) =>
      some { s with readers := s.readers.set i { reader with itr := itr, served := reader.served ++ [block] } }
    | .error _ => some s

end Fabric.Blkstorage
