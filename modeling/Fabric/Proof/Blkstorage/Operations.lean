import Fabric.Lib.Extract
import Fabric.Proof.Blkstorage.Store

/-! # Opening a store and adding blocks -/

namespace Fabric.Proof.Blkstorage

open Lib Fabric.Ledger Fabric.Blkstorage List Layout Chain Placement BlockIndex SerializedBlockInfo
open BlockfileMgr (addBlock writeBlock)

variable {Envelope : Type} {pbs : Protos Envelope} {chain : Chain} {lay : Layout} {last : List Block}
  {mgr : BlockfileMgr} {block : Block}

theorem modify_last {α : Type} (xs : List α) (a : α) (f : α → α) : (xs ++ [a]).modify xs.length f = xs ++ [f a] := by
  induction xs with
  | nil => rfl
  | cons x xs ih => simp [ih]

theorem Layout.files_concat (lay : Layout) (last : List Block) : files (lay ++ [last]) = lay.files ++ [fileBytes last] := by
  simp [files]

@[simp] theorem Layout.length_files (lay : Layout) : lay.files.length = lay.length := by
  simp [files]

theorem appendTo_files (lay : Layout) (last : List Block) (b : Bytes) :
    appendTo (files (lay ++ [last])) lay.length b = lay.files ++ [fileBytes last ++ b] := by
  rw [appendTo, files_concat, ← lay.length_files, modify_last]

theorem appendTo_files_frame (lay : Layout) (last : List Block) (block : Block) :
    appendTo (files (lay ++ [last])) lay.length (frame block) = files (lay ++ [last ++ [block]]) := by
  rw [appendTo_files, files_concat, fileBytes_append, fileBytes_cons, fileBytes_nil, append_nil]

theorem truncateFile_append (lay : Layout) (last : List Block) (b : Bytes) :
    truncateFile (lay.files ++ [fileBytes last ++ b]) lay.length (fileBytes last).length = files (lay ++ [last]) := by
  rw [truncateFile, ← lay.length_files, modify_last, take_left, files_concat]

theorem openFile_next (lay : Layout) (last : List Block) :
    openFile (files (lay ++ [last])) (lay.length + 1) = files ((lay ++ [last]) ++ [[]]) := by
  rw [openFile, if_neg (by simp), files_concat (lay ++ [last])]
  rfl

def Indexable (block : Block) : Prop :=
  ∃ txsfltr, block.metadata[transactionsFilter]? = some txsfltr ∧ block.data.length ≤ txsfltr.length

section

variable (pbs) (index : BlockIndex) (p : Placement)

def Placement.indexStored : Result BlockIndex :=
  indexStoredBlock index (pbs.blockHeaderHash p.block.header) p.flp
    ((blockInfo pbs p.block).shift (Varint.encode (blockBytes p.block).length).length)

variable {pbs index p}

theorem indexStored_of_filter {txsfltr : List UInt8} (isFilter : p.block.metadata[transactionsFilter]? = some txsfltr) :
    p.indexStored pbs index = index.indexBlock (p.idxInfo pbs) := by
  simp only [indexStored, indexStoredBlock, shift, blockInfo, isFilter, idxInfo]
  rfl

theorem indexStored_of_indexable (indexable : Indexable p.block) :
    p.indexStored pbs index = .ok (putAll index (blockEntries (p.idxInfo pbs))) := by
  obtain ⟨txsfltr, isFilter, enough⟩ := indexable
  rw [indexStored_of_filter isFilter, indexBlock_eq]
  simpa [idxInfo, isFilter] using enough

theorem indexBlock_panics {info : BlockIdxInfo} (few : ¬ info.txOffsets.length ≤ info.txsfltr.length) :
    ∃ msg, index.indexBlock info = .error (.panic msg) := by
  cases indexed : index.indexBlock info with
  | ok index' => exact absurd (enough_of_indexBlock indexed) few
  | error failure =>
    rw [indexBlock] at indexed
    cases made : info.txOffsets.zipIdx.mapM fun t => txIDEntry info t.2 t.1 with
    | ok entries =>
      rw [made] at indexed
      cases indexed
    | error e =>
      rw [made] at indexed
      obtain rfl : e = failure := Except.error.inj indexed
      obtain ⟨t, _, isError⟩ := mem_of_mapM_eq_error made
      rw [txIDEntry] at isError
      split at isError
      · exact ⟨_, congrArg _ (Except.error.inj isError).symm⟩
      · cases isError

theorem indexStored_panics (notIndexable : ¬ Indexable p.block) : ∃ msg, p.indexStored pbs index = .error (.panic msg) := by
  cases isFilter : p.block.metadata[transactionsFilter]? with
  | none =>
    simp only [indexStored, indexStoredBlock, shift, blockInfo, isFilter]
    exact ⟨_, rfl⟩
  | some txsfltr =>
    rw [indexStored_of_filter isFilter]
    apply indexBlock_panics
    intro enough
    exact notIndexable ⟨txsfltr, isFilter, by simpa [idxInfo, isFilter] using enough⟩

end

theorem Laid.moveToNextFile (laid : Laid pbs chain lay last mgr) : Laid pbs chain (lay ++ [last]) [] mgr.moveToNextFile where
  blocks := by rw [laid.blocks]; simp
  files := by
    rw [← openFile_next, ← laid.files, ← laid.fileNumber]
    rfl
  index := by
    rw [placements_newFile]
    exact laid.index
  snapshot := laid.snapshot
  bcInfo := laid.bcInfo
  fileNumber := by
    rw [length_append, ← laid.fileNumber]
    rfl
  fileSize := rfl
  lastPersisted := laid.lastPersisted
  numbered := by
    rw [placements_newFile]
    exact laid.numbered

theorem Stored.moveToNextFile (stored : Stored pbs chain lay last mgr) (nonempty : chain.blocks ≠ []) :
    Stored pbs chain (lay ++ [last]) [] mgr.moveToNextFile where
  toLaid := stored.toLaid.moveToNextFile
  noBlockFiles := by
    rw [isEmpty_eq_false_iff.mpr nonempty]
    rfl
  saved := rfl

theorem Laid.afterFailedWrite (laid : Laid pbs chain lay last mgr) (written : Bytes) : mgr.afterFailedWrite written true = mgr := by
  have undone : truncateFile (appendTo mgr.disk.files mgr.blockfilesInfo.latestFileNumber written)
      mgr.blockfilesInfo.latestFileNumber mgr.blockfilesInfo.latestFileSize = mgr.disk.files := by
    rw [laid.files, laid.fileNumber, laid.fileSize, appendTo_files, truncateFile_append]
  rw [BlockfileMgr.afterFailedWrite]
  simp [undone]

theorem Laid.numbered_concat (laid : Laid pbs chain lay last mgr) (inMemory : InMemory block)
    (number : block.header.number = chain.height) : Numbered chain.first (placements (lay ++ [last ++ [block]])) where
  numbers := by
    have count : (placements (lay ++ [last])).length = chain.blocks.length := by
      rw [← laid.places, length_map]
    rw [placements_concat]
    intro i p found
    rcases getElem?_concat_cases found with ⟨_, earlier⟩ | ⟨rfl, rfl⟩
    · exact laid.numbered.numbers i p earlier
    · rw [count]
      exact number
  inMemory := by
    rw [placements_concat]
    intro p mem
    rcases mem_append.mp mem with earlier | here
    · exact laid.numbered.inMemory p earlier
    · rw [mem_singleton.mp here]
      exact inMemory

def withBlock (pbs : Protos Envelope) (mgr : BlockfileMgr) (p : Placement) : BlockfileMgr :=
  let info : BlockfilesInfo := ⟨p.fileNum, p.offset + (frame p.block).length, false, p.block.header.number⟩
  { disk := { mgr.disk with
      files := appendTo mgr.disk.files p.fileNum (frame p.block)
      blkMgrInfo := some info
      index := putAll mgr.disk.index (blockEntries (p.idxInfo pbs)) }
    blockfilesInfo := info
    bcInfo := ⟨mgr.bcInfo.height + 1, pbs.blockHeaderHash p.block.header, p.block.header.previousHash⟩ }

theorem writeBlock_none (mgr : BlockfileMgr) {p : Placement} (fileNumber : mgr.blockfilesInfo.latestFileNumber = p.fileNum)
    (fileSize : mgr.blockfilesInfo.latestFileSize = p.offset) :
    (Indexable p.block → mgr.writeBlock pbs p.block (blockBytes p.block) (blockInfo pbs p.block) none = (withBlock pbs mgr p, .ok ())) ∧
    (¬ Indexable p.block → ∃ mgr' msg,
      mgr.writeBlock pbs p.block (blockBytes p.block) (blockInfo pbs p.block) none = (mgr', .error (.panic msg))) := by
  have size : p.offset + ((blockBytes p.block).length + (Varint.encode (blockBytes p.block).length).length) =
      p.offset + (frame p.block).length := by
    rw [length_frame, Nat.add_comm (blockBytes p.block).length]
  constructor
  · intro indexable
    have indexed := @indexStored_of_indexable _ pbs mgr.disk.index p indexable
    rw [indexStored, flp] at indexed
    simp only [writeBlock, fileNumber, fileSize, indexed, size]
    rfl
  · intro notIndexable
    obtain ⟨msg, indexed⟩ := @indexStored_panics _ pbs mgr.disk.index p notIndexable
    rw [indexStored, flp] at indexed
    simp only [writeBlock, fileNumber, fileSize, indexed]
    exact ⟨_, _, rfl⟩

theorem Laid.withBlock (laid : Laid pbs chain lay last mgr) (inMemory : InMemory block)
    (number : block.header.number = chain.height) : Stored pbs (chain.append block) lay (last ++ [block])
      (withBlock pbs mgr ⟨lay.length, (fileBytes last).length, block⟩) where
  blocks := by simp [append, laid.blocks]
  files := by
    rw [← appendTo_files_frame, ← laid.files]
    rfl
  index := by
    rw [placements_concat, storedIndex, indexOf_concat, ← storedIndex, append, ← laid.index]
    rfl
  snapshot := laid.snapshot
  bcInfo := by
    rw [Blkstorage.withBlock, laid.info_height]
    simp [info, append, height, first, Nat.add_assoc]
  fileNumber := rfl
  fileSize := by simp [Blkstorage.withBlock, fileBytes_cons]
  lastPersisted := by
    rw [if_neg (by simp [append])]
    simp [Blkstorage.withBlock, number, append, height, first, ← Nat.add_assoc]
  numbered := laid.numbered_concat inMemory number
  noBlockFiles := by simp [Blkstorage.withBlock, append]
  saved := rfl

def Extends (lay lay' : Layout) (added : List Block) : Prop :=
  ∀ fileNum offset rest, Remaining lay fileNum offset rest → Remaining lay' fileNum offset (rest ++ added)

def Chain.Next (pbs : Protos Envelope) (chain : Chain) (block : Block) : Prop :=
  block.header.number = chain.height ∧ block.header.previousHash = (chain.info pbs).currentBlockHash

theorem Laid.addBlock_of_not_next (laid : Laid pbs chain lay last mgr) (notNext : ¬ chain.Next pbs block)
    (limit : Nat) (fault : Option Fault) : ∃ msg, mgr.addBlock pbs limit block fault = (mgr, .error (.error msg)) := by
  rw [addBlock, laid.info_height, laid.bcInfo]
  split
  · exact ⟨_, rfl⟩
  · rename_i number
    split
    · exact ⟨_, rfl⟩
    · rename_i previousHash
      exact absurd ⟨not_not.mp number, not_not.mp previousHash⟩ notNext

theorem Stored.addBlock_of_next (stored : Stored pbs chain lay last mgr) (next : chain.Next pbs block)
    (limit : Nat) : ∃ mgr' lay' last', (∀ fault, mgr.addBlock pbs limit block fault =
        mgr'.writeBlock pbs block (blockBytes block) (blockInfo pbs block) fault) ∧
      Laid pbs chain lay' last' mgr' ∧ Extends (lay ++ [last]) (lay' ++ [last']) [] ∧
      ((chain.blocks = [] → (frame block).length ≤ limit) → Stored pbs chain lay' last' mgr') := by
  have unfolded : ∀ fault, mgr.addBlock pbs limit block fault = if limit < (fileBytes last).length + (frame block).length then
        mgr.moveToNextFile.writeBlock pbs block (blockBytes block) (blockInfo pbs block) fault
      else mgr.writeBlock pbs block (blockBytes block) (blockInfo pbs block) fault := by
    intro fault
    rw [addBlock, stored.info_height, stored.bcInfo, if_neg (not_not.mpr next.1), if_neg (not_not.mpr next.2),
      serializeBlock_eq, length_frame, Nat.add_comm (Varint.encode _).length, stored.fileSize]
  by_cases full : limit < (fileBytes last).length + (frame block).length
  · refine ⟨mgr.moveToNextFile, lay ++ [last], [], ?_, stored.toLaid.moveToNextFile, ?_, ?_⟩
    · intro fault
      rw [unfolded, if_pos full]
    · intro fileNum offset rest remaining
      rw [append_nil]
      exact remaining.newFile
    · intro small
      apply stored.moveToNextFile
      intro noBlocks
      have flat := stored.blocks.symm.trans noBlocks
      obtain rfl : last = [] := by simpa using (append_eq_nil_iff.mp (flatten_append.symm.trans flat)).2
      have := small noBlocks
      simp only [fileBytes_nil, length_nil] at full
      omega
  · refine ⟨mgr, lay, last, ?_, stored.toLaid, ?_, fun _ => stored⟩
    · intro fault
      rw [unfolded, if_neg full]
    · intro fileNum offset rest remaining
      rw [append_nil]
      exact remaining

theorem Stored.addBlock_none (stored : Stored pbs chain lay last mgr) (inMemory : InMemory block)
    (next : chain.Next pbs block) (limit : Nat) : (Indexable block → ∃ mgr' lay' last', mgr.addBlock pbs limit block none = (mgr', .ok ()) ∧
      Stored pbs (chain.append block) lay' last' mgr' ∧ Extends (lay ++ [last]) (lay' ++ [last']) [block]) ∧
    (¬ Indexable block → ∃ mgr' msg, mgr.addBlock pbs limit block none = (mgr', .error (.panic msg))) := by
  obtain ⟨mgr', lay', last', written, laid, extend, _⟩ := stored.addBlock_of_next next limit
  rw [written]
  obtain ⟨accepted, panics⟩ := @writeBlock_none _ pbs mgr' ⟨lay'.length, (fileBytes last').length, block⟩
    laid.fileNumber laid.fileSize
  refine ⟨?_, panics⟩
  intro indexable
  refine ⟨_, lay', last' ++ [block], accepted indexable, laid.withBlock inMemory next.1, ?_⟩
  intro fileNum offset rest remaining
  have moved := extend fileNum offset rest remaining
  rw [append_nil] at moved
  exact moved.append block

def Fault.undone : Fault → Bool
  | .append _ truncated => truncated
  | .checkpoint truncated => truncated
  | .index => false

theorem Stored.addBlock_fault (stored : Stored pbs chain lay last mgr) (next : chain.Next pbs block)
    {limit : Nat} {fault : Fault} (undone : Fault.undone fault) (small : chain.blocks = [] → (frame block).length ≤ limit) :
    ∃ mgr' lay' last' msg, mgr.addBlock pbs limit block (some fault) = (mgr', .error (.error msg)) ∧
      Stored pbs chain lay' last' mgr' ∧ Extends (lay ++ [last]) (lay' ++ [last']) [] := by
  obtain ⟨mgr', lay', last', written, laid, extend, whole⟩ := stored.addBlock_of_next next limit
  cases fault with
  | append count truncated =>
    obtain rfl : truncated = true := undone
    refine ⟨mgr', lay', last', "error appending block to file", ?_, whole small, extend⟩
    rw [written, writeBlock, laid.afterFailedWrite]
  | checkpoint truncated =>
    obtain rfl : truncated = true := undone
    refine ⟨mgr', lay', last', "error saving blockfiles file info to db", ?_, whole small, extend⟩
    rw [written, writeBlock, laid.afterFailedWrite]
  | index => cases undone

theorem getLastBlockIndexed_concat (index : BlockIndex) (info : BlockIdxInfo) :
    getLastBlockIndexed (putAll index (blockEntries info)) = some info.blockNum := by
  rw [blockEntries, putAll_append, getLastBlockIndexed]
  simp [putAll]

theorem getLastBlockIndexed_snapshot (bsi : BootstrappingSnapshotInfo) (txIDs : List Bytes) :
    (Start.snapshot bsi txIDs).disk.index.getLastBlockIndexed = some bsi.lastBlockNum := by
  rw [Start.disk, importTxIDsFromSnapshot, putAll_append, getLastBlockIndexed]
  simp [putAll]

theorem syncIndex_start {disk : Disk} {start : Start} {info : BlockfilesInfo} (index : disk.index = start.disk.index)
    (snapshot : disk.bootstrappingSnapshotInfo = start.disk.bootstrappingSnapshotInfo) (noBlockFiles : info.noBlockFiles = true) :
    syncIndex pbs disk info = .ok disk.index := by
  have indexed : ¬ (disk.index.getLastBlockIndexed.elim 0 (· + 1) = 0 ∧ 0 < disk.firstPossibleBlockNumberInBlockFiles) := by
    rw [index, Disk.firstPossibleBlockNumberInBlockFiles, snapshot]
    cases start with
    | empty => simp [Start.disk]
    | snapshot bsi txIDs => simp [getLastBlockIndexed_snapshot]
  rw [syncIndex, if_neg indexed, if_pos noBlockFiles]

theorem open_start (start : Start) : ∃ mgr, newBlockfileMgr pbs start.disk = .ok mgr ∧ Stored pbs ⟨start, []⟩ [] [] mgr := by
  have noFiles : start.disk.files = [] ∧ start.disk.blkMgrInfo = none := by cases start <;> exact ⟨rfl, rfl⟩
  let info : BlockfilesInfo := ⟨0, 0, true, 0⟩
  have loaded : loadBlockfilesInfo pbs start.disk = .ok info := by
    rw [loadBlockfilesInfo, noFiles.1, noFiles.2]
    rfl
  have writer : start.disk.withWriter info = { start.disk with files := [[]], blkMgrInfo := some info } := by
    rw [Disk.withWriter, noFiles.1]
    rfl
  refine ⟨⟨{ start.disk with files := [[]], blkMgrInfo := some info }, info, bootstrappedInfo start.disk⟩, ?_, ?_⟩
  · rw [newBlockfileMgr]
    refine bind_eq_ok.mpr ⟨info, loaded, ?_⟩
    rw [writer]
    exact bind_eq_ok.mpr ⟨_, syncIndex_start rfl rfl rfl, rfl⟩
  · exact { blocks := rfl, files := rfl, index := rfl, snapshot := rfl, bcInfo := rfl, fileNumber := rfl, fileSize := rfl,
            lastPersisted := rfl, numbered := ⟨by simp [placements, placementsFrom, filePlacements], by
              simp [placements, placementsFrom, filePlacements]⟩, noBlockFiles := rfl, saved := rfl }

section

variable (stored : Stored pbs chain lay last mgr)

include stored

theorem Stored.loadBlockfilesInfo : loadBlockfilesInfo pbs mgr.disk = .ok mgr.blockfilesInfo := by
  have current : (mgr.disk.files[mgr.blockfilesInfo.latestFileNumber]?).all (·.length = mgr.blockfilesInfo.latestFileSize) := by
    rw [stored.files, stored.fileNumber, stored.fileSize, files_concat, ← lay.length_files]
    simp
  rw [Blkstorage.loadBlockfilesInfo, stored.saved]
  simp [syncBlockfilesInfoFromFS, current, orPanic]

theorem Stored.withWriter : mgr.disk.withWriter mgr.blockfilesInfo = mgr.disk := by
  have opened : openFile mgr.disk.files mgr.blockfilesInfo.latestFileNumber = mgr.disk.files := by
    rw [openFile, if_pos]
    rw [stored.files, stored.fileNumber]
    simp
  have cut : truncateFile mgr.disk.files mgr.blockfilesInfo.latestFileNumber mgr.blockfilesInfo.latestFileSize = mgr.disk.files := by
    have whole := truncateFile_append lay last []
    rwa [append_nil, ← files_concat, ← stored.files, ← stored.fileNumber, ← stored.fileSize] at whole
  rw [Disk.withWriter, opened, cut, ← stored.saved]

theorem Stored.lastBlock {blocks : List Block} (isLast : chain.blocks = blocks ++ [block]) :
    mgr.disk.index.getLastBlockIndexed = some mgr.blockfilesInfo.lastPersistedBlock ∧
      mgr.disk.retrieveBlockHeaderByNumber pbs mgr.blockfilesInfo.lastPersistedBlock = .ok block.header := by
  obtain ⟨earlier, ending, split, isBlocks, atEnd⟩ := map_eq_append_iff.mp (stored.places.trans isLast)
  obtain ⟨p, rfl, rfl⟩ := map_eq_singleton_iff.mp atEnd
  have here : (placements (lay ++ [last]))[earlier.length]? = some p := by simp [split]
  have number := stored.numbered.numbers earlier.length p here
  have isNumber : mgr.blockfilesInfo.lastPersistedBlock = p.block.header.number := by
    rw [stored.lastPersisted, if_neg (by simp [isLast]), height, isLast, number, ← isBlocks]
    simp
  have inMemory := stored.numbered.inMemory p (mem_of_getElem? here)
  rw [isNumber]
  constructor
  · rw [stored.index, split, storedIndex, indexOf_concat, getLastBlockIndexed_concat]
    rfl
  · rw [Disk.retrieveBlockHeaderByNumber, stored.firstPossible, if_neg (by omega), stored.files]
    refine bind_eq_ok.mpr ⟨_, stored.getBlockLocByBlockNum (mem_of_getElem? here), ?_⟩
    refine bind_eq_ok.mpr ⟨_, fetchBlockBytes_placement here inMemory, ?_⟩
    exact bind_eq_ok.mpr ⟨_, extractSerializedBlockInfo_blockBytes pbs inMemory, rfl⟩

theorem Stored.reopen : newBlockfileMgr pbs mgr.disk = .ok mgr := by
  rw [newBlockfileMgr]
  refine bind_eq_ok.mpr ⟨_, stored.loadBlockfilesInfo, ?_⟩
  rw [stored.withWriter]
  rcases eq_nil_or_concat' chain.blocks with shape | ⟨blocks, block, shape⟩
  · have noPlaces : placements (lay ++ [last]) = [] := map_eq_nil_iff.mp (stored.places.trans shape)
    have index : mgr.disk.index = chain.start.disk.index := by
      rw [stored.index, noPlaces]
      rfl
    have noBlockFiles : mgr.blockfilesInfo.noBlockFiles = true := by
      rw [stored.noBlockFiles, shape]
      rfl
    have info : mgr.bcInfo = bootstrappedInfo mgr.disk := by
      rw [stored.bcInfo, info, shape, getLast?_nil, Option.elim_none, bootstrappedInfo, bootstrappedInfo, stored.snapshot]
    refine bind_eq_ok.mpr ⟨_, syncIndex_start index stored.snapshot noBlockFiles, ?_⟩
    rw [if_pos noBlockFiles, ← info]
  · obtain ⟨indexed, header⟩ := stored.lastBlock shape
    have hasBlocks : ¬ mgr.blockfilesInfo.noBlockFiles = true := by
      rw [stored.noBlockFiles, shape]
      simp
    have synced : syncIndex pbs mgr.disk mgr.blockfilesInfo = .ok mgr.disk.index := by
      rw [syncIndex, indexed, if_neg (by simp), if_neg hasBlocks]
      exact if_pos rfl
    have info : mgr.bcInfo = ⟨mgr.blockfilesInfo.lastPersistedBlock + 1, pbs.blockHeaderHash block.header, block.header.previousHash⟩ := by
      rw [stored.bcInfo, info, stored.lastPersisted, if_neg (by simp [shape]), height, shape]
      simp [← Nat.add_assoc]
    refine bind_eq_ok.mpr ⟨_, synced, ?_⟩
    rw [if_neg hasBlocks]
    refine bind_eq_ok.mpr ⟨block.header, congrArg (orPanic _) header, ?_⟩
    rw [← info]

end

end Fabric.Proof.Blkstorage
