import Fabric.Proof.Blkstorage.Layout
import Fabric.Proof.Blkstorage.TxIDIndex

/-! # Look-ups in the index of a layout -/

namespace Fabric.Proof.Blkstorage

open Lib Fabric.Ledger Fabric.Blkstorage List Varint Placement SerializedBlockInfo
open Option hiding or_assoc

variable {Envelope : Type} (protos : Protos Envelope) {envelope : Bytes} {j a b : Nat}

def Placement.flp (p : Placement) : FileLocPointer := ⟨p.fileNum, p.offset, 0⟩

def Placement.txOffsets (p : Placement) : List TxindexInfo :=
  ((blockInfo protos p.block).shift (encode (blockBytes p.block).length).length).txOffsets

def Placement.idxInfo (p : Placement) : BlockIdxInfo where
  blockNum := p.block.header.number
  blockHash := protos.blockHeaderHash p.block.header
  flp := p.flp
  txOffsets := p.txOffsets protos
  txsfltr := p.block.metadata[transactionsFilter]?.getD []

def Placement.txLocation (p : Placement) (t : TxindexInfo) : FileLocPointer :=
  newFileLocationPointer p.fileNum p.offset t.loc

theorem get_txOffsetsFrom (offset : Nat) (data : List Bytes) (i : Nat) :
    (txOffsetsFrom protos offset data)[i]? = data[i]?.map fun envelope => ⟨protos.getOrComputeTxIDFromEnvelope envelope,
        ⟨offset + ((data.take i).flatMap encodeRawBytes).length, (encodeRawBytes envelope).length⟩⟩ := by
  induction data generalizing offset i with
  | nil => simp [txOffsetsFrom]
  | cons envelope data ih =>
    cases i with
    | zero => simp [txOffsetsFrom]
    | succ i => simp [txOffsetsFrom, ih, Nat.add_assoc]

theorem Placement.get_txOffsets (p : Placement) (i : Nat) : (p.txOffsets protos)[i]? = p.block.data[i]?.map fun envelope =>
      ⟨protos.getOrComputeTxIDFromEnvelope envelope, ⟨dataOffset p.block + ((p.block.data.take i).flatMap encodeRawBytes).length +
          (encode (blockBytes p.block).length).length, (encodeRawBytes envelope).length⟩⟩ := by
  simp only [txOffsets, shift, blockInfo, List.getElem?_map, get_txOffsetsFrom, Option.map_map]
  rfl

@[simp] theorem Placement.length_txOffsets (p : Placement) : (p.txOffsets protos).length = p.block.data.length := by
  have general : ∀ offset data, (txOffsetsFrom protos offset data).length = data.length := by
    intro offset data
    induction data generalizing offset with
    | nil => rfl
    | cons envelope data ih => simp [txOffsetsFrom, ih]
  simp [txOffsets, shift, blockInfo, general]

section

variable {layout : Layout} {p : Placement} {i : Nat}

section

variable (found : layout.placements[i]? = some p)
include found

theorem get_files : ∃ before after, layout.files[p.fileNum]? = some (fileBytes before ++ (frame p.block ++ fileBytes after)) ∧
      p.offset = (fileBytes before).length := by
  obtain ⟨before, after, files, located, place, _⟩ := Layout.located found
  have isFile : layout[p.fileNum]? = some (before ++ p.block :: after) := by
    have head := congrArg List.head? located
    rwa [head?_drop] at head
  exact ⟨before, after, by simp [Layout.files, isFile, fileBytes_cons], place⟩

theorem fetchBlockBytes_placement (inMemory : InMemory p.block) : fetchBlockBytes layout.files p.flp = .ok (blockBytes p.block) := by
  obtain ⟨before, after, isFile, place⟩ := get_files found
  simp only [fetchBlockBytes, flp, isFile, place]
  rw [nextBlockBytes_frame inMemory]
  rfl

theorem fetchBlock_placement (inMemory : InMemory p.block) : fetchBlock protos layout.files p.flp = .ok p.block :=
  bind_eq_ok.mpr ⟨_, fetchBlockBytes_placement found inMemory, deserializeBlock_blockBytes protos inMemory⟩

end

theorem blockBytes_split {block : Block} {i : Nat} (tx : block.data[i]? = some envelope) :
    ∃ after, blockBytes block = (headerBytes block.header ++ (encode block.data.length ++
      (block.data.take i).flatMap encodeRawBytes)) ++ (encodeRawBytes envelope ++ after) := by
  obtain ⟨inside, here⟩ := List.getElem?_eq_some_iff.mp tx
  have split : block.data = block.data.take i ++ envelope :: block.data.drop (i + 1) := by
    conv_lhs => rw [← take_append_drop i block.data, drop_eq_getElem_cons inside, here]
  have items : block.data.flatMap encodeRawBytes = (block.data.take i).flatMap encodeRawBytes ++
      (encodeRawBytes envelope ++ (block.data.drop (i + 1)).flatMap encodeRawBytes) := by
    conv_lhs => rw [split, flatMap_append, flatMap_cons]
  refine ⟨(block.data.drop (i + 1)).flatMap encodeRawBytes ++ itemsBytes block.metadata, ?_⟩
  rw [blockBytes, itemsBytes, items]
  simp

theorem fetchRawBytes_slice {files : List Bytes} {fileNum : Nat} {before bytes after : Bytes}
    (isFile : files[fileNum]? = some (before ++ (bytes ++ after))) :
    fetchRawBytes files ⟨fileNum, before.length, bytes.length⟩ = .ok bytes := by
  have inside : ¬ (before ++ (bytes ++ after)).length < before.length + bytes.length := by
    simp only [length_append]
    omega
  simp only [fetchRawBytes, isFile]
  rw [if_neg inside, drop_left, take_left]

theorem fetchTransactionEnvelope_placement (found : layout.placements[i]? = some p) (inMemory : InMemory p.block)
    (tx : p.block.data[j]? = some envelope) {t : TxindexInfo} (indexed : (p.txOffsets protos)[j]? = some t) :
    fetchTransactionEnvelope protos layout.files (p.txLocation t) = protos.getEnvelopeFromBlock envelope := by
  obtain ⟨before, after, isFile, place⟩ := get_files found
  obtain ⟨rest, split⟩ := blockBytes_split tx
  have inFile : layout.files[p.fileNum]? = some ((fileBytes before ++ (encode (blockBytes p.block).length ++
      (headerBytes p.block.header ++ (encode p.block.data.length ++
        (p.block.data.take j).flatMap encodeRawBytes)))) ++ (encodeRawBytes envelope ++ (rest ++ fileBytes after))) := by
    rw [isFile]
    conv_lhs => rw [frame]
    conv_lhs => enter [1, 2, 1, 2]; rw [split]
    simp
  have location : p.txLocation t = ⟨p.fileNum, (fileBytes before ++ (encode (blockBytes p.block).length ++
      (headerBytes p.block.header ++ (encode p.block.data.length ++
        (p.block.data.take j).flatMap encodeRawBytes)))).length, (encodeRawBytes envelope).length⟩ := by
    rw [get_txOffsets, tx] at indexed
    rw [← some.inj indexed]
    simp only [txLocation, newFileLocationPointer, place, dataOffset, length_append, FileLocPointer.mk.injEq, true_and, and_true]
    omega
  have small : envelope.length < 2 ^ 64 := by
    have total := inMemory.size
    have := length_lt_encodeRawBytes envelope
    simp only [split, length_append] at total
    omega
  have decoded : decode (encodeRawBytes envelope) = some (envelope.length, envelope) := decode_encode small _
  rw [fetchTransactionEnvelope, location, fetchRawBytes_slice inFile]
  simp [bind, Except.bind, decoded]

end

section

variable (info : BlockIdxInfo)

def txIDEntryOf (i : Nat) (t : TxindexInfo) : Bytes × IndexValue :=
  (constructTxIDKey t.txID info.blockNum i,
    .txID info.flp (newFileLocationPointer info.flp.fileSuffixNum info.flp.offset t.loc) (info.txsfltr[i]?.getD 0))

def blockEntries : List (Bytes × IndexValue) :=
  [(constructBlockHashKey info.blockHash, .location info.flp), (constructBlockNumKey info.blockNum, .location info.flp)] ++
    info.txOffsets.zipIdx.map (fun t => txIDEntryOf info t.2 t.1) ++
    info.txOffsets.zipIdx.map (fun t => tranNumEntry info t.2 t.1) ++ [(indexSavePointKey, .savePoint info.blockNum)]

variable {info}

theorem mapM_txIDEntry (enough : info.txOffsets.length ≤ info.txsfltr.length) :
    (info.txOffsets.zipIdx.mapM fun t => txIDEntry info t.2 t.1) = .ok (info.txOffsets.zipIdx.map fun t => txIDEntryOf info t.2 t.1) := by
  apply mapM_eq_ok.mpr
  rw [List.forall₂_map_right_iff, List.forall₂_same]
  intro t mem
  have inside : t.2 < info.txsfltr.length := Nat.lt_of_lt_of_le (snd_lt_of_mem_zipIdx mem) (by simpa using enough)
  simp [txIDEntry, txIDEntryOf, inside]

theorem indexBlock_eq (index : BlockIndex) (enough : info.txOffsets.length ≤ info.txsfltr.length) :
    index.indexBlock info = .ok (putAll index (blockEntries info)) := by
  rw [BlockIndex.indexBlock, mapM_txIDEntry enough]
  rfl

theorem enough_of_indexBlock {index index' : BlockIndex} (indexed : index.indexBlock info = .ok index') :
    info.txOffsets.length ≤ info.txsfltr.length := by
  obtain ⟨entries, made, _⟩ := bind_eq_ok.mp indexed
  have matched := mapM_eq_ok.mp made
  by_contra few
  obtain ⟨t, found⟩ : ∃ t, info.txOffsets[info.txsfltr.length]? = some t := isSome_iff_exists.mp (by simpa using few)
  obtain ⟨e, _, made⟩ := exists_right_of_mem matched (mk_mem_zipIdx_iff_getElem?.mpr found)
  simp [txIDEntry] at made

theorem mem_blockEntries {e : Bytes × IndexValue} : e ∈ blockEntries info ↔ e = (constructBlockHashKey info.blockHash, .location info.flp) ∨
      e = (constructBlockNumKey info.blockNum, .location info.flp) ∨ (∃ i t, info.txOffsets[i]? = some t ∧ e = txIDEntryOf info i t) ∨
      (∃ i t, info.txOffsets[i]? = some t ∧ e = tranNumEntry info i t) ∨ e = (indexSavePointKey, .savePoint info.blockNum) := by
  have listed : ∀ f : Nat → TxindexInfo → Bytes × IndexValue, e ∈ info.txOffsets.zipIdx.map (fun t => f t.2 t.1) ↔
      ∃ i t, info.txOffsets[i]? = some t ∧ e = f i t := by
    intro f
    rw [List.mem_map]
    constructor
    · intro ⟨t, mem, same⟩
      exact ⟨t.2, t.1, mem_zipIdx_iff_getElem?.mp mem, same.symm⟩
    · intro ⟨i, t, found, same⟩
      exact ⟨(t, i), mk_mem_zipIdx_iff_getElem?.mpr found, same.symm⟩
  simp [blockEntries, listed]

end

theorem constructBlockNumKey_inj (fitsA : a < 2 ^ 64) (fitsB : b < 2 ^ 64)
    (same : constructBlockNumKey a = constructBlockNumKey b) : a = b :=
  encodeOrderPreserving_injOn fitsA fitsB (List.cons.inj same).2

theorem constructBlockNumTranNumKey_inj {i : Nat} (fitsA : a < 2 ^ 64) (fitsB : b < 2 ^ 64) (fitsI : i < 2 ^ 64)
    (fitsJ : j < 2 ^ 64) (same : constructBlockNumTranNumKey a i = constructBlockNumTranNumKey b j) : a = b ∧ i = j :=
  encodeOrderPreserving_pair_inj fitsA fitsB fitsI fitsJ (List.cons.inj same).2

theorem constructTxIDKey_inj {t u : Bytes} {i : Nat} (fitsT : t.length < 2 ^ 64) (fitsU : u.length < 2 ^ 64)
    (fitsA : a < 2 ^ 64) (fitsB : b < 2 ^ 64) (fitsI : i < 2 ^ 64) (fitsJ : j < 2 ^ 64)
    (same : constructTxIDKey t a i = constructTxIDKey u b j) : t = u ∧ a = b ∧ i = j := by
  obtain rfl : t = u := eq_of_common_range fitsT fitsU ⟨_, same⟩
  exact ⟨rfl, encodeOrderPreserving_pair_inj fitsA fitsB fitsI fitsJ (append_cancel_left same)⟩

theorem compare_constructTxIDKey (t : Bytes) {i : Nat} (fitsB : b < 2 ^ 64) (fitsJ : j < 2 ^ 64)
    (before : a < b ∨ a = b ∧ i < j) : compare (constructTxIDKey t a i) (constructTxIDKey t b j) = .lt := by
  rw [constructTxIDKey, constructTxIDKey, compare_append_left]
  rcases before with less | ⟨rfl, less⟩
  · exact compare_encodeOrderPreserving less fitsB _ _
  · rw [compare_append_left]
    simpa using compare_encodeOrderPreserving less fitsJ [] []

end Fabric.Proof.Blkstorage
