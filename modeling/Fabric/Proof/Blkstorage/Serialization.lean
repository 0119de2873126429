import Fabric.Blkstorage.Serialization

/-! # Stored blocks read back -/

namespace Fabric.Proof.Blkstorage

open Lib Fabric.Ledger Fabric.Blkstorage List

variable {Envelope : Type} (protos : Protos Envelope) {b : Bytes} {data metadata : List Bytes} {block : Block}

def itemsBytes (items : List Bytes) : Bytes := Varint.encode items.length ++ items.flatMap encodeRawBytes

def headerBytes (header : BlockHeader) : Bytes :=
  Varint.encode header.number ++ (encodeRawBytes header.dataHash ++ encodeRawBytes header.previousHash)

def blockBytes (block : Block) : Bytes :=
  headerBytes block.header ++ (itemsBytes block.data ++ itemsBytes block.metadata)

def txOffsetsFrom : Nat → List Bytes → List TxindexInfo
  | _, [] => []
  | offset, envelope :: rest =>
    ⟨protos.getOrComputeTxIDFromEnvelope envelope, ⟨offset, (encodeRawBytes envelope).length⟩⟩ ::
      txOffsetsFrom (offset + (encodeRawBytes envelope).length) rest

def dataOffset (block : Block) : Nat := (headerBytes block.header ++ Varint.encode block.data.length).length

def blockInfo (block : Block) : SerializedBlockInfo :=
  ⟨block.header, txOffsetsFrom protos (dataOffset block) block.data, block.metadata⟩

/-- The number is a `uint64`, and the length of the bytes fits into the eight bytes that are looked at when a
block is read. -/
structure InMemory (block : Block) : Prop where
  number : block.header.number < 2 ^ 64
  size : (blockBytes block).length < 2 ^ 56

theorem addEnvelopes_eq (data : List Bytes) (buf : Bytes) :
    addEnvelopes protos data buf = (buf ++ data.flatMap encodeRawBytes, txOffsetsFrom protos buf.length data) := by
  induction data generalizing buf with
  | nil => simp [addEnvelopes, txOffsetsFrom]
  | cons envelope data ih =>
    rw [addEnvelopes, ih]
    simp [txOffsetsFrom]

theorem addMetadataBytes_eq (metadata : List Bytes) (buf : Bytes) : addMetadataBytes metadata buf = buf ++ itemsBytes metadata := by
  have general : ∀ start, metadata.foldl (fun buf b => buf ++ encodeRawBytes b) start = start ++ metadata.flatMap encodeRawBytes := by
    induction metadata with
    | nil => simp
    | cons b metadata ih => simp [ih]
  rw [addMetadataBytes, general, itemsBytes, append_assoc]

theorem serializeBlock_eq (block : Block) : serializeBlock protos block = (blockBytes block, blockInfo protos block) := by
  have header : addHeaderBytes block.header [] = headerBytes block.header := by
    simp [addHeaderBytes, headerBytes]
  simp [serializeBlock, addDataBytesAndConstructTxIndexInfo, addEnvelopes_eq, addMetadataBytes_eq, header, blockInfo,
    dataOffset, blockBytes, itemsBytes]

theorem length_encodeRawBytes (b : Bytes) : (encodeRawBytes b).length = (Varint.encode b.length).length + b.length := by
  simp [encodeRawBytes, Varint.encodeLengthPrefixed]

theorem length_lt_encodeRawBytes (b : Bytes) : b.length < (encodeRawBytes b).length := by
  have := length_pos_iff.mpr (Varint.encode_ne_nil b.length)
  rw [length_encodeRawBytes]
  omega

theorem length_lt_itemsBytes {items : List Bytes} (mem : b ∈ items) : b.length < (itemsBytes items).length := by
  have listed : (encodeRawBytes b).length ≤ (items.flatMap encodeRawBytes).length :=
    (sublist_flatten_of_mem (mem_map_of_mem mem)).length_le
  have := length_lt_encodeRawBytes b
  rw [itemsBytes, length_append]
  omega

theorem length_le_itemsBytes (items : List Bytes) : items.length ≤ (itemsBytes items).length := by
  have each : items.length ≤ (items.flatMap encodeRawBytes).length := by
    induction items with
    | nil => simp
    | cons b items ih =>
      have := length_lt_encodeRawBytes b
      simp only [flatMap_cons, length_append, length_cons]
      omega
  rw [itemsBytes, length_append]
  omega

theorem size_blockBytes (block : Block) : (blockBytes block).length =
      (headerBytes block.header).length + ((itemsBytes block.data).length + (itemsBytes block.metadata).length) := by
  simp [blockBytes]

theorem decodeVarint_encode {n : Nat} (fits : n < 2 ^ 64) (rest : Bytes) (position : Nat) :
    Buffer.decodeVarint ⟨Varint.encode n ++ rest, position⟩ = .ok (n, ⟨rest, position + (Varint.encode n).length⟩) := by
  rw [Buffer.decodeVarint, Varint.decode_encode fits]

theorem decodeRawBytes_encode (fits : b.length < 2 ^ 64) (rest : Bytes) (position : Nat) :
    Buffer.decodeRawBytes ⟨encodeRawBytes b ++ rest, position⟩ = .ok (b, ⟨rest, position + (encodeRawBytes b).length⟩) := by
  rw [Buffer.decodeRawBytes, encodeRawBytes, Varint.decode_encodeLengthPrefixed fits, ← encodeRawBytes, length_encodeRawBytes]

theorem extractHeader_headerBytes {header : BlockHeader} (number : header.number < 2 ^ 64)
    (dataHash : header.dataHash.length < 2 ^ 64) (previousHash : header.previousHash.length < 2 ^ 64) (rest : Bytes) :
    extractHeader ⟨headerBytes header ++ rest, 0⟩ = .ok (header, ⟨rest, (headerBytes header).length⟩) := by
  unfold extractHeader headerBytes
  rw [append_assoc, append_assoc, decodeVarint_encode number]
  simp only [wrapError, bind, Except.bind]
  rw [decodeRawBytes_encode dataHash]
  simp only
  rw [decodeRawBytes_encode previousHash]
  simp [Nat.add_assoc]

theorem extractEnvelopes_encode (fits : ∀ b ∈ data, b.length < 2 ^ 64) (rest : Bytes) (position : Nat) :
    extractEnvelopes protos data.length ⟨data.flatMap encodeRawBytes ++ rest, position⟩ =
      .ok ((data, txOffsetsFrom protos position data), ⟨rest, position + (data.flatMap encodeRawBytes).length⟩) := by
  induction data generalizing position with
  | nil => simp [extractEnvelopes, txOffsetsFrom]
  | cons envelope data ih =>
    obtain ⟨here, later⟩ := forall_mem_cons.mp fits
    rw [length_cons, extractEnvelopes, flatMap_cons, append_assoc, decodeRawBytes_encode here]
    simp only [wrapError, bind, Except.bind]
    rw [ih later]
    simp [txOffsetsFrom, Nat.add_assoc]

theorem extractMetadataItems_encode (fits : ∀ b ∈ metadata, b.length < 2 ^ 64) (rest : Bytes) (position : Nat) :
    extractMetadataItems metadata.length ⟨metadata.flatMap encodeRawBytes ++ rest, position⟩ =
      .ok (metadata, ⟨rest, position + (metadata.flatMap encodeRawBytes).length⟩) := by
  induction metadata generalizing position with
  | nil => simp [extractMetadataItems]
  | cons b metadata ih =>
    obtain ⟨here, later⟩ := forall_mem_cons.mp fits
    rw [length_cons, extractMetadataItems, flatMap_cons, append_assoc, decodeRawBytes_encode here]
    simp only [wrapError, bind, Except.bind]
    rw [ih later]
    simp [Nat.add_assoc]

theorem extractData_itemsBytes (count : data.length < 2 ^ 64) (fits : ∀ b ∈ data, b.length < 2 ^ 64) (rest : Bytes)
    (position : Nat) : extractData protos ⟨itemsBytes data ++ rest, position⟩ =
      .ok ((data, txOffsetsFrom protos (position + (Varint.encode data.length).length) data),
        ⟨rest, position + (itemsBytes data).length⟩) := by
  rw [extractData, itemsBytes, append_assoc, decodeVarint_encode count]
  simp only [wrapError, bind, Except.bind]
  rw [extractEnvelopes_encode protos fits]
  simp [Nat.add_assoc]

theorem extractMetadata_itemsBytes (count : metadata.length < 2 ^ 64) (fits : ∀ b ∈ metadata, b.length < 2 ^ 64)
    (rest : Bytes) (position : Nat) : extractMetadata ⟨itemsBytes metadata ++ rest, position⟩ =
      .ok (metadata, ⟨rest, position + (itemsBytes metadata).length⟩) := by
  rw [extractMetadata, itemsBytes, append_assoc, decodeVarint_encode count]
  simp only [wrapError, bind, Except.bind]
  rw [extractMetadataItems_encode fits]
  simp [Nat.add_assoc]

theorem extract_blockBytes (inMemory : InMemory block) : extractHeader ⟨blockBytes block, 0⟩ =
        .ok (block.header, ⟨itemsBytes block.data ++ itemsBytes block.metadata, (headerBytes block.header).length⟩) ∧
      extractData protos ⟨itemsBytes block.data ++ itemsBytes block.metadata, (headerBytes block.header).length⟩ =
        .ok ((block.data, txOffsetsFrom protos (dataOffset block) block.data),
          ⟨itemsBytes block.metadata, (headerBytes block.header).length + (itemsBytes block.data).length⟩) ∧
      extractMetadata ⟨itemsBytes block.metadata, (headerBytes block.header).length + (itemsBytes block.data).length⟩ =
        .ok (block.metadata, ⟨[], (blockBytes block).length⟩) := by
  have size := inMemory.size
  rw [size_blockBytes] at size
  have header : block.header.dataHash.length + block.header.previousHash.length ≤ (headerBytes block.header).length := by
    have := length_lt_encodeRawBytes block.header.dataHash
    have := length_lt_encodeRawBytes block.header.previousHash
    simp only [headerBytes, length_append]
    omega
  refine ⟨?_, ?_, ?_⟩
  · exact extractHeader_headerBytes inMemory.number (by omega) (by omega) _
  · have count := length_le_itemsBytes block.data
    rw [extractData_itemsBytes protos (by omega)]
    · simp [dataOffset]
    · intro b mem
      have := length_lt_itemsBytes mem
      omega
  · have count := length_le_itemsBytes block.metadata
    have fits : ∀ b ∈ block.metadata, b.length < 2 ^ 64 := by
      intro b mem
      have := length_lt_itemsBytes mem
      omega
    have read := extractMetadata_itemsBytes (by omega) fits []
      ((headerBytes block.header).length + (itemsBytes block.data).length)
    rw [append_nil] at read
    rw [read, size_blockBytes, Nat.add_assoc]

theorem deserializeBlock_blockBytes (inMemory : InMemory block) : deserializeBlock protos (blockBytes block) = .ok block := by
  obtain ⟨header, data, metadata⟩ := extract_blockBytes protos inMemory
  simp [deserializeBlock, bind, Except.bind, header, data, metadata]

theorem extractSerializedBlockInfo_blockBytes (inMemory : InMemory block) :
    extractSerializedBlockInfo protos (blockBytes block) = .ok (blockInfo protos block) := by
  obtain ⟨header, data, metadata⟩ := extract_blockBytes protos inMemory
  simp [extractSerializedBlockInfo, bind, Except.bind, header, data, metadata, blockInfo]

end Fabric.Proof.Blkstorage
