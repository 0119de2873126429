import Fabric.Blkstorage.BlockIndex

/-! # Blocks as bytes -/

namespace Fabric.Blkstorage

open Lib Ledger

structure BlockHeader where
  number : Nat
  previousHash : Bytes
  dataHash : Bytes
  deriving DecidableEq

structure Block where
  header : BlockHeader
  data : List Bytes
  metadata : List Bytes
  deriving DecidableEq

structure SerializedBlockInfo where
  blockHeader : BlockHeader
  txOffsets : List TxindexInfo
  metadata : List Bytes

/-- Functions of the protocol library.  The id of a malformed envelope is empty. -/
structure Protos (Envelope : Type) where
  blockHeaderHash : BlockHeader → Bytes
  getOrComputeTxIDFromEnvelope : Bytes → Bytes
  getEnvelopeFromBlock : Bytes → Result Envelope
  txIDFits : ∀ envelope, (getOrComputeTxIDFromEnvelope envelope).length < 2 ^ 64

def encodeRawBytes : Bytes → Bytes := Varint.encodeLengthPrefixed

def addHeaderBytes (blockHeader : BlockHeader) (buf : Bytes) : Bytes :=
  buf ++ Varint.encode blockHeader.number ++ encodeRawBytes blockHeader.dataHash ++
    encodeRawBytes blockHeader.previousHash

variable {Envelope : Type} (protos : Protos Envelope)

def addEnvelopes : List Bytes → Bytes → Bytes × List TxindexInfo
  | [], buf => (buf, [])
  | txEnvelopeBytes :: rest, buf =>
    let offset := buf.length
    let extended := buf ++ encodeRawBytes txEnvelopeBytes
    let r := addEnvelopes rest extended
    (r.1, ⟨protos.getOrComputeTxIDFromEnvelope txEnvelopeBytes, ⟨offset, extended.length - offset⟩⟩ :: r.2)

def addDataBytesAndConstructTxIndexInfo (data : List Bytes) (buf : Bytes) : Bytes × List TxindexInfo :=
  addEnvelopes protos data (buf ++ Varint.encode data.length)

def addMetadataBytes (metadata : List Bytes) (buf : Bytes) : Bytes :=
  metadata.foldl (fun buf b => buf ++ encodeRawBytes b) (buf ++ Varint.encode metadata.length)

def serializeBlock (block : Block) : Bytes × SerializedBlockInfo :=
  let withData := addDataBytesAndConstructTxIndexInfo protos block.data (addHeaderBytes block.header [])
  (addMetadataBytes block.metadata withData.1, ⟨block.header, withData.2, block.metadata⟩)

structure Buffer where
  buf : Bytes
  position : Nat

def wrapError {α : Type} (msg : String) : Result α → Result α
  | .error (.error cause) => .error (.error (msg ++ ": " ++ cause))
  | r => r

def unexpectedEOF {α : Type} : Result α := .error (.error "unexpected EOF")

variable (b : Buffer)

def Buffer.decodeVarint : Result (Nat × Buffer) :=
  match Varint.decode b.buf with
  | none => wrapError "error decoding varint with proto.Buffer" unexpectedEOF
  | some (val, rest) => .ok (val, ⟨rest, b.position + (Varint.encode val).length⟩)

def Buffer.decodeRawBytes : Result (Bytes × Buffer) :=
  match Varint.decodeLengthPrefixed b.buf with
  | none => wrapError "error decoding raw bytes with proto.Buffer" unexpectedEOF
  | some (val, rest) => .ok (val, ⟨rest, b.position + ((Varint.encode val.length).length + val.length)⟩)

def extractHeader : Result (BlockHeader × Buffer) := do
  let (number, b) ← wrapError "error decoding the block number" b.decodeVarint
  let (dataHash, b) ← wrapError "error decoding the data hash" b.decodeRawBytes
  let (previousHash, b) ← wrapError "error decoding the previous hash" b.decodeRawBytes
  .ok (⟨number, previousHash, dataHash⟩, b)

def extractEnvelopes : Nat → Buffer → Result ((List Bytes × List TxindexInfo) × Buffer)
  | 0, b => .ok (([], []), b)
  | numItems + 1, b => do
    let txOffset := b.position
    let (txEnvBytes, b) ← wrapError "error decoding the transaction envelope" b.decodeRawBytes
    let idxInfo : TxindexInfo :=
      ⟨protos.getOrComputeTxIDFromEnvelope txEnvBytes, ⟨txOffset, b.position - txOffset⟩⟩
    let ((data, txOffsets), b) ← extractEnvelopes numItems b
    .ok ((txEnvBytes :: data, idxInfo :: txOffsets), b)

def extractData : Result ((List Bytes × List TxindexInfo) × Buffer) := do
  let (numItems, b) ← wrapError "error decoding the length of block data" b.decodeVarint
  extractEnvelopes protos numItems b

def extractMetadataItems : Nat → Buffer → Result (List Bytes × Buffer)
  | 0, b => .ok ([], b)
  | numItems + 1, b => do
    let (metadataEntry, b) ← wrapError "error decoding the block metadata" b.decodeRawBytes
    let (rest, b) ← extractMetadataItems numItems b
    .ok (metadataEntry :: rest, b)

def extractMetadata : Result (List Bytes × Buffer) := do
  let (numItems, b) ← wrapError "error decoding the length of block metadata" b.decodeVarint
  extractMetadataItems numItems b

def deserializeBlock (serializedBlockBytes : Bytes) : Result Block := do
  let (header, b) ← extractHeader ⟨serializedBlockBytes, 0⟩
  let ((data, _), b) ← extractData protos b
  let (metadata, _) ← extractMetadata b
  .ok ⟨header, data, metadata⟩

def extractSerializedBlockInfo (serializedBlockBytes : Bytes) : Result SerializedBlockInfo := do
  let (blockHeader, b) ← extractHeader ⟨serializedBlockBytes, 0⟩
  let ((_, txOffsets), b) ← extractData protos b
  let (metadata, _) ← extractMetadata b
  .ok ⟨blockHeader, txOffsets, metadata⟩

end Fabric.Blkstorage
