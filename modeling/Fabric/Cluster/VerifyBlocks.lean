import Fabric.Ledger.Statedb

/-! # Verification of a buffer of blocks -/

namespace Fabric.Cluster

open Lib Ledger

structure BlockHeader where
  number : UInt64
  previousHash : Bytes
  dataHash : Bytes

structure Block where
  header : Option BlockHeader
  data : Option (List Bytes)
  metadata : Option (List Bytes)

structure Payload where
  channelHeader : Option Bytes
  data : Bytes

structure MetadataSignature where
  signatureHeader : Bytes
  signature : Bytes

structure Metadata where
  value : Bytes
  signatures : List MetadataSignature

structure SignedData where
  identity : Bytes
  data : Bytes
  signature : Bytes

structure Protoutil (Config : Type) where
  sha256 : Bytes → Bytes
  asn1Marshal : BlockHeader → Bytes
  verifyTransactionsAreWellFormed : Block → Result Unit
  payloadOfTransaction : Bytes → Result Payload
  channelHeaderType : Bytes → Result Nat
  unmarshalConfigEnvelope : Bytes → Result Config
  unmarshalMetadata : Bytes → Result Metadata
  signatureHeaderCreator : Bytes → Result Bytes

abbrev Policy := List SignedData → Result Unit

/-- A verifier has the block validation policy of the committed config, if there is one. -/
structure BlockVerifier (Config : Type) where
  policy : Option Policy
  newBundle : Config → Result (Option Policy)

variable {Config : Type} (p : Protoutil Config)

def blockHeaderHash (header : BlockHeader) : Bytes := p.sha256 (p.asn1Marshal header)

def blockDataHash (data : List Bytes) : Bytes := p.sha256 data.flatten

def headerTypeConfig : Nat := 1

def configFromBlock (block : Block) : Result (Option Config) :=
  match block.data, block.header with
  | none, _ | some [], _ => .error (.error "empty block")
  | some (txn :: _), none => do
    let _ ← p.payloadOfTransaction txn
    .error (.panic "nil pointer dereference")
  | some (txn :: _), some header => do
    let payload ← p.payloadOfTransaction txn
    if header.number = 0 then some <$> p.unmarshalConfigEnvelope payload.data
    else match payload.channelHeader with
      | none => .error (.error "nil header in payload")
      | some channelHeader => do
        let type ← p.channelHeaderType channelHeader
        if type ≠ headerTypeConfig then .ok none else some <$> p.unmarshalConfigEnvelope payload.data

def verifyPrevious (header : BlockHeader) : Option Block → Result Unit
  | none => .ok ()
  | some prevBlock =>
    match prevBlock.header with
    | none => .error (.error "previous block header is nil")
    | some prev =>
      if prev.number + 1 ≠ header.number then
        .error (.error s!"sequences {prev.number} and {header.number} were received consecutively")
      else if header.previousHash ≠ blockHeaderHash p prev then
        .error (.error (s!"block [{prev.number}]'s hash ({blockHeaderHash p prev}) mismatches block " ++
          s!"[{header.number}]'s prev block hash ({header.previousHash})"))
      else .ok ()

def verifyBlockHash (prevBlock : Option Block) (block : Block) : Result Unit :=
  match block.header with
  | none => .error (.error "missing block header")
  | some header =>
    match p.verifyTransactionsAreWellFormed block, block.data with
    | .error _, none =>
      if 0 < header.number then .error (.error "block has malformed transactions")
      else .error (.panic "nil pointer dereference")
    | .ok (), none => .error (.panic "nil pointer dereference")
    | wellFormed, some data =>
      if wellFormed.toOption = none ∧ 0 < header.number then .error (.error "block has malformed transactions")
      else if blockDataHash p data ≠ header.dataHash then
        .error (.error (s!"computed hash of block ({header.number}) ({blockDataHash p data}) doesn't match " ++
          s!"claimed hash ({header.dataHash})"))
      else verifyPrevious p header prevBlock

def verifyBlockHashes (prevBlock : Option Block) : List Block → Result Unit
  | [] => .ok ()
  | block :: blocks => do
    verifyBlockHash p prevBlock block
    verifyBlockHashes (some block) blocks

def signatureSetFromBlock (block : Block) : Result (List SignedData) :=
  match block.metadata, block.header with
  | none, _ | some [], _ => .error (.error "no metadata in block")
  | some _, none => .error (.panic "nil pointer dereference")
  | some (signatures :: _), some header => do
    let metadata ← p.unmarshalMetadata signatures
    metadata.signatures.mapM fun s => do
      let creator ← p.signatureHeaderCreator s.signatureHeader
      .ok ⟨creator, metadata.value ++ s.signatureHeader ++ p.asn1Marshal header, s.signature⟩

variable (v : BlockVerifier Config)

def BlockVerifier.policyOf : Option Config → Result (Option Policy)
  | none => .ok v.policy
  | some config => v.newBundle config

def verifyBlockSignature (config : Option Config) (block : Block) : Result Unit := do
  let signatureSet ← signatureSetFromBlock p block
  match ← v.policyOf config with
  | none => .error (.error "policy /Channel/Orderer/BlockValidation wasn't found")
  | some evaluateSignedData => evaluateSignedData signatureSet

def verifyConfigs (v : BlockVerifier Config) (config : Option Config) : List Block → Result Unit
  | [] => .ok ()
  | block :: blocks => do
    match ← configFromBlock p block with
    | some configFromBlock =>
      verifyBlockSignature p v config block
      verifyConfigs v (some configFromBlock) blocks
    | none =>
      if blocks.isEmpty then verifyBlockSignature p v config block
      else verifyConfigs v config blocks

def verifyBlocks (blockBuff : List Block) : Result Unit := do
  if blockBuff.isEmpty then .error (.error "buffer is empty")
  else do
    verifyBlockHashes p none blockBuff
    verifyConfigs p v none blockBuff

end Fabric.Cluster
