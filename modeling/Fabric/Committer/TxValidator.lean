import Fabric.Lib.Transition
import Fabric.Blkstorage.BlockIndex

/-! # Validation of the transactions of a block -/

namespace Fabric.Committer

open Lib Ledger Blkstorage

inductive TxValidationCode where
  | valid | nilEnvelope | badPayload | badCommonHeader | badCreatorSignature | invalidEndorserTransaction
  | invalidConfigTransaction | unsupportedTxPayload | badProposalTxid | duplicateTxid | endorsementPolicyFailure
  | mvccReadConflict | phantomReadConflict | unknownTxType | targetChainNotFound | marshalTxError | nilTxaction
  | expiredChaincode | chaincodeVersionConflict | badHeaderExtension | badChannelHeader | badResponsePayload
  | badRwset | illegalWriteset | invalidWriteset | invalidChaincode | notValidated | invalidOtherReason
  deriving DecidableEq

def TxValidationCode.byte : TxValidationCode → UInt8
  | .valid => 0 | .nilEnvelope => 1 | .badPayload => 2 | .badCommonHeader => 3 | .badCreatorSignature => 4
  | .invalidEndorserTransaction => 5 | .invalidConfigTransaction => 6 | .unsupportedTxPayload => 7
  | .badProposalTxid => 8 | .duplicateTxid => 9 | .endorsementPolicyFailure => 10 | .mvccReadConflict => 11
  | .phantomReadConflict => 12 | .unknownTxType => 13 | .targetChainNotFound => 14 | .marshalTxError => 15
  | .nilTxaction => 16 | .expiredChaincode => 17 | .chaincodeVersionConflict => 18 | .badHeaderExtension => 19
  | .badChannelHeader => 20 | .badResponsePayload => 21 | .badRwset => 22 | .illegalWriteset => 23
  | .invalidWriteset => 24 | .invalidChaincode => 25 | .notValidated => 254 | .invalidOtherReason => 255

inductive HeaderType where
  | endorserTransaction
  | configUpdate
  | config
  | other (n : Nat)
  deriving DecidableEq

structure ChannelHeader where
  type : HeaderType
  epoch : Nat
  txId : Bytes

structure SignatureHeader where
  creator : Bytes
  nonce : Bytes

structure Header where
  channelHeader : Option ChannelHeader
  signatureHeader : Option SignatureHeader

structure Payload where
  header : Option Header
  data : Option Bytes

structure Envelope where
  payload : Option Payload

def Envelope.header (e : Envelope) : Option Header := e.payload.bind (·.header)

def Envelope.channelHeader (e : Envelope) : Option ChannelHeader := e.header.bind (·.channelHeader)

/-- Decoding and hashing. An id is a string, whose length is an `int`. -/
structure Envelopes where
  unmarshalEnvelope : Bytes → Option Envelope
  computeTxID : Bytes → Bytes → Bytes
  computeTxID_ne_nil : ∀ nonce creator, computeTxID nonce creator ≠ []
  computeTxID_fits : ∀ nonce creator, (computeTxID nonce creator).length < 2 ^ 64
  txId_fits : ∀ b e chdr, unmarshalEnvelope b = some e → e.channelHeader = some chdr → chdr.txId.length < 2 ^ 64

variable (env : Envelopes)

def Envelopes.getOrComputeTxIDFromEnvelope (txEnvelopBytes : Bytes) : Bytes :=
  match (env.unmarshalEnvelope txEnvelopBytes).bind (·.header) with
  | none => []
  | some header =>
    match header.channelHeader with
    | none => []
    | some chdr =>
      if chdr.txId ≠ [] then chdr.txId
      else match header.signatureHeader with
        | none => []
        | some sighdr => env.computeTxID sighdr.nonce sighdr.creator

inductive DispatchError where
  | badChannelHeader
  | badHeaderExtension
  | badResponsePayload
  | badRwset
  | invalidOtherReason
  | invalidChaincode
  | illegalWriteset
  | endorsementPolicyFailure
  | executionFailure (msg : String)
  | infoLookupFailure (msg : String)

inductive StateRejection where
  | nilTxaction
  | invalidOtherReason
  | invalidWriteset
  | mvccReadConflict
  | phantomReadConflict

structure TxChecks where
  checkSignatureFromCreator : Bool
  validateEndorserTransaction : Bool
  ledgerFailure : Option String
  dispatch : Option DispatchError
  configFailure : Option String
  marshals : Bool
  validateState : Option StateRejection

def validateChannelHeader (chdr : ChannelHeader) : Bool :=
  (chdr.type == .endorserTransaction || chdr.type == .configUpdate || chdr.type == .config) && chdr.epoch == 0

def validateSignatureHeader (shdr : SignatureHeader) : Bool := !shdr.nonce.isEmpty && !shdr.creator.isEmpty

def validateCommonHeader (hdr : Option Header) : Option (ChannelHeader × SignatureHeader) := do
  let hdr ← hdr
  let chdr ← hdr.channelHeader
  let shdr ← hdr.signatureHeader
  if validateChannelHeader chdr && validateSignatureHeader shdr then some (chdr, shdr) else none

def validateTransaction (checks : TxChecks) (e : Envelope) :
    Except TxValidationCode ChannelHeader :=
  match e.payload with
  | none => .error .badPayload
  | some payload =>
    match validateCommonHeader payload.header with
    | none => .error .badCommonHeader
    | some (chdr, shdr) =>
      if !checks.checkSignatureFromCreator then .error .badCreatorSignature
      else match chdr.type with
        | .endorserTransaction =>
          if chdr.txId ≠ env.computeTxID shdr.nonce shdr.creator then .error .badProposalTxid
          else if !checks.validateEndorserTransaction then .error .invalidEndorserTransaction
          else .ok chdr
        | .config => if payload.data.isNone then .error .invalidConfigTransaction else .ok chdr
        | _ => .error .unsupportedTxPayload

inductive ValidationOutcome where
  | err (msg : String)
  | code (validationCode : TxValidationCode) (txid : Bytes)

def dispatchOutcome : DispatchError → ValidationOutcome
  | .badChannelHeader => .code .badChannelHeader []
  | .badHeaderExtension => .code .badHeaderExtension []
  | .badResponsePayload => .code .badResponsePayload []
  | .badRwset => .code .badRwset []
  | .invalidOtherReason => .code .invalidOtherReason []
  | .invalidChaincode => .code .invalidChaincode []
  | .illegalWriteset => .code .illegalWriteset []
  | .endorsementPolicyFailure => .code .endorsementPolicyFailure []
  | .executionFailure msg => .err msg
  | .infoLookupFailure msg => .err msg

variable (txIDExists : Bytes → Bool)

def validateEndorserTx (checks : TxChecks) (chdr : ChannelHeader) : Option ValidationOutcome :=
  match checks.ledgerFailure with
  | some msg => some (.err msg)
  | none =>
    if txIDExists chdr.txId then some (.code .duplicateTxid [])
    else checks.dispatch.map dispatchOutcome

-- A transaction without data gets the zero value of a result, which is valid.
def validateTx (checks : TxChecks) : Option Bytes → ValidationOutcome
  | none => .code .valid []
  | some d =>
    match env.unmarshalEnvelope d with
    | none => .code .invalidOtherReason []
    | some e =>
      match validateTransaction env checks e with
      | .error txResult => .code txResult []
      | .ok chdr =>
        let marshalled (txID : Bytes) : ValidationOutcome :=
          if checks.marshals then .code .valid txID else .code .marshalTxError []
        match chdr.type with
        | .endorserTransaction => (validateEndorserTx txIDExists checks chdr).getD (marshalled chdr.txId)
        | .config => (checks.configFailure.map .err).getD (marshalled [])
        | _ => .code .unknownTxType []

structure Collected where
  err : Option (String × Nat)
  txsfltr : List TxValidationCode
  txidArray : List Bytes

def newCollected (n : Nat) : Collected := ⟨none, List.replicate n .notValidated, List.replicate n []⟩

def Collected.add (c : Collected) (tIdx : Nat) : ValidationOutcome → Collected
  | .err msg =>
    match c.err with
    | none => { c with err := some (msg, tIdx) }
    | some (_, errPos) => if tIdx < errPos then { c with err := some (msg, tIdx) } else c
  | .code validationCode txid =>
    { c with
      txsfltr := c.txsfltr.set tIdx validationCode
      txidArray := if validationCode = .valid then c.txidArray.set tIdx txid else c.txidArray }

def markDuplicates (txidMap : Finset Bytes) : List (Bytes × TxValidationCode) → List TxValidationCode
  | [] => []
  | (txid, flag) :: rest =>
    if txid = [] then flag :: markDuplicates txidMap rest
    else if txid ∈ txidMap then .duplicateTxid :: markDuplicates txidMap rest
    else flag :: markDuplicates (insert txid txidMap) rest

def markTXIdDuplicates (txids : List Bytes) (txsfltr : List TxValidationCode) : List TxValidationCode :=
  markDuplicates ∅ (txids.zip txsfltr)

structure BlockInput where
  data : List (Option Bytes)
  checks : Nat → TxChecks
  order : List Nat
  blockHash : Bytes
  flp : FileLocPointer
  loc : Nat → LocPointer

def validate (block : BlockInput) : Result (List TxValidationCode) :=
  let outcome (i : Nat) := validateTx env txIDExists (block.checks i) (block.data[i]?.getD none)
  let c := block.order.foldl (fun c i => c.add i (outcome i)) (newCollected block.data.length)
  match c.err with
  | some (msg, _) => .error (.error msg)
  | none =>
    let txsfltr := markTXIdDuplicates c.txidArray c.txsfltr
    match txsfltr.findIdx? (· == .notValidated) with
    | some id => .error (.error s!"transaction {id} has skipped validation")
    | none => .ok txsfltr

def StateRejection.code : StateRejection → TxValidationCode
  | .nilTxaction => .nilTxaction
  | .invalidOtherReason => .invalidOtherReason
  | .invalidWriteset => .invalidWriteset
  | .mvccReadConflict => .mvccReadConflict
  | .phantomReadConflict => .phantomReadConflict

def stateFlag (checks : TxChecks) (flag : TxValidationCode) : TxValidationCode :=
  if flag = .valid then (checks.validateState.map StateRejection.code).getD .valid else flag

structure CommittedTx where
  data : Option Bytes
  flag : TxValidationCode

structure Peer where
  index : BlockIndex
  nextBlock : Nat
  txs : List CommittedTx

def indexedTxID (data : Option Bytes) : Bytes := env.getOrComputeTxIDFromEnvelope (data.getD [])

def blockIdxInfo (blockNum : Nat) (block : BlockInput) (flags : List TxValidationCode) : BlockIdxInfo where
  blockNum := blockNum
  blockHash := block.blockHash
  flp := block.flp
  txOffsets := block.data.zipIdx.map fun t => ⟨indexedTxID env t.1, block.loc t.2⟩
  txsfltr := flags.map TxValidationCode.byte

def Peer.storeBlock (p : Peer) (block : BlockInput) : Result Peer := do
  let flags ← validate env p.index.txIDExists block
  let flags := flags.zipIdx.map fun t => stateFlag (block.checks t.2) t.1
  let index ← p.index.indexBlock (blockIdxInfo env p.nextBlock block flags)
  .ok ⟨index, p.nextBlock + 1, p.txs ++ (block.data.zip flags).map fun t => ⟨t.1, t.2⟩⟩

inductive Start where
  | genesis
  | snapshot (txIDs : List Bytes) (lastBlockNum : Nat) (fits : ∀ txID ∈ txIDs, txID.length < 2 ^ 64)

def Start.txIDs : Start → List Bytes
  | .genesis => []
  | .snapshot txIDs _ _ => txIDs

def newPeer : Start → Peer
  | .genesis => ⟨∅, 0, []⟩
  | .snapshot txIDs lastBlockNum _ => ⟨importTxIDsFromSnapshot txIDs lastBlockNum, lastBlockNum + 1, []⟩

def Peer.step (p : Peer) (block : BlockInput) : Option Peer := (p.storeBlock env block).toOption

end Fabric.Committer
