import Fabric.Proof.Blkstorage.StoredIndex

/-! # A block store as a chain of blocks -/

namespace Fabric.Proof.Blkstorage

open Lib Fabric.Ledger Fabric.Blkstorage List

variable {Envelope : Type} (protos : Protos Envelope)

structure Chain where
  start : Start
  blocks : List Block

structure Tx where
  block : Block
  txNum : Nat
  envelope : Bytes

def TxID := { txID : Bytes // txID.length < 2 ^ 64 }

inductive Query where
  | blockchainInfo
  | blockByNumber (blockNum : UInt64)
  | blockByHash (blockHash : Bytes)
  | blockByTxID (txID : TxID)
  | transactionByID (txID : TxID)
  | txValidationCodeByTxID (txID : TxID)
  | txIDExists (txID : TxID)
  | transactionByBlockNumTranNum (blockNum tranNum : UInt64)

inductive Answer (Envelope : Type) where
  | blockchainInfo (info : BlockchainInfo)
  | block (r : Result Block)
  | transaction (r : Result Envelope)
  | txValidationCode (r : Result (UInt8 × Nat))
  | txIDExists (found : Bool)

def BlockfileMgr.answer (mgr : BlockfileMgr) : Query → Answer Envelope
  | .blockchainInfo => .blockchainInfo mgr.bcInfo
  | .blockByNumber n => .block (mgr.retrieveBlockByNumber protos n.toNat)
  | .blockByHash hash => .block (mgr.retrieveBlockByHash protos hash)
  | .blockByTxID id => .block (mgr.retrieveBlockByTxID protos id.1)
  | .transactionByID id => .transaction (mgr.retrieveTransactionByID protos id.1)
  | .txValidationCodeByTxID id => .txValidationCode (mgr.retrieveTxValidationCodeByTxID id.1)
  | .txIDExists id => .txIDExists (mgr.txIDExists id.1)
  | .transactionByBlockNumTranNum n i => .transaction (mgr.retrieveTransactionByBlockNumTranNum protos n.toNat i.toNat)

def orMissing {α : Type} (missing : String) : Option α → Result α
  | none => .error (.error missing)
  | some a => .ok a

namespace Chain

variable (chain : Chain)

def first : Nat := Start.first chain.start

def height : Nat := chain.first + chain.blocks.length

def append (block : Block) : Chain := { chain with blocks := chain.blocks ++ [block] }

def info : BlockchainInfo :=
  chain.blocks.getLast?.elim (bootstrappedInfo chain.start.disk) fun block =>
    ⟨chain.height, protos.blockHeaderHash block.header, block.header.previousHash⟩

def txs : List Tx := chain.blocks.flatMap fun block => block.data.zipIdx.map fun t => ⟨block, t.2, t.1⟩

def blockOf (n : Nat) : Option Block := chain.blocks.find? (·.header.number = n)

def txOf (txID : Bytes) : Result Tx :=
  if txID ∈ Start.txIDs chain.start then
    .error (.error (s!"details for the TXID [{txID}] not available. Ledger bootstrapped from a snapshot. " ++
      s!"First available block = [{chain.first}]"))
  else orMissing s!"no such transaction ID [{txID}] in index"
    (chain.txs.find? (protos.getOrComputeTxIDFromEnvelope ·.envelope = txID))

def served {α : Type} (n : Nat) (r : Result α) : Result α := if n < chain.first then notServed n chain.first else r

def blockNumToServe (n : Nat) : Nat := if n = 2 ^ 64 - 1 then ((chain.info protos).height + 2 ^ 64 - 1) % 2 ^ 64 else n

def answer : Query → Answer Envelope
  | .blockchainInfo => .blockchainInfo (chain.info protos)
  | .blockByNumber n =>
    let n := chain.blockNumToServe protos n.toNat
    .block (chain.served n (orMissing s!"no such block number [{n}] in index" (chain.blockOf n)))
  | .blockByHash hash =>
    .block (orMissing s!"no such block hash [{hex hash}] in index"
      (chain.blocks.find? (protos.blockHeaderHash ·.header = hash)))
  | .blockByTxID id => .block ((chain.txOf protos id.1).map (·.block))
  | .transactionByID id => .transaction (chain.txOf protos id.1 >>= fun t => protos.getEnvelopeFromBlock t.envelope)
  | .txValidationCodeByTxID id => .txValidationCode ((chain.txOf protos id.1).map fun t =>
    ((t.block.metadata[transactionsFilter]?.getD [])[t.txNum]?.getD 0, t.block.header.number))
  | .txIDExists id => .txIDExists (id.1 ∈ Start.txIDs chain.start ∨
      chain.txs.any (protos.getOrComputeTxIDFromEnvelope ·.envelope = id.1))
  | .transactionByBlockNumTranNum n i =>
    .transaction (chain.served n.toNat (orMissing
      s!"no such blockNumber, transactionNumber <{n.toNat}, {i.toNat}> in index"
      ((chain.blockOf n.toNat).bind (·.data[i.toNat]?)) >>= protos.getEnvelopeFromBlock))

@[simp] theorem info_height : (chain.info protos).height = chain.height := by
  rw [info]
  cases last : chain.blocks.getLast? with
  | some block => rfl
  | none =>
    rw [height, getLast?_eq_none_iff.mp last, first]
    cases chain.start with
    | empty => rfl
    | snapshot bsi txIDs => rfl

end Chain

variable {protos} (placements : List Placement)

def placedTxs : List (Placement × Bytes × Nat) := placements.flatMap fun p => p.block.data.zipIdx.map fun t => (p, t)

def placedTx (t : Placement × Bytes × Nat) : Tx := ⟨t.1.block, t.2.2, t.2.1⟩

theorem map_placedTx (start : Start) (blocks : List Block) (places : placements.map (·.block) = blocks) :
    (placedTxs placements).map placedTx = (Chain.mk start blocks).txs := by
  rw [Chain.txs, ← places, placedTxs, map_flatMap, flatMap_map]
  simp only [map_map]
  rfl

variable (protos)

def Placement.txOffset (p : Placement) (t : Bytes × Nat) : TxindexInfo :=
  ⟨protos.getOrComputeTxIDFromEnvelope t.1, ⟨dataOffset p.block + ((p.block.data.take t.2).flatMap encodeRawBytes).length +
    (Varint.encode (blockBytes p.block).length).length, (encodeRawBytes t.1).length⟩⟩

theorem Placement.txOffsets_zipIdx (p : Placement) :
    (p.txOffsets protos).zipIdx = p.block.data.zipIdx.map fun t => (p.txOffset protos t, t.2) := by
  apply List.ext_getElem?
  intro i
  rw [getElem?_zipIdx, Placement.get_txOffsets, List.getElem?_map, getElem?_zipIdx]
  cases p.block.data[i]? with
  | none => rfl
  | some envelope => simp [Placement.txOffset]

theorem txPlacements_eq : txPlacements protos placements = (placedTxs placements).map fun t => ⟨t.1, t.2.2, t.1.txOffset protos t.2⟩ := by
  rw [txPlacements, placedTxs, map_flatMap]
  congr 1
  funext p
  rw [Placement.txOffsets_zipIdx, map_map, map_map]
  rfl

end Fabric.Proof.Blkstorage
