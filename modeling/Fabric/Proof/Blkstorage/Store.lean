import Fabric.Proof.Blkstorage.Chain

/-! # Stores and the chains they hold -/

namespace Fabric.Proof.Blkstorage

open Lib Fabric.Ledger Fabric.Blkstorage List Option Layout Start Placement

variable {Envelope : Type} {index : BlockIndex}

structure Laid (pbs : Protos Envelope) (chain : Chain) (layout : Layout) (last : List Block) (mgr : BlockfileMgr) :
    Prop where
  blocks : chain.blocks = (layout ++ [last]).flatten
  files : mgr.disk.files = files (layout ++ [last])
  index : mgr.disk.index = storedIndex pbs chain.start (placements (layout ++ [last]))
  snapshot : mgr.disk.bootstrappingSnapshotInfo = chain.start.disk.bootstrappingSnapshotInfo
  bcInfo : mgr.bcInfo = chain.info pbs
  fileNumber : mgr.blockfilesInfo.latestFileNumber = layout.length
  fileSize : mgr.blockfilesInfo.latestFileSize = (fileBytes last).length
  lastPersisted : mgr.blockfilesInfo.lastPersistedBlock = if chain.blocks = [] then 0 else chain.height - 1
  numbered : Numbered chain.first (placements (layout ++ [last]))

structure Stored (pbs : Protos Envelope) (chain : Chain) (layout : Layout) (last : List Block) (mgr : BlockfileMgr) :
    Prop extends Laid pbs chain layout last mgr where
  noBlockFiles : mgr.blockfilesInfo.noBlockFiles = chain.blocks.isEmpty
  saved : mgr.disk.blkMgrInfo = some mgr.blockfilesInfo

theorem missing_ne_errNilValue (id : Bytes) : Failure.error s!"no such transaction ID [{id}] in index" ≠ errNilValue := by
  intro same
  have texts := congrArg String.length (Failure.error.inj same)
  have first : (toString "no such transaction ID [").length = 24 := by decide
  have nil : "nil value".length = 9 := by decide
  simp only [String.length_append, first, nil] at texts
  omega

theorem getTxIDVal_of_nil {id : Bytes} (noEntry : index.txIDEntriesOf id = []) :
    index.getTxIDVal id = .error (.error s!"no such transaction ID [{id}] in index") := by
  rw [BlockIndex.getTxIDVal, noEntry]
  rfl

theorem txIDExists_of_getTxIDVal {id : Bytes}
    (value : index.getTxIDVal id ≠ .error (.error s!"no such transaction ID [{id}] in index")) :
    index.txIDExists id = true := by
  by_contra missing
  exact value (getTxIDVal_of_nil (by simpa [BlockIndex.txIDExists] using missing))

variable {pbs : Protos Envelope} {chain : Chain} {layout : Layout} {last : List Block} {mgr : BlockfileMgr}
  (laid : Laid pbs chain layout last mgr) {n i : Nat}

include laid

theorem Laid.places : (placements (layout ++ [last])).map (·.block) = chain.blocks := by
  rw [map_block_placements, laid.blocks]

theorem Laid.get {block : Block} (found : chain.blocks[i]? = some block) :
    ∃ p, (placements (layout ++ [last]))[i]? = some p ∧ p.block = block ∧ block.header.number = chain.first + i ∧ InMemory block := by
  rw [← laid.places, List.getElem?_map] at found
  obtain ⟨p, atI, rfl⟩ := map_eq_some_iff.mp found
  exact ⟨p, atI, rfl, laid.numbered.numbers i p atI, laid.numbered.inMemory p (mem_of_getElem? atI)⟩

theorem Laid.firstPossible : mgr.disk.firstPossibleBlockNumberInBlockFiles = chain.first := by
  rw [Disk.firstPossibleBlockNumberInBlockFiles, laid.snapshot, Chain.first]
  cases chain.start with
  | empty => rfl
  | snapshot bsi txIDs => rfl

theorem Laid.info_height : mgr.bcInfo.height = chain.height := by
  rw [laid.bcInfo, Chain.info_height]

theorem Laid.getBlockLocByBlockNum {p : Placement} (mem : p ∈ placements (layout ++ [last])) :
    mgr.disk.index.getBlockLocByBlockNum p.block.header.number = .ok p.flp := by
  obtain ⟨q, found⟩ : ∃ q, (placements (layout ++ [last])).find? (·.block.header.number = p.block.header.number) = some q :=
    isSome_iff_exists.mp (find?_isSome.mpr ⟨p, mem, decide_eq_true rfl⟩)
  obtain rfl : q = p := by
    apply laid.numbered.eq_of_number (mem_of_find?_eq_some found) mem
    simpa using find?_some found
  rw [BlockIndex.getBlockLocByBlockNum, laid.index, get_storedIndex_num laid.numbered (laid.numbered.inMemory q mem).number, found]
  rfl

theorem Laid.fetchBlock_find (missing : String) (owns : Block → Bool) :
    (location missing (((placements (layout ++ [last])).find? fun p => owns p.block).map fun p => .location p.flp) >>=
      fetchBlock pbs mgr.disk.files) = orMissing missing (chain.blocks.find? owns) := by
  rw [← laid.places, find?_map, laid.files]
  have same : (fun p : Placement => owns p.block) = owns ∘ (·.block) := rfl
  rw [same]
  cases found : (placements (layout ++ [last])).find? (owns ∘ (·.block)) with
  | none => rfl
  | some p =>
    have mem := mem_of_find?_eq_some found
    obtain ⟨i, atI⟩ := getElem?_of_mem mem
    exact fetchBlock_placement pbs atI (laid.numbered.inMemory p mem)

theorem Laid.retrieveBlockByNumber (fits : n < 2 ^ 64) :
    mgr.retrieveBlockByNumber pbs n = chain.served (chain.blockNumToServe pbs n)
      (orMissing s!"no such block number [{chain.blockNumToServe pbs n}] in index"
        (chain.blockOf (chain.blockNumToServe pbs n))) := by
  have number : mgr.blockNumToServe n = chain.blockNumToServe pbs n := by
    rw [BlockfileMgr.blockNumToServe, Chain.blockNumToServe, laid.bcInfo]
  have fits' : chain.blockNumToServe pbs n < 2 ^ 64 := by
    rw [Chain.blockNumToServe]
    split
    · exact Nat.mod_lt _ (by decide)
    · exact fits
  rw [BlockfileMgr.retrieveBlockByNumber, number]
  simp only [laid.firstPossible, Chain.served, BlockIndex.getBlockLocByBlockNum, laid.index]
  rw [get_storedIndex_num laid.numbered fits', laid.fetchBlock_find _ (·.header.number = chain.blockNumToServe pbs n)]
  rfl

theorem Laid.retrieveBlockByHash (injective : Function.Injective pbs.blockHeaderHash) (hash : Bytes) :
    mgr.retrieveBlockByHash pbs hash = orMissing s!"no such block hash [{hex hash}] in index"
      (chain.blocks.find? (pbs.blockHeaderHash ·.header = hash)) := by
  rw [BlockfileMgr.retrieveBlockByHash, BlockIndex.getBlockLocByHash, laid.index,
    get_storedIndex_hash laid.numbered injective, laid.fetchBlock_find _ (pbs.blockHeaderHash ·.header = hash)]

theorem Laid.retrieveTransactionByBlockNumTranNum (fits : n < 2 ^ 64) (fitsTran : i < 2 ^ 64) :
    mgr.retrieveTransactionByBlockNumTranNum pbs n i = chain.served n
      (orMissing s!"no such blockNumber, transactionNumber <{n}, {i}> in index"
        ((chain.blockOf n).bind (·.data[i]?)) >>= pbs.getEnvelopeFromBlock) := by
  rw [BlockfileMgr.retrieveTransactionByBlockNumTranNum, laid.firstPossible, BlockIndex.getTXLocByBlockNumTranNum,
    laid.index, get_storedIndex_tranNum laid.numbered fits fitsTran, laid.files, Chain.served, Chain.blockOf, ← laid.places,
    find?_map]
  congr 1
  have same : (fun p : Placement => decide (p.block.header.number = n)) =
      (fun block : Block => decide (block.header.number = n)) ∘ (·.block) := rfl
  rw [same]
  cases found : (placements (layout ++ [last])).find?
      ((fun block : Block => decide (block.header.number = n)) ∘ (·.block)) with
  | none => rfl
  | some p =>
    have mem := mem_of_find?_eq_some found
    obtain ⟨j, atJ⟩ := getElem?_of_mem mem
    simp only [bind_some, map_some]
    cases tx : p.block.data[i]? with
    | none =>
      rw [get_txOffsets, tx]
      rfl
    | some envelope =>
      obtain ⟨t, indexed⟩ : ∃ t, (p.txOffsets pbs)[i]? = some t := by simp [get_txOffsets, tx]
      rw [indexed]
      exact fetchTransactionEnvelope_placement pbs atJ (laid.numbered.inMemory p mem) tx indexed

theorem Laid.find?_txs (owns : Tx → Bool) : chain.txs.find? owns =
    ((placedTxs (placements (layout ++ [last]))).find? (owns ∘ placedTx)).map placedTx := by
  rw [← find?_map, map_placedTx _ chain.start chain.blocks laid.places]

theorem Laid.getTxIDVal (fits : Fits chain.start) {id : Bytes} (fitsID : id.length < 2 ^ 64) :
    id ∈ txIDs chain.start ∧ mgr.disk.index.getTxIDVal id = .error errNilValue ∨
    id ∉ txIDs chain.start ∧ chain.txs.find? (pbs.getOrComputeTxIDFromEnvelope ·.envelope = id) = none ∧
      mgr.disk.index.txIDEntriesOf id = [] ∨ id ∉ txIDs chain.start ∧ ∃ t ∈ placedTxs (placements (layout ++ [last])),
      chain.txs.find? (pbs.getOrComputeTxIDFromEnvelope ·.envelope = id) = some (placedTx t) ∧ mgr.disk.index.getTxIDVal id = .ok
        (⟨t.1.flp, t.1.txLocation (t.1.txOffset pbs t.2), (t.1.idxInfo pbs).txsfltr[t.2.2]?.getD 0⟩, t.1.block.header.number) := by
  rw [laid.index, laid.find?_txs]
  by_cases imported : id ∈ txIDs chain.start
  · exact .inl ⟨imported, getTxIDVal_imported laid.numbered fits imported⟩
  · cases found : (placedTxs (placements (layout ++ [last]))).find?
        ((fun t => decide (pbs.getOrComputeTxIDFromEnvelope t.envelope = id)) ∘ placedTx) with
    | none =>
      have unused : ∀ t ∈ txPlacements pbs (placements (layout ++ [last])), t.offset.txID ≠ id := by
        rw [txPlacements_eq]
        intro t mem
        obtain ⟨u, listed, rfl⟩ := List.mem_map.mp mem
        exact fun isID => find?_eq_none.mp found u listed (decide_eq_true isID)
      exact .inr (.inl ⟨imported, rfl, txIDEntriesOf_nil fits fitsID imported unused⟩)
    | some t =>
      have isFirst : (txPlacements pbs (placements (layout ++ [last]))).find? (·.offset.txID = id) =
          some ⟨t.1, t.2.2, t.1.txOffset pbs t.2⟩ := by
        rw [txPlacements_eq, find?_map]
        exact congrArg (Option.map _) found
      exact .inr (.inr ⟨imported, t, mem_of_find?_eq_some found, rfl, getTxIDVal_stored laid.numbered fits fitsID imported isFirst⟩)

theorem Laid.detailsForTxID (fits : Fits chain.start) {id : Bytes} (fitsID : id.length < 2 ^ 64) :
    (∃ failure, chain.txOf pbs id = .error failure ∧ mgr.detailsForTxID id (mgr.disk.index.getTxIDVal id) = .error failure) ∨
    ∃ t ∈ placedTxs (placements (layout ++ [last])), chain.txOf pbs id = .ok (placedTx t) ∧
      mgr.detailsForTxID id (mgr.disk.index.getTxIDVal id) = .ok
        (⟨t.1.flp, t.1.txLocation (t.1.txOffset pbs t.2), (t.1.idxInfo pbs).txsfltr[t.2.2]?.getD 0⟩, t.1.block.header.number) := by
  rw [Chain.txOf]
  rcases laid.getTxIDVal fits fitsID with ⟨imported, value⟩ | ⟨fresh, unused, noEntry⟩ | ⟨fresh, t, mem, isFirst, value⟩
  · rw [if_pos imported, value, BlockfileMgr.detailsForTxID, if_pos rfl, laid.firstPossible]
    exact .inl ⟨_, rfl, rfl⟩
  · rw [if_neg fresh, unused, getTxIDVal_of_nil noEntry, BlockfileMgr.detailsForTxID, if_neg (missing_ne_errNilValue id)]
    exact .inl ⟨_, rfl, rfl⟩
  · rw [if_neg fresh, isFirst, value]
    exact .inr ⟨t, mem, rfl, rfl⟩

theorem Laid.placed {t : Placement × Bytes × Nat} (mem : t ∈ placedTxs (placements (layout ++ [last]))) :
    (∃ i : Nat, (placements (layout ++ [last]))[i]? = some t.1) ∧ InMemory t.1.block ∧ t.1.block.data[t.2.2]? = some t.2.1 := by
  obtain ⟨p, inChain, tx⟩ := mem_flatMap.mp mem
  obtain ⟨e, listed, rfl⟩ := List.mem_map.mp tx
  exact ⟨getElem?_of_mem inChain, laid.numbered.inMemory p inChain, mem_zipIdx_iff_getElem?.mp listed⟩

variable (fits : Fits chain.start) (id : TxID)

include fits

theorem Laid.retrieveBlockByTxID : mgr.retrieveBlockByTxID pbs id.1 = (chain.txOf pbs id.1).map (·.block) := by
  rw [BlockfileMgr.retrieveBlockByTxID]
  rcases laid.detailsForTxID fits id.2 with ⟨failure, isTx, value⟩ | ⟨t, mem, isTx, value⟩
  · rw [isTx, value]
    rfl
  · obtain ⟨⟨i, atI⟩, inMemory, _⟩ := laid.placed mem
    rw [isTx, value, laid.files]
    exact fetchBlock_placement pbs atI inMemory

theorem Laid.retrieveTransactionByID : mgr.retrieveTransactionByID pbs id.1 =
    (chain.txOf pbs id.1 >>= fun t => pbs.getEnvelopeFromBlock t.envelope) := by
  rw [BlockfileMgr.retrieveTransactionByID]
  rcases laid.detailsForTxID fits id.2 with ⟨failure, isTx, value⟩ | ⟨t, mem, isTx, value⟩
  · rw [isTx, value]
    rfl
  · obtain ⟨⟨i, atI⟩, inMemory, tx⟩ := laid.placed mem
    rw [isTx, value, laid.files]
    apply fetchTransactionEnvelope_placement pbs atI inMemory tx
    rw [get_txOffsets, tx]
    rfl

theorem Laid.retrieveTxValidationCodeByTxID : mgr.retrieveTxValidationCodeByTxID id.1 = (chain.txOf pbs id.1).map fun t =>
      ((t.block.metadata[transactionsFilter]?.getD [])[t.txNum]?.getD 0, t.block.header.number) := by
  rw [BlockfileMgr.retrieveTxValidationCodeByTxID]
  rcases laid.detailsForTxID fits id.2 with ⟨failure, isTx, value⟩ | ⟨t, mem, isTx, value⟩
  · rw [isTx, value]
    rfl
  · rw [isTx, value]
    rfl

theorem Laid.txIDExists : mgr.txIDExists id.1 = decide (id.1 ∈ txIDs chain.start ∨
    chain.txs.any (pbs.getOrComputeTxIDFromEnvelope ·.envelope = id.1)) := by
  have used : chain.txs.any (pbs.getOrComputeTxIDFromEnvelope ·.envelope = id.1) =
      (chain.txs.find? (pbs.getOrComputeTxIDFromEnvelope ·.envelope = id.1)).isSome := by
    rw [isSome_find?]
  rw [used]
  rcases laid.getTxIDVal fits id.2 with ⟨imported, value⟩ | ⟨fresh, unused, noEntry⟩ | ⟨fresh, t, mem, isFirst, value⟩
  · rw [decide_eq_true (.inl imported)]
    apply txIDExists_of_getTxIDVal
    rw [value]
    exact fun same => missing_ne_errNilValue id.1 (Except.error.inj same).symm
  · simp [BlockfileMgr.txIDExists, BlockIndex.txIDExists, noEntry, unused, fresh]
  · rw [isFirst, decide_eq_true (.inr rfl)]
    apply txIDExists_of_getTxIDVal
    simp [value]

theorem Laid.answer (injective : Function.Injective pbs.blockHeaderHash) (query : Query) :
    BlockfileMgr.answer pbs mgr query = chain.answer pbs query := by
  cases query with
  | blockchainInfo => rw [BlockfileMgr.answer, laid.bcInfo, Chain.answer]
  | blockByNumber n => rw [BlockfileMgr.answer, laid.retrieveBlockByNumber n.toNat_lt, Chain.answer]
  | blockByHash hash => rw [BlockfileMgr.answer, laid.retrieveBlockByHash injective, Chain.answer]
  | blockByTxID id => rw [BlockfileMgr.answer, laid.retrieveBlockByTxID fits, Chain.answer]
  | transactionByID id => rw [BlockfileMgr.answer, laid.retrieveTransactionByID fits, Chain.answer]
  | txValidationCodeByTxID id => rw [BlockfileMgr.answer, laid.retrieveTxValidationCodeByTxID fits, Chain.answer]
  | txIDExists id => rw [BlockfileMgr.answer, laid.txIDExists fits, Chain.answer]
  | transactionByBlockNumTranNum n i =>
    rw [BlockfileMgr.answer, laid.retrieveTransactionByBlockNumTranNum n.toNat_lt i.toNat_lt, Chain.answer]

end Fabric.Proof.Blkstorage
