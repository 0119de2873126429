import Fabric.Lib.PrefixCode
import Fabric.Lib.Transition
import Fabric.Proof.Blkstorage.Operations

/-! # All ways to retrieve a block agree -/

namespace Fabric.Proof.Blkstorage

open Lib Fabric.Ledger Fabric.Blkstorage List Option

variable {Envelope : Type} {pbs : Protos Envelope} {chain : Chain} {layout : Layout} {last : List Block}
  {mgr : BlockfileMgr} {reader : Reader}

def Chain.lastNumber (chain : Chain) : Nat := if chain.blocks = [] then 0 else chain.height - 1

def Reader.position (chain : Chain) (reader : Reader) : Nat := reader.startNum - chain.first + reader.served.length

structure Reads (chain : Chain) (layout : Layout) (reader : Reader) : Prop where
  start : chain.first ≤ reader.startNum
  served : reader.served <+: chain.blocks.drop (reader.startNum - chain.first)
  number : reader.itr.blockNumToRetrieve = reader.startNum + reader.served.length
  available : reader.itr.maxBlockNumAvailable ≤ chain.lastNumber
  stream : ∀ s, reader.itr.stream = some s → s.endFileNum = none ∧ reader.served ≠ [] ∧
    Remaining layout s.currentFileNum s.currentOffset (chain.blocks.drop (Reader.position chain reader))

theorem Chain.lastNumber_mono (chain : Chain) (added : List Block) :
    chain.lastNumber ≤ Chain.lastNumber { chain with blocks := chain.blocks ++ added } := by
  simp only [Chain.lastNumber, Chain.height, Chain.first, append_eq_nil_iff, length_append]
  split
  · omega
  · rename_i nonempty
    rw [if_neg (fun both => nonempty both.1)]
    omega

theorem Reads.grow {layout' : Layout} {added : List Block} (reads : Reads chain layout reader)
    (extend : Extends layout layout' added) : Reads { chain with blocks := chain.blocks ++ added } layout' reader where
  start := reads.start
  served := by
    apply reads.served.trans
    rw [drop_append]
    exact prefix_append _ _
  number := reads.number
  available := reads.available.trans (chain.lastNumber_mono added)
  stream := by
    intro s isStream
    obtain ⟨noEnd, hasServed, remaining⟩ := reads.stream s isStream
    refine ⟨noEnd, hasServed, ?_⟩
    have inside : Reader.position chain reader ≤ chain.blocks.length := by
      have lengths := reads.served.length_le
      have := length_pos_iff.mpr hasServed
      rw [length_drop] at lengths
      rw [Reader.position]
      omega
    have same : Reader.position { chain with blocks := chain.blocks ++ added } reader = Reader.position chain reader := rfl
    rw [same, drop_append_of_le_length inside]
    exact extend _ _ _ remaining

section

variable (stored : Stored pbs chain layout last mgr) (reads : Reads chain (layout ++ [last]) reader)

include stored reads

theorem Reads.available_le : reader.itr.available mgr ≤ chain.lastNumber := by
  rw [BlocksItr.available]
  split
  · exact stored.lastPersisted.le
  · exact reads.available

theorem Reads.openStream {block : Block} (found : chain.blocks[Reader.position chain reader]? = some block) :
    ∃ fileNum offset, reader.itr.openStream mgr = .ok ⟨fileNum, offset, none⟩ ∧
      Remaining (layout ++ [last]) fileNum offset (chain.blocks.drop (Reader.position chain reader)) := by
  rw [BlocksItr.openStream]
  cases isStream : reader.itr.stream with
  | some s =>
    obtain ⟨noEnd, _, remaining⟩ := reads.stream s isStream
    exact ⟨s.currentFileNum, s.currentOffset, by rw [← noEnd], remaining⟩
  | none =>
    obtain ⟨p, here, rfl, number, _⟩ := stored.get found
    have isNumber : reader.itr.blockNumToRetrieve = p.block.header.number := by
      have := reads.start
      rw [reads.number, number, Reader.position]
      omega
    have remaining := remaining_of_placement here
    rw [← stored.blocks] at remaining
    refine ⟨p.fileNum, p.offset, ?_, remaining⟩
    rw [isNumber]
    exact bind_eq_ok.mpr ⟨_, stored.getBlockLocByBlockNum (mem_of_getElem? here), rfl⟩

theorem Reads.next {block : Block} (found : chain.blocks[Reader.position chain reader]? = some block) :
    ∃ itr, reader.itr.next pbs mgr = some (.ok (block, itr)) ∧
      Reads chain (layout ++ [last]) { reader with itr := itr, served := reader.served ++ [block] } := by
  obtain ⟨fileNum, offset, opened, remaining⟩ := reads.openStream stored found
  have inside := (List.getElem?_eq_some_iff.mp found).1
  have split : chain.blocks.drop (Reader.position chain reader) = block :: chain.blocks.drop (Reader.position chain reader + 1) := by
    rw [drop_eq_getElem_cons inside, (List.getElem?_eq_some_iff.mp found).2]
  obtain ⟨_, _, _, _, inMemory⟩ := stored.get found
  rw [split] at remaining
  obtain ⟨placement, s, read, noEnd, rest⟩ := remaining.next inMemory
  have nonempty : chain.blocks ≠ [] := by
    intro empty
    simp [empty] at inside
  have reached : reader.itr.blockNumToRetrieve ≤ chain.lastNumber := by
    have := reads.start
    rw [Reader.position] at inside
    rw [Chain.lastNumber, if_neg nonempty, Chain.height, reads.number]
    omega
  have enough : ¬ reader.itr.available mgr < reader.itr.blockNumToRetrieve := by
    rw [BlocksItr.available, stored.lastPersisted, ← Chain.lastNumber]
    split
    · omega
    · omega
  refine ⟨⟨reader.itr.available mgr, reader.itr.blockNumToRetrieve + 1, some s⟩, ?_, ?_⟩
  · rw [BlocksItr.next, if_neg enough]
    congr 1
    refine bind_eq_ok.mpr ⟨_, opened, ?_⟩
    rw [stored.files]
    refine bind_eq_ok.mpr ⟨_, read, ?_⟩
    exact bind_eq_ok.mpr ⟨_, deserializeBlock_blockBytes pbs inMemory, rfl⟩
  · exact
      { start := reads.start
        served := by
          apply concat_isPrefix reads.served
          rwa [getElem?_drop]
        number := by simp [reads.number, Nat.add_assoc]
        available := reads.available_le stored
        stream := by
          intro s' isStream
          obtain rfl : s = s' := some.inj isStream
          refine ⟨noEnd, by simp, ?_⟩
          simpa [Reader.position, Nat.add_assoc] using rest }

theorem Reads.serves : reader.served <+: chain.blocks.drop (reader.startNum - chain.first) ∧
    ∀ block, (chain.blocks.drop (reader.startNum - chain.first))[reader.served.length]? = some block →
      ∃ itr, reader.itr.next pbs mgr = some (.ok (block, itr)) := by
  refine ⟨reads.served, ?_⟩
  intro block found
  rw [getElem?_drop] at found
  obtain ⟨itr, served, _⟩ := reads.next stored found
  exact ⟨itr, served⟩

theorem Reads.next_none (noBlock : chain.blocks[Reader.position chain reader]? = none) {block : Block} {itr : BlocksItr} :
    reader.itr.next pbs mgr ≠ some (.ok (block, itr)) := by
  intro served
  have beyond := List.getElem?_eq_none_iff.mp noBlock
  have start := reads.start
  have number := reads.number
  rw [Reader.position] at beyond
  rw [BlocksItr.next] at served
  by_cases short : reader.itr.available mgr < reader.itr.blockNumToRetrieve
  · rw [if_pos short] at served
    cases served
  · rw [if_neg short] at served
    have reached : reader.itr.blockNumToRetrieve ≤ chain.lastNumber := (not_lt.mp short).trans (reads.available_le stored)
    by_cases empty : chain.blocks = []
    · -- The first block of a store is looked up in the index.
      have notServed : reader.served = [] := by
        have part := reads.served
        rw [empty, drop_nil] at part
        exact prefix_nil.mp part
      have noStream : reader.itr.stream = none := by
        cases isStream : reader.itr.stream with
        | none => rfl
        | some s => exact absurd notServed (reads.stream s isStream).2.1
      have first : reader.itr.blockNumToRetrieve = 0 := by
        rw [Chain.lastNumber, if_pos empty] at reached
        omega
      have noPlaces : Layout.placements (layout ++ [last]) = [] := map_eq_nil_iff.mp (stored.places.trans empty)
      have missing : mgr.disk.index[constructBlockNumKey 0]? = none := by
        rw [stored.index, get_storedIndex_num stored.numbered (by decide), noPlaces]
        rfl
      obtain ⟨stream, opened, _⟩ := bind_eq_ok.mp (some.inj served)
      rw [BlocksItr.openStream, noStream, first, BlockIndex.getBlockLocByBlockNum, missing] at opened
      cases opened
    · have := length_pos_iff.mpr empty
      rw [Chain.lastNumber, if_neg empty, Chain.height] at reached
      omega

end

section

variable {start : Start} {limit : Nat} {s t : Session}

def Session.Sound (pbs : Protos Envelope) (start : Start) (s : Session) : Prop :=
  ∃ layout last, Stored pbs ⟨start, s.added⟩ layout last s.mgr ∧
    ∀ reader ∈ s.readers, Reads ⟨start, s.added⟩ (layout ++ [last]) reader

/-- No call fails in a way that is not undone: the index is written, and the truncation after a failed append or
checkpoint takes effect, with the first block small enough for the first file. -/
def Op.Harmless (limit : Nat) (s : Session) : Op → Prop
  | .addBlock block none => InMemory block
  | .addBlock block (some fault) =>
    InMemory block ∧ Fault.undone fault ∧ (s.added = [] → (frame block).length ≤ limit)
  | _ => True

section

variable (sound : Session.Sound pbs start s)
include sound

theorem Session.Sound.addBlock {block : Block} {fault : Option Fault} (harmless : Op.Harmless limit s (.addBlock block fault))
    (taken : s.step pbs limit (.addBlock block fault) = some t) : Session.Sound pbs start t := by
  obtain ⟨layout, last, stored, readers⟩ := sound
  by_cases next : Chain.Next pbs ⟨start, s.added⟩ block
  · cases fault with
    | none =>
      obtain ⟨accepted, panics⟩ := stored.addBlock_none harmless next limit
      by_cases indexable : Indexable block
      · obtain ⟨mgr', layout', last', result, stored', extend⟩ := accepted indexable
        simp only [Session.step, result, some.injEq] at taken
        rw [← taken]
        exact ⟨layout', last', stored', fun reader mem => (readers reader mem).grow extend⟩
      · obtain ⟨mgr', msg, result⟩ := panics indexable
        simp [Session.step, result] at taken
    | some f =>
      obtain ⟨_, undone, small⟩ := harmless
      obtain ⟨mgr', layout', last', msg, result, stored', extend⟩ := stored.addBlock_fault next undone small
      simp only [Session.step, result, some.injEq] at taken
      rw [← taken]
      refine ⟨layout', last', stored', ?_⟩
      intro reader mem
      simpa using (readers reader mem).grow extend
  · obtain ⟨msg, result⟩ := stored.toLaid.addBlock_of_not_next next limit fault
    simp only [Session.step, result, some.injEq] at taken
    rw [← taken]
    exact ⟨layout, last, stored, readers⟩

theorem Session.Sound.reopen (taken : s.step pbs limit .reopen = some t) : Session.Sound pbs start t := by
  obtain ⟨layout, last, stored, _⟩ := sound
  simp only [Session.step, stored.reopen] at taken
  obtain rfl := some.inj taken
  exact ⟨layout, last, stored, by simp⟩

theorem Session.Sound.retrieveBlocks {startNum : Nat}
    (taken : s.step pbs limit (.retrieveBlocks startNum) = some t) : Session.Sound pbs start t := by
  obtain ⟨layout, last, stored, readers⟩ := sound
  simp only [Session.step, BlockfileMgr.retrieveBlocks, stored.firstPossible] at taken
  split at taken
  · cases taken
  · rename_i served
    obtain rfl := some.inj taken
    refine ⟨layout, last, stored, ?_⟩
    intro reader mem
    rcases mem_append.mp mem with earlier | here
    · exact readers reader earlier
    · rw [mem_singleton.mp here]
      exact ⟨not_lt.mp served, nil_prefix, rfl, stored.lastPersisted.le, by simp⟩

theorem Session.Sound.next {i : Nat} (taken : s.step pbs limit (.next i) = some t) : Session.Sound pbs start t := by
  obtain ⟨layout, last, stored, readers⟩ := sound
  obtain ⟨reader, found, taken⟩ := bind_eq_some_iff.mp taken
  obtain ⟨result, returned, taken⟩ := bind_eq_some_iff.mp taken
  have reads := readers reader (mem_of_getElem? found)
  cases result with
  | error failure =>
    obtain rfl := some.inj taken
    exact ⟨layout, last, stored, readers⟩
  | ok r =>
    obtain rfl := some.inj taken
    cases here : s.added[Reader.position ⟨start, s.added⟩ reader]? with
    | none => exact absurd returned (reads.next_none stored here)
    | some block =>
      obtain ⟨itr, served, reads'⟩ := reads.next stored here
      obtain rfl : (block, itr) = r := by simpa [returned] using served.symm
      refine ⟨layout, last, stored, ?_⟩
      intro reader' mem
      rcases mem_or_eq_of_mem_set mem with other | rfl
      · exact readers reader' other
      · exact reads'

theorem Session.Sound.step {op : Op} (harmless : Op.Harmless limit s op)
    (taken : s.step pbs limit op = some t) : Session.Sound pbs start t := by
  cases op with
  | addBlock block fault => exact sound.addBlock harmless taken
  | reopen => exact sound.reopen taken
  | retrieveBlocks startNum => exact sound.retrieveBlocks taken
  | next i => exact sound.next taken

end

theorem Session.Sound.opened {mgr : BlockfileMgr} (opened : newBlockfileMgr pbs start.disk = .ok mgr) :
    Session.Sound pbs start ⟨mgr, [], []⟩ := by
  obtain ⟨mgr', opened', stored⟩ := @open_start _ pbs start
  obtain rfl : mgr' = mgr := ok.inj (opened'.symm.trans opened)
  exact ⟨[], [], stored, by simp⟩

theorem Session.Sound.run {mgr : BlockfileMgr} {ops : List Op} (opened : newBlockfileMgr pbs start.disk = .ok mgr)
    (run : Reaches (Session.step pbs limit) (Op.Harmless limit) ⟨mgr, [], []⟩ ops s) : Session.Sound pbs start s :=
  run.invariant (fun _ s => Session.Sound pbs start s) (.opened opened)
    fun _ _ _ _ sound harmless taken => sound.step harmless taken

end

section

variable (laid : Laid pbs chain layout last mgr) {i : Nat} {block : Block}

include laid

theorem Laid.find?_block (owns : Block → Bool) (found : chain.blocks[i]? = some block) (owned : owns block)
    (unique : ∀ block', owns block' → block'.header.number = block.header.number) : chain.blocks.find? owns = some block := by
  obtain ⟨other, isFirst⟩ : ∃ other, chain.blocks.find? owns = some other :=
    isSome_iff_exists.mp (find?_isSome.mpr ⟨block, mem_of_getElem? found, owned⟩)
  obtain ⟨j, atJ⟩ := getElem?_of_mem (mem_of_find?_eq_some isFirst)
  obtain ⟨_, _, _, numberI, _⟩ := laid.get found
  obtain ⟨_, _, _, numberJ, _⟩ := laid.get atJ
  have same := unique other (find?_some isFirst)
  obtain rfl : j = i := by omega
  rw [isFirst, ← atJ, found]

section

variable (found : chain.blocks[i]? = some block)
include found

theorem Laid.blockOf : chain.blockOf block.header.number = some block :=
  laid.find?_block _ found (decide_eq_true rfl) fun _ same => of_decide_eq_true same

-- The largest number is only that of the last block.
theorem Laid.blockNumToServe : chain.blockNumToServe pbs block.header.number = block.header.number := by
  obtain ⟨_, _, _, number, _⟩ := laid.get found
  have inside := (List.getElem?_eq_some_iff.mp found).1
  obtain ⟨last, atLast⟩ : ∃ last, chain.blocks[chain.blocks.length - 1]? = some last := isSome_iff_exists.mp (by simp; omega)
  obtain ⟨_, _, _, lastNumber, inMemory⟩ := laid.get atLast
  have fits := inMemory.number
  rw [Chain.blockNumToServe]
  split
  · rw [Chain.info_height, Chain.height]
    omega
  · rfl

theorem Laid.retrieveBlockByNumber_of_get : mgr.retrieveBlockByNumber pbs block.header.number = .ok block := by
  obtain ⟨_, _, _, number, inMemory⟩ := laid.get found
  rw [laid.retrieveBlockByNumber inMemory.number, laid.blockNumToServe found, laid.blockOf found, Chain.served, if_neg (by omega)]
  rfl

end

theorem Laid.retrieveBlockByHash_of_get (injective : Function.Injective pbs.blockHeaderHash) (found : chain.blocks[i]? = some block) :
    mgr.retrieveBlockByHash pbs (pbs.blockHeaderHash block.header) = .ok block := by
  rw [laid.retrieveBlockByHash injective, laid.find?_block _ found (decide_eq_true rfl)]
  · rfl
  · intro block' same
    rw [injective (of_decide_eq_true same)]

theorem Laid.retrieveTransaction_of_get (found : chain.blocks[i]? = some block) {j : Nat} {envelope : Bytes}
    (tx : block.data[j]? = some envelope) :
    mgr.retrieveTransactionByBlockNumTranNum pbs block.header.number j = pbs.getEnvelopeFromBlock envelope := by
  obtain ⟨p, _, rfl, number, inMemory⟩ := laid.get found
  have count : (p.idxInfo pbs).txOffsets.length < 2 ^ 64 := count_lt inMemory
  have position : j < 2 ^ 64 := by
    have := (List.getElem?_eq_some_iff.mp tx).1
    simp only [Placement.idxInfo, Placement.length_txOffsets] at count
    omega
  rw [laid.retrieveTransactionByBlockNumTranNum inMemory.number position, laid.blockOf found, Chain.served, if_neg (by omega), bind_some, tx]
  rfl

omit laid in
theorem txOf_of_find {id : Bytes} {tx : Tx} (fresh : id ∉ Start.txIDs chain.start)
    (isFirst : chain.txs.find? (pbs.getOrComputeTxIDFromEnvelope ·.envelope = id) = some tx) :
    id.length < 2 ^ 64 ∧ chain.txOf pbs id = .ok tx := by
  have isID : pbs.getOrComputeTxIDFromEnvelope tx.envelope = id := by simpa using find?_some isFirst
  constructor
  · rw [← isID]
    exact pbs.txIDFits tx.envelope
  · rw [Chain.txOf, if_neg fresh, isFirst]
    rfl

end

def Op.Faultless : Op → Prop
  | .addBlock block fault => InMemory block ∧ fault = none
  | _ => True

/-- Blocks and transactions are retrieved by number, hash and position; an id leads to the first transaction that has it;
and iterators serve the blocks from their start on. -/
theorem retrieval_agrees (injective : Function.Injective pbs.blockHeaderHash) {start : Start} (fits : Start.Fits start)
    {limit : Nat} {mgr : BlockfileMgr} (opened : newBlockfileMgr pbs start.disk = .ok mgr) {ops : List Op}
    {s : Session} (run : Reaches (Session.step pbs limit) (fun _ => Op.Faultless) ⟨mgr, [], []⟩ ops s) :
    (∀ block ∈ s.added, s.mgr.retrieveBlockByNumber pbs block.header.number = .ok block ∧
      s.mgr.retrieveBlockByHash pbs (pbs.blockHeaderHash block.header) = .ok block ∧
      ∀ i envelope, block.data[i]? = some envelope →
        s.mgr.retrieveTransactionByBlockNumTranNum pbs block.header.number i = pbs.getEnvelopeFromBlock envelope) ∧
    (∀ id tx, id ∉ Start.txIDs start →
      (Chain.mk start s.added).txs.find? (pbs.getOrComputeTxIDFromEnvelope ·.envelope = id) = some tx →
        s.mgr.retrieveBlockByTxID pbs id = .ok tx.block ∧
        s.mgr.retrieveTransactionByID pbs id = pbs.getEnvelopeFromBlock tx.envelope) ∧
    ∀ reader ∈ s.readers, reader.served <+: s.added.drop (reader.startNum - Start.first start) ∧
      ∀ block, (s.added.drop (reader.startNum - Start.first start))[reader.served.length]? = some block →
        ∃ itr, reader.itr.next pbs s.mgr = some (.ok (block, itr)) := by
  have harmless : ∀ s op, Op.Faultless op → Op.Harmless limit s op := by
    intro s op faultless
    cases op with
    | addBlock block fault =>
      obtain ⟨inMemory, rfl⟩ := faultless
      exact inMemory
    | _ => trivial
  obtain ⟨layout, last, stored, readers⟩ := Session.Sound.run opened (run.mono harmless)
  refine ⟨?_, ?_, ?_⟩
  · intro block mem
    obtain ⟨i, found⟩ := getElem?_of_mem mem
    refine ⟨stored.retrieveBlockByNumber_of_get found, stored.retrieveBlockByHash_of_get injective found, ?_⟩
    intro j envelope tx
    exact stored.retrieveTransaction_of_get found tx
  · intro id tx fresh isFirst
    obtain ⟨fitsID, isTx⟩ := @txOf_of_find _ pbs ⟨start, s.added⟩ id tx fresh isFirst
    constructor
    · rw [stored.retrieveBlockByTxID fits ⟨id, fitsID⟩, isTx]
      rfl
    · rw [stored.retrieveTransactionByID fits ⟨id, fitsID⟩, isTx]
      rfl
  · intro reader mem
    exact (readers reader mem).serves stored

namespace TwoBlocks

def hash (header : BlockHeader) : Bytes :=
  List.replicate header.number 1 ++ 0 :: (List.replicate header.dataHash.length 1 ++ 0 :: (header.dataHash ++ header.previousHash))

theorem hash_injective : Function.Injective hash := by
  intro a b same
  obtain ⟨numbers, same⟩ := PrefixCode.replicate_cons_inj same
  obtain ⟨lengths, same⟩ := PrefixCode.replicate_cons_inj same
  obtain ⟨dataHashes, previousHashes⟩ := append_inj same lengths
  cases a
  cases b
  simp_all

def plainProtos : Protos Bytes where
  blockHeaderHash := hash
  getOrComputeTxIDFromEnvelope envelope := envelope.take 1
  getEnvelopeFromBlock envelope := .ok envelope
  txIDFits envelope := by
    have := length_take_le 1 envelope
    omega

def block0 : Block := ⟨⟨0, [], [7]⟩, [[1, 2], [3, 4]], [[], [], [0, 0]]⟩

def block1 : Block := ⟨⟨1, hash block0.header, [8]⟩, [[3, 5]], [[], [], [0]]⟩

def newStore : BlockfileMgr := ⟨⟨[[]], some ⟨0, 0, true, 0⟩, ∅, none⟩, ⟨0, 0, true, 0⟩, ⟨0, [], []⟩⟩

theorem opened : newBlockfileMgr plainProtos Start.empty.disk = .ok newStore := rfl

def ops : List Op := [.retrieveBlocks 0, .addBlock block0 none, .addBlock block1 none, .next 0]

instance (block : Block) : Decidable (InMemory block) :=
  decidable_of_iff (block.header.number < 2 ^ 64 ∧ (blockBytes block).length < 2 ^ 56)
    ⟨fun both => ⟨both.1, both.2⟩, fun inMemory => ⟨inMemory.1, inMemory.2⟩⟩

instance : (op : Op) → Decidable (Op.Faultless op)
  | .addBlock _ _ => inferInstanceAs (Decidable (_ ∧ _))
  | .reopen => isTrue trivial
  | .retrieveBlocks _ => isTrue trivial
  | .next _ => isTrue trivial

theorem twoBlocks_retrieved : ∃ s, Reaches (Session.step plainProtos 20) (fun _ => Op.Faultless) ⟨newStore, [], []⟩ ops s ∧
    s.mgr.disk.files.length = 2 ∧ s.mgr.retrieveBlockByNumber plainProtos 1 = .ok block1 ∧
    s.mgr.retrieveTransactionByID plainProtos [3] = .ok [3, 4] := by
  refine exists_reaches (fun s => s.added = [block0, block1] ∧ s.mgr.disk.files.length = 2 ∧
    s.readers.map (·.served) = [[block0]]) (by decide +kernel) fun s run ⟨added, files, _⟩ => ?_
  obtain ⟨blocks, ids, _⟩ := retrieval_agrees hash_injective ⟨by simp [Start.txIDs], by decide, by decide⟩ opened run
  refine ⟨files, ?_, ?_⟩
  · exact (blocks block1 (by simp [added])).1
  · apply (ids [3] ⟨block0, 1, [3, 4]⟩ (by simp [Start.txIDs]) _).2
    rw [added]
    rfl

end TwoBlocks

end Fabric.Proof.Blkstorage
