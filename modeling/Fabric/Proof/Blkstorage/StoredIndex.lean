import Fabric.Proof.Blkstorage.Lookup

/-! # The index of a chain of blocks -/

namespace Fabric.Proof.Blkstorage

open Lib Fabric.Ledger Fabric.Blkstorage List Option Placement

variable {k id : Bytes} {v : IndexValue} {i n : Nat} {p : Placement} {info : BlockIdxInfo}

namespace Start

def txIDs : Start → List Bytes
  | .empty => []
  | .snapshot _ txIDs => txIDs

def first : Start → Nat
  | .empty => 0
  | .snapshot bsi _ => bsi.lastBlockNum + 1

structure Fits (start : Start) : Prop where
  ids : ∀ txID ∈ txIDs start, txID.length < 2 ^ 64
  count : (txIDs start).length < 2 ^ 64
  number : first start < 2 ^ 64

end Start

section

variable {start : Start}

theorem get_start (found : start.disk.index[k]? = some v) :
    k = indexSavePointKey ∨ v = .imported ∧ ∃ i txID, (Start.txIDs start)[i]? = some txID ∧
      k = constructTxIDKey txID (Start.first start - 1) i ∧ 0 < Start.first start := by
  cases start with
  | empty => simp [Start.disk] at found
  | snapshot bsi txIDs =>
    simp only [Start.disk, importTxIDsFromSnapshot, get_putAll] at found
    have listed := mem_of_lastFor (by simpa using found)
    rcases mem_append.mp listed with old | savePoint
    · obtain ⟨t, mem, same⟩ := List.mem_map.mp old
      obtain ⟨rfl, rfl⟩ := Prod.mk.inj same
      exact .inr ⟨rfl, t.2, t.1, mem_zipIdx_iff_getElem?.mp mem, rfl, Nat.succ_pos _⟩
    · exact .inl (Prod.mk.inj (mem_singleton.mp savePoint)).1

theorem constructTxIDKey_head (txID : Bytes) (blkNum txNum : Nat) : (constructTxIDKey txID blkNum txNum).head? = some txIDIdxKeyPrefix := rfl

theorem get_start_of_head (noID : k.head? ≠ some txIDIdxKeyPrefix) (notSavePoint : k.head? ≠ indexSavePointKey.head?) :
    start.disk.index[k]? = none := by
  cases found : start.disk.index[k]? with
  | none => rfl
  | some v =>
    rcases get_start found with same | ⟨_, i, txID, _, rfl, _⟩
    · exact absurd (congrArg List.head? same) notSavePoint
    · exact absurd (constructTxIDKey_head ..) noID

theorem get_start_txID {txID : Bytes} (listed : (Start.txIDs start)[i]? = some txID) :
    start.disk.index[constructTxIDKey txID (Start.first start - 1) i]? = some .imported := by
  cases start with
  | empty => simp [Start.txIDs] at listed
  | snapshot bsi txIDs =>
    simp only [Start.disk, importTxIDsFromSnapshot, get_putAll]
    have entry : lastFor (constructTxIDKey txID bsi.lastBlockNum i)
        (txIDs.zipIdx.map (fun t => (constructTxIDKey t.1 bsi.lastBlockNum t.2, IndexValue.imported)) ++
          [(indexSavePointKey, .savePoint bsi.lastBlockNum)]) = some .imported := by
      apply (lastFor_eq_some_iff ?_).mpr
      · exact mem_append_left _ (List.mem_map.mpr ⟨(txID, i), mk_mem_zipIdx_iff_getElem?.mpr listed, rfl⟩)
      · have old : ∀ v, (constructTxIDKey txID bsi.lastBlockNum i, v) ∈
            txIDs.zipIdx.map (fun t => (constructTxIDKey t.1 bsi.lastBlockNum t.2, IndexValue.imported)) ++
              [(indexSavePointKey, .savePoint bsi.lastBlockNum)] → v = .imported := by
          intro v mem
          rcases mem_append.mp mem with isID | savePoint
          · obtain ⟨_, _, same⟩ := List.mem_map.mp isID
            exact (Prod.mk.inj same).2.symm
          · have key := congrArg List.head? (Prod.mk.inj (mem_singleton.mp savePoint)).1
            simp [constructTxIDKey_head, indexSavePointKey, txIDIdxKeyPrefix] at key
        intro v v' mem mem'
        rw [old v mem, old v' mem']
    have number : Start.first (.snapshot bsi txIDs) - 1 = bsi.lastBlockNum := rfl
    rw [number, entry, some_or]

end

section

variable {Envelope : Type} (pbs : Protos Envelope)

def indexOf (base : BlockIndex) (places : List Placement) : BlockIndex :=
  putAll base (places.flatMap fun p => blockEntries (p.idxInfo pbs))

theorem indexOf_concat (base : BlockIndex) (places : List Placement) (p : Placement) :
    indexOf pbs base (places ++ [p]) = putAll (indexOf pbs base places) (blockEntries (p.idxInfo pbs)) := by
  simp [indexOf, putAll_append]

structure Numbered (first : Nat) (places : List Placement) : Prop where
  numbers : ∀ i p, places[i]? = some p → p.block.header.number = first + i
  inMemory : ∀ p ∈ places, InMemory p.block

variable {first : Nat} {places : List Placement} (counted : Numbered first places) {base : BlockIndex}

include counted in
theorem Numbered.eq_of_number {q : Placement} (memP : p ∈ places) (memQ : q ∈ places)
    (same : p.block.header.number = q.block.header.number) : p = q := by
  obtain ⟨i, atI⟩ := getElem?_of_mem memP
  obtain ⟨j, atJ⟩ := getElem?_of_mem memQ
  rw [counted.numbers i p atI, counted.numbers j q atJ] at same
  obtain rfl : i = j := by omega
  exact some.inj (atI.symm.trans atJ)

variable {pbs}

theorem get_indexOf {owns : Placement → Bool} {value : Placement → Option IndexValue}
    (entries : ∀ p ∈ places, ∀ v, (k, v) ∈ blockEntries (p.idxInfo pbs) ↔ owns p ∧ value p = some v)
    (once : ∀ p ∈ places, ∀ q ∈ places, owns p → owns q → p = q) (absent : base[k]? = none) :
    (indexOf pbs base places)[k]? = (places.find? owns).bind value := by
  have listed : ∀ v, (k, v) ∈ places.flatMap (fun p => blockEntries (p.idxInfo pbs)) ↔ (places.find? owns).bind value = some v := by
    intro v
    rw [mem_flatMap, bind_eq_some_iff]
    constructor
    · intro ⟨p, mem, entry⟩
      obtain ⟨owned, isValue⟩ := (entries p mem v).mp entry
      obtain ⟨q, found⟩ := isSome_iff_exists.mp (find?_isSome.mpr ⟨p, mem, owned⟩)
      obtain rfl := once p mem q (mem_of_find?_eq_some found) owned (find?_some found)
      exact ⟨p, found, isValue⟩
    · intro ⟨p, found, isValue⟩
      have mem := mem_of_find?_eq_some found
      exact ⟨p, mem, (entries p mem v).mpr ⟨find?_some found, isValue⟩⟩
  rw [indexOf, get_putAll, absent, or_none]
  cases found : (places.find? owns).bind value with
  | none =>
    rw [lastFor_eq_none]
    intro v mem
    rw [listed, found] at mem
    simp at mem
  | some v =>
    apply (lastFor_eq_some_iff ?_).mpr ((listed v).mpr found)
    intro v v' mem mem'
    rw [listed] at mem mem'
    exact some.inj (mem.symm.trans mem')

theorem head_of_blockEntries {e : Bytes × IndexValue} (mem : e ∈ blockEntries info) :
    e.1.head? = some blockHashIdxKeyPrefix ∧ e = (constructBlockHashKey info.blockHash, .location info.flp) ∨
      e.1.head? = some blockNumIdxKeyPrefix ∧ e = (constructBlockNumKey info.blockNum, .location info.flp) ∨
      e.1.head? = some txIDIdxKeyPrefix ∧ (∃ i t, info.txOffsets[i]? = some t ∧ e = txIDEntryOf info i t) ∨
      e.1.head? = some blockNumTranNumIdxKeyPrefix ∧ (∃ i t, info.txOffsets[i]? = some t ∧ e = tranNumEntry info i t) ∨
      e.1.head? = some 105 ∧ e = (indexSavePointKey, .savePoint info.blockNum) := by
  rcases mem_blockEntries.mp mem with rfl | rfl | ⟨i, t, found, rfl⟩ | ⟨i, t, found, rfl⟩ | rfl
  · exact .inl ⟨rfl, rfl⟩
  · exact .inr (.inl ⟨rfl, rfl⟩)
  · exact .inr (.inr (.inl ⟨rfl, i, t, found, rfl⟩))
  · exact .inr (.inr (.inr (.inl ⟨rfl, i, t, found, rfl⟩)))
  · exact .inr (.inr (.inr (.inr ⟨rfl, rfl⟩)))

theorem mem_blockEntries_num (fits : n < 2 ^ 64) (fitsInfo : info.blockNum < 2 ^ 64) (v : IndexValue)
    : (constructBlockNumKey n, v) ∈ blockEntries info ↔ info.blockNum = n ∧ v = .location info.flp := by
  constructor
  · intro mem
    rcases head_of_blockEntries mem with ⟨head, _⟩ | ⟨_, same⟩ | ⟨head, _⟩ | ⟨head, _⟩ | ⟨head, _⟩
    case inr.inl =>
      obtain ⟨key, rfl⟩ := Prod.mk.inj same
      exact ⟨(constructBlockNumKey_inj fits fitsInfo key).symm, rfl⟩
    all_goals cases head
  · intro ⟨same, value⟩
    rw [← same, value]
    exact mem_blockEntries.mpr (.inr (.inl rfl))

theorem mem_blockEntries_hash {hash : Bytes} (v : IndexValue) :
    (constructBlockHashKey hash, v) ∈ blockEntries info ↔ info.blockHash = hash ∧ v = .location info.flp := by
  constructor
  · intro mem
    rcases head_of_blockEntries mem with ⟨_, same⟩ | ⟨head, _⟩ | ⟨head, _⟩ | ⟨head, _⟩ | ⟨head, _⟩
    case inl =>
      obtain ⟨key, rfl⟩ := Prod.mk.inj same
      exact ⟨(List.cons.inj key).2.symm, rfl⟩
    all_goals cases head
  · intro ⟨same, value⟩
    rw [← same, value]
    exact mem_blockEntries.mpr (.inl rfl)

theorem mem_blockEntries_tranNum (fits : n < 2 ^ 64) (fitsInfo : info.blockNum < 2 ^ 64) (fitsTran : i < 2 ^ 64)
    (count : info.txOffsets.length < 2 ^ 64) (v : IndexValue) : (constructBlockNumTranNumKey n i, v) ∈ blockEntries info ↔
      info.blockNum = n ∧ info.txOffsets[i]?.map (fun t => (tranNumEntry info i t).2) = some v := by
  constructor
  · intro mem
    rcases head_of_blockEntries mem with ⟨head, _⟩ | ⟨head, _⟩ | ⟨head, _⟩ | ⟨_, j, t, found, same⟩ | ⟨head, _⟩
    case inr.inr.inr.inl =>
      obtain ⟨key, rfl⟩ := Prod.mk.inj same
      have inside : j < info.txOffsets.length := (List.getElem?_eq_some_iff.mp found).1
      obtain ⟨rfl, rfl⟩ := constructBlockNumTranNumKey_inj fits fitsInfo fitsTran (by omega) key
      exact ⟨rfl, by rw [found]; rfl⟩
    all_goals cases head
  · intro ⟨same, value⟩
    obtain ⟨t, found, rfl⟩ := map_eq_some_iff.mp value
    rw [← same]
    exact mem_blockEntries.mpr (.inr (.inr (.inr (.inl ⟨i, t, found, rfl⟩))))

end

theorem count_lt {Envelope : Type} {pbs : Protos Envelope} (inMemory : InMemory p.block) : (p.idxInfo pbs).txOffsets.length < 2 ^ 64 := by
  have size := inMemory.size
  have count := length_le_itemsBytes p.block.data
  rw [size_blockBytes] at size
  simp only [idxInfo, length_txOffsets]
  omega

section

variable {Envelope : Type} {pbs : Protos Envelope} {start : Start} {places : List Placement}

def storedIndex (pbs : Protos Envelope) (start : Start) (places : List Placement) : BlockIndex :=
  indexOf pbs start.disk.index places

variable (counted : Numbered (Start.first start) places)

include counted

theorem get_storedIndex_num (fits : n < 2 ^ 64) : (storedIndex pbs start places)[constructBlockNumKey n]? =
      (places.find? (·.block.header.number = n)).map fun p => .location p.flp := by
  rw [map_eq_bind]
  apply get_indexOf
  · intro p mem v
    simpa [eq_comm, idxInfo] using mem_blockEntries_num fits (counted.inMemory p mem).number v
  · intro p memP q memQ sameP sameQ
    apply counted.eq_of_number memP memQ
    rw [of_decide_eq_true sameP, of_decide_eq_true sameQ]
  · exact get_start_of_head nofun nofun

theorem get_storedIndex_hash (injective : Function.Injective pbs.blockHeaderHash) (hash : Bytes) :
    (storedIndex pbs start places)[constructBlockHashKey hash]? =
      (places.find? (pbs.blockHeaderHash ·.block.header = hash)).map fun p => .location p.flp := by
  rw [map_eq_bind]
  apply get_indexOf
  · intro p mem v
    simpa [eq_comm, idxInfo] using mem_blockEntries_hash v
  · intro p memP q memQ sameP sameQ
    apply counted.eq_of_number memP memQ
    rw [injective ((of_decide_eq_true sameP).trans (of_decide_eq_true sameQ).symm)]
  · exact get_start_of_head nofun nofun

theorem get_storedIndex_tranNum (fits : n < 2 ^ 64) (fitsTran : i < 2 ^ 64) :
    (storedIndex pbs start places)[constructBlockNumTranNumKey n i]? = (places.find? (·.block.header.number = n)).bind fun p =>
        (p.txOffsets pbs)[i]?.map fun t => .location (p.txLocation t) := by
  apply get_indexOf
  · intro p mem v
    rw [decide_eq_true_iff]
    exact mem_blockEntries_tranNum fits (counted.inMemory p mem).number fitsTran (count_lt (counted.inMemory p mem)) v
  · intro p memP q memQ sameP sameQ
    apply counted.eq_of_number memP memQ
    rw [of_decide_eq_true sameP, of_decide_eq_true sameQ]
  · exact get_start_of_head nofun nofun

end

variable {Envelope : Type} (pbs : Protos Envelope)

structure TxPlacement where
  block : Placement
  txNum : Nat
  offset : TxindexInfo

def txPlacements (places : List Placement) : List TxPlacement :=
  places.flatMap fun p => (p.txOffsets pbs).zipIdx.map fun t => ⟨p, t.2, t.1⟩

def TxPlacement.key (t : TxPlacement) : Bytes := constructTxIDKey t.offset.txID t.block.block.header.number t.txNum

variable {pbs} {start : Start} {places : List Placement} {t : TxPlacement}

theorem mem_txPlacements : t ∈ txPlacements pbs places ↔ t.block ∈ places ∧ (t.block.txOffsets pbs)[t.txNum]? = some t.offset := by
  simp only [txPlacements, mem_flatMap, List.mem_map]
  constructor
  · intro ⟨p, mem, e, listed, same⟩
    rw [← same]
    exact ⟨mem, mem_zipIdx_iff_getElem?.mp listed⟩
  · intro ⟨mem, found⟩
    exact ⟨t.block, mem, (t.offset, t.txNum), mk_mem_zipIdx_iff_getElem?.mpr found, rfl⟩

theorem fits_txID {t : TxindexInfo} (found : (p.txOffsets pbs)[i]? = some t) : t.txID.length < 2 ^ 64 := by
  rw [get_txOffsets] at found
  obtain ⟨envelope, _, rfl⟩ := map_eq_some_iff.mp found
  exact pbs.txIDFits envelope

variable (counted : Numbered (Start.first start) places)

include counted

theorem pairwise_txPlacements : (txPlacements pbs places).Pairwise fun t u => t.block.block.header.number < u.block.block.header.number ∨
      t.block.block.header.number = u.block.block.header.number ∧ t.txNum < u.txNum := by
  apply pairwise_flatMap.mpr
  constructor
  · intro p _
    apply pairwise_map.mpr
    have positions : ((p.txOffsets pbs).zipIdx.map Prod.snd).Pairwise (· < ·) := by
      rw [zipIdx_map_snd]
      exact pairwise_lt_range'
    exact (pairwise_map.mp positions).imp fun less => .inr ⟨rfl, less⟩
  · rw [pairwise_iff_getElem]
    intro i j insideI insideJ less t memT u memU
    obtain ⟨_, _, rfl⟩ := List.mem_map.mp memT
    obtain ⟨_, _, rfl⟩ := List.mem_map.mp memU
    have numberI := counted.numbers i _ (getElem?_eq_getElem insideI)
    have numberJ := counted.numbers j _ (getElem?_eq_getElem insideJ)
    exact .inl (by simp only [numberI, numberJ]; omega)

theorem txNum_lt (mem : t ∈ txPlacements pbs places) : t.txNum < 2 ^ 64 := by
  obtain ⟨inChain, found⟩ := mem_txPlacements.mp mem
  have inside := (List.getElem?_eq_some_iff.mp found).1
  have count : (t.block.idxInfo pbs).txOffsets.length < 2 ^ 64 := count_lt (counted.inMemory _ inChain)
  exact inside.trans count

theorem number_ge (mem : p ∈ places) : Start.first start ≤ p.block.header.number := by
  obtain ⟨i, found⟩ := getElem?_of_mem mem
  rw [counted.numbers i p found]
  omega

theorem TxPlacement.eq_of_key {u : TxPlacement} (memT : t ∈ txPlacements pbs places)
    (memU : u ∈ txPlacements pbs places) (same : t.key = u.key) : t = u := by
  obtain ⟨inT, foundT⟩ := mem_txPlacements.mp memT
  obtain ⟨inU, foundU⟩ := mem_txPlacements.mp memU
  obtain ⟨_, numbers, txNums⟩ := constructTxIDKey_inj (fits_txID foundT) (fits_txID foundU)
    (counted.inMemory _ inT).number (counted.inMemory _ inU).number (txNum_lt counted memT) (txNum_lt counted memU) same
  have blocks := counted.eq_of_number inT inU numbers
  have offsets : t.offset = u.offset := by
    rw [blocks, txNums, foundU] at foundT
    exact (some.inj foundT).symm
  cases t
  cases u
  simp_all

section

variable (fits : Start.Fits start)
include fits

omit counted in
theorem mem_of_range (fitsID : id.length < 2 ^ 64)
    (stored : (storedIndex pbs start places)[k]? = some v) (inRange : txIDRangeStart id <+: k) :
    (∃ t ∈ txPlacements pbs places, t.offset.txID = id ∧ k = t.key ∧ v = (txIDEntryOf (t.block.idxInfo pbs) t.txNum t.offset).2) ∨
      ∃ i, (Start.txIDs start)[i]? = some id ∧ k = constructTxIDKey id (Start.first start - 1) i := by
  have head : k.head? = some txIDIdxKeyPrefix := by
    obtain ⟨rest, rfl⟩ := inRange
    rfl
  rw [storedIndex, indexOf, get_putAll] at stored
  rcases or_eq_some_iff.mp stored with listed | ⟨_, inStart⟩
  · obtain ⟨p, mem, entry⟩ := mem_flatMap.mp (mem_of_lastFor listed)
    rcases head_of_blockEntries entry with ⟨other, _⟩ | ⟨other, _⟩ | ⟨_, i, t, found, same⟩ | ⟨other, _⟩ | ⟨other, _⟩
    · simp [head, txIDIdxKeyPrefix, blockHashIdxKeyPrefix] at other
    · simp [head, txIDIdxKeyPrefix, blockNumIdxKeyPrefix] at other
    · obtain ⟨rfl, rfl⟩ := Prod.mk.inj same
      exact .inl ⟨⟨p, i, t⟩, mem_txPlacements.mpr ⟨mem, found⟩, (eq_of_common_range fitsID (fits_txID found) inRange).symm, rfl, rfl⟩
    · simp [head, txIDIdxKeyPrefix, blockNumTranNumIdxKeyPrefix] at other
    · simp [head, txIDIdxKeyPrefix] at other
  · rcases get_start inStart with rfl | ⟨_, i, txID, old, rfl, _⟩
    · simp [indexSavePointKey, txIDIdxKeyPrefix] at head
    · obtain rfl := eq_of_common_range fitsID (fits.ids txID (mem_of_getElem? old)) inRange
      exact .inr ⟨i, old, rfl⟩

theorem key_ne_start (mem : t ∈ txPlacements pbs places) (old : (Start.txIDs start)[i]? = some id) :
    t.key ≠ constructTxIDKey id (Start.first start - 1) i := by
  intro same
  obtain ⟨inChain, found⟩ := mem_txPlacements.mp mem
  have position : i < 2 ^ 64 := (List.getElem?_eq_some_iff.mp old).1.trans fits.count
  have number := fits.number
  obtain ⟨_, numbers, _⟩ := constructTxIDKey_inj (fits_txID found) (fits.ids id (mem_of_getElem? old))
    (counted.inMemory _ inChain).number (by omega) (txNum_lt counted mem) position same
  have later := number_ge counted inChain
  cases start with
  | empty => simp [Start.txIDs] at old
  | snapshot bsi txIDs =>
    simp only [Start.first] at later numbers
    omega

theorem get_storedIndex_txID (mem : t ∈ txPlacements pbs places) :
    (storedIndex pbs start places)[t.key]? = some (txIDEntryOf (t.block.idxInfo pbs) t.txNum t.offset).2 := by
  obtain ⟨inChain, found⟩ := mem_txPlacements.mp mem
  have present : t.key ∈ storedIndex pbs start places :=
    mem_putAll_of_listed (e := txIDEntryOf (t.block.idxInfo pbs) t.txNum t.offset)
      (mem_flatMap.mpr ⟨t.block, inChain, mem_blockEntries.mpr (.inr (.inr (.inl ⟨_, _, found, rfl⟩)))⟩)
  obtain ⟨v, stored⟩ := mem_iff_get.mp present
  rw [stored]
  rcases mem_of_range fits (fits_txID found) stored ⟨_, rfl⟩ with ⟨u, memU, _, same, rfl⟩ | ⟨i, old, same⟩
  · rw [TxPlacement.eq_of_key counted mem memU same]
  · exact absurd same (key_ne_start counted fits mem old)

theorem get_storedIndex_imported (old : (Start.txIDs start)[i]? = some id) :
    (storedIndex pbs start places)[constructTxIDKey id (Start.first start - 1) i]? = some .imported := by
  rw [storedIndex, indexOf, get_putAll, get_start_txID old]
  have untouched : lastFor (constructTxIDKey id (Start.first start - 1) i)
      (places.flatMap fun p => blockEntries (p.idxInfo pbs)) = none := by
    rw [lastFor_eq_none]
    intro v mem
    obtain ⟨p, inChain, entry⟩ := mem_flatMap.mp mem
    rcases head_of_blockEntries entry with ⟨other, _⟩ | ⟨other, _⟩ | ⟨_, j, t, found, same⟩ | ⟨other, _⟩ | ⟨other, _⟩
    · simp [constructTxIDKey_head, txIDIdxKeyPrefix, blockHashIdxKeyPrefix] at other
    · simp [constructTxIDKey_head, txIDIdxKeyPrefix, blockNumIdxKeyPrefix] at other
    · have isTx : (⟨p, j, t⟩ : TxPlacement) ∈ txPlacements pbs places := mem_txPlacements.mpr ⟨inChain, found⟩
      exact key_ne_start counted fits isTx old (Prod.mk.inj same).1.symm
    · simp [constructTxIDKey_head, txIDIdxKeyPrefix, blockNumTranNumIdxKeyPrefix] at other
    · simp [constructTxIDKey_head, txIDIdxKeyPrefix] at other
  rw [untouched, none_or]

end

omit counted in
theorem head?_txIDEntriesOf (fits : Start.Fits start) (fitsID : id.length < 2 ^ 64)
    (stored : (storedIndex pbs start places)[k]? = some v) (inRange : prefixRange (txIDRangeStart id) 255 k = true)
    (leastTx : ∀ t ∈ txPlacements pbs places, t.offset.txID = id → t.key = k ∨ compare k t.key = .lt)
    (leastID : ∀ i, (Start.txIDs start)[i]? = some id → constructTxIDKey id (Start.first start - 1) i = k ∨
      compare k (constructTxIDKey id (Start.first start - 1) i) = .lt)
    : ((storedIndex pbs start places).txIDEntriesOf id).head? = some (k, v) := by
  apply KeySorted.head?_eq_some ((KeySorted.toList _).filter _)
  · exact mem_filter.mpr ⟨mem_toList_iff_getElem?_eq_some.mpr stored, inRange⟩
  · intro e mem
    obtain ⟨listed, starts⟩ := mem_filter.mp mem
    have storedE := mem_toList_iff_getElem?_eq_some.mp listed
    have order : e.1 = k ∨ compare k e.1 = .lt := by
      rcases mem_of_range fits fitsID storedE (isPrefix_of_prefixRange starts) with ⟨t, memT, isID, key, _⟩ | ⟨i, old, key⟩
      · rw [key]
        exact leastTx t memT isID
      · rw [key]
        exact leastID i old
    rcases order with same | less
    · refine .inl (Prod.ext same ?_)
      rw [same, stored] at storedE
      exact (some.inj storedE).symm
    · exact .inr less

theorem getTxIDVal_imported (fits : Start.Fits start) (old : id ∈ Start.txIDs start) :
    (storedIndex pbs start places).getTxIDVal id = .error errNilValue := by
  classical
  have fitsID := fits.ids id old
  have present := getElem?_of_mem old
  have number := fits.number
  have head : ((storedIndex pbs start places).txIDEntriesOf id).head? =
      some (constructTxIDKey id (Start.first start - 1) (Nat.find present), .imported) := by
    apply head?_txIDEntriesOf fits fitsID (get_storedIndex_imported counted fits (Nat.find_spec present))
      (prefixRange_constructTxIDKey ..)
    · intro t mem isID
      obtain ⟨inChain, _⟩ := mem_txPlacements.mp mem
      have later := number_ge counted inChain
      have positive : 0 < Start.first start := by
        cases start with
        | empty => simp [Start.txIDs] at old
        | snapshot bsi txIDs => exact Nat.succ_pos _
      rw [TxPlacement.key, isID]
      exact .inr (compare_constructTxIDKey id (counted.inMemory _ inChain).number (txNum_lt counted mem) (.inl (by omega)))
    · intro i listed
      have position : i < 2 ^ 64 := (List.getElem?_eq_some_iff.mp listed).1.trans fits.count
      rcases Nat.lt_or_eq_of_le (Nat.find_min' present listed) with less | same
      · exact .inr (compare_constructTxIDKey id (by omega) position (.inr ⟨rfl, less⟩))
      · exact .inl (by rw [same])
  rw [BlockIndex.getTxIDVal, head]

theorem getTxIDVal_stored (fits : Start.Fits start) (fitsID : id.length < 2 ^ 64) (fresh : id ∉ Start.txIDs start)
 (isFirst : (txPlacements pbs places).find? (·.offset.txID = id) = some t) :
    (storedIndex pbs start places).getTxIDVal id =
      .ok (⟨t.block.flp, t.block.txLocation t.offset, (t.block.idxInfo pbs).txsfltr[t.txNum]?.getD 0⟩, t.block.block.header.number) := by
  obtain ⟨isID, before, after, split, others⟩ := find?_eq_some_iff_append.mp isFirst
  have isID : t.offset.txID = id := by simpa using isID
  have mem : t ∈ txPlacements pbs places := by
    rw [split]
    simp
  have head : ((storedIndex pbs start places).txIDEntriesOf id).head? =
      some (t.key, (txIDEntryOf (t.block.idxInfo pbs) t.txNum t.offset).2) := by
    apply head?_txIDEntriesOf fits fitsID (get_storedIndex_txID counted fits mem)
    · rw [TxPlacement.key, isID]
      exact prefixRange_constructTxIDKey ..
    · intro u memU isU
      obtain ⟨inU, _⟩ := mem_txPlacements.mp memU
      have ordered : (txPlacements pbs places).Pairwise _ := pairwise_txPlacements counted
      rw [split] at memU ordered
      rcases mem_append.mp memU with earlier | here
      · have other := others u earlier
        simp [isU] at other
      · rcases mem_cons.mp here with rfl | later
        · exact .inl rfl
        · have order := (pairwise_cons.mp (pairwise_append.mp ordered).2.1).1 u later
          have memU : u ∈ txPlacements pbs places := by
            rw [split]
            simp [later]
          rw [TxPlacement.key, TxPlacement.key, isID, isU]
          exact .inr (compare_constructTxIDKey id (counted.inMemory _ inU).number (txNum_lt counted memU) order)
    · intro i listed
      exact absurd (mem_of_getElem? listed) fresh
  obtain ⟨inChain, _⟩ := mem_txPlacements.mp mem
  have decoded : Varint.decodeOrderPreserving (t.key.drop (txIDRangeStart id).length) =
      some (t.block.block.header.number, Varint.encodeOrderPreserving t.txNum) := by
    rw [TxPlacement.key, isID, constructTxIDKey, drop_left, Varint.decode_encodeOrderPreserving (counted.inMemory _ inChain).number]
  rw [BlockIndex.getTxIDVal, head]
  simp only [txIDEntryOf, decoded]
  rfl

omit counted in
theorem txIDEntriesOf_nil (fits : Start.Fits start) (fitsID : id.length < 2 ^ 64) (fresh : id ∉ Start.txIDs start)
    (unused : ∀ t ∈ txPlacements pbs places, t.offset.txID ≠ id) : (storedIndex pbs start places).txIDEntriesOf id = [] := by
  apply eq_nil_iff_forall_not_mem.mpr
  intro e mem
  obtain ⟨listed, starts⟩ := mem_filter.mp mem
  have stored := mem_toList_iff_getElem?_eq_some.mp listed
  rcases mem_of_range fits fitsID stored (isPrefix_of_prefixRange starts) with ⟨t, memT, isID, _⟩ | ⟨i, old, _⟩
  · exact unused t memT isID
  · exact fresh (mem_of_getElem? old)

end Fabric.Proof.Blkstorage
