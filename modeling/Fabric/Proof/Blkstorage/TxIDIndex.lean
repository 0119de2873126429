import Fabric.Blkstorage.BlockIndex

/-! # Look-up of transaction ids -/

namespace Fabric.Proof.Blkstorage

open Lib Fabric.Ledger Fabric.Blkstorage List

variable {txID : Bytes} {ids : Bytes → Prop} {index : BlockIndex}

theorem eq_of_common_range {txID' : Bytes} {rest : Bytes} (fits : txID.length < 2 ^ 64)
    (fits' : txID'.length < 2 ^ 64) (starts : txIDRangeStart txID <+: txIDRangeStart txID' ++ rest) : txID = txID' := by
  obtain ⟨more, same⟩ := starts
  simp only [txIDRangeStart, cons_append, append_assoc, List.cons.injEq, true_and] at same
  have decoded := congrArg Varint.decodeOrderPreserving same
  rw [Varint.decode_encodeOrderPreserving fits, Varint.decode_encodeOrderPreserving fits'] at decoded
  simp only [Option.some.injEq, Prod.mk.injEq] at decoded
  exact (append_inj decoded.2 decoded.1).1

theorem head_encodeOrderPreserving_lt (n : Nat) (rest : Bytes) :
    ∀ c ∈ (Varint.encodeOrderPreserving n ++ rest).head?, compare c (255 : UInt8) = .lt := by
  intro c first
  have size : c = UInt8.ofNat ((Varint.bigEndian n 8).dropWhile (· == 0)).length := by
    simpa [Varint.encodeOrderPreserving] using first.symm
  have small : ∀ m ≤ 8, compare (UInt8.ofNat m) (255 : UInt8) = .lt := by decide
  rw [size]
  exact small _ (Varint.length_significant_le n)

theorem prefixRange_constructTxIDKey (txID : Bytes) (blkNum txNum : Nat) :
    prefixRange (txIDRangeStart txID) 255 (constructTxIDKey txID blkNum txNum) = true := by
  rw [prefixRange_iff]
  exact ⟨_, rfl, head_encodeOrderPreserving_lt blkNum _⟩

structure HoldsTxIDs (ids : Bytes → Prop) (index : BlockIndex) : Prop where
  known : ∀ k ∈ index, k.head? = some txIDIdxKeyPrefix →
    ∃ txID blkNum txNum, k = constructTxIDKey txID blkNum txNum ∧ txID.length < 2 ^ 64 ∧ ids txID
  held : ∀ txID, ids txID → ∃ blkNum txNum, constructTxIDKey txID blkNum txNum ∈ index

theorem HoldsTxIDs.txIDExists_iff (holds : HoldsTxIDs ids index) (fits : txID.length < 2 ^ 64) : index.txIDExists txID = true ↔ ids txID := by
  simp only [BlockIndex.txIDExists, BlockIndex.txIDEntriesOf, Bool.not_eq_true', isEmpty_eq_false_iff_exists_mem, mem_filter]
  constructor
  · intro found
    obtain ⟨e, listed, inRange⟩ := found
    have stored := mem_of_mem_toList listed
    have starts := isPrefix_of_prefixRange inRange
    have first : e.1.head? = some txIDIdxKeyPrefix := by
      obtain ⟨rest, same⟩ := starts
      simp [← same, txIDRangeStart]
    obtain ⟨txID', blkNum, txNum, key, fits', indexed⟩ := holds.known e.1 stored first
    rw [key] at starts
    rwa [eq_of_common_range fits fits' starts]
  · intro indexed
    obtain ⟨blkNum, txNum, stored⟩ := holds.held txID indexed
    obtain ⟨v, found⟩ := mem_iff_get.mp stored
    exact ⟨(_, v), mem_toList_iff_getElem?_eq_some.mpr found, prefixRange_constructTxIDKey txID blkNum txNum⟩

theorem holdsTxIDs_putAll {ids' : Bytes → Prop} {entries : List (Bytes × IndexValue)} (holds : HoldsTxIDs ids index)
    (known : ∀ e ∈ entries, e.1.head? = some txIDIdxKeyPrefix →
      ∃ txID blkNum txNum, e.1 = constructTxIDKey txID blkNum txNum ∧ txID.length < 2 ^ 64 ∧ ids' txID)
    (held : ∀ txID, ids' txID → ∃ e ∈ entries, ∃ blkNum txNum, e.1 = constructTxIDKey txID blkNum txNum) :
    HoldsTxIDs (fun txID => ids txID ∨ ids' txID) (putAll index entries) where
  known := by
    intro k mem first
    cases mem_of_mem_putAll mem with
    | inl before =>
      obtain ⟨txID, blkNum, txNum, key, fits, indexed⟩ := holds.known k before first
      exact ⟨txID, blkNum, txNum, key, fits, .inl indexed⟩
    | inr written =>
      obtain ⟨e, listed, rfl⟩ := written
      obtain ⟨txID, blkNum, txNum, key, fits, indexed⟩ := known e listed first
      exact ⟨txID, blkNum, txNum, key, fits, .inr indexed⟩
  held := by
    intro txID indexed
    cases indexed with
    | inl before =>
      obtain ⟨blkNum, txNum, stored⟩ := holds.held txID before
      exact ⟨blkNum, txNum, mem_putAll_of_mem stored⟩
    | inr written =>
      obtain ⟨e, listed, blkNum, txNum, key⟩ := held txID written
      exact ⟨blkNum, txNum, key ▸ mem_putAll_of_listed listed⟩

theorem holdsTxIDs_empty : HoldsTxIDs (fun _ => False) ∅ := ⟨by simp, by simp⟩

theorem holdsTxIDs_import {txIDs : List Bytes} (fits : ∀ txID ∈ txIDs, txID.length < 2 ^ 64) (lastBlockNum : Nat) :
    HoldsTxIDs (· ∈ txIDs) (importTxIDsFromSnapshot txIDs lastBlockNum) := by
  suffices all : HoldsTxIDs (fun txID => False ∨ txID ∈ txIDs) (importTxIDsFromSnapshot txIDs lastBlockNum) by
    simpa using all
  apply holdsTxIDs_putAll holdsTxIDs_empty
  · intro e listed first
    cases mem_append.mp listed with
    | inl imported =>
      obtain ⟨t, mem, rfl⟩ := mem_map.mp imported
      have listed := fst_mem_of_mem_zipIdx mem
      exact ⟨t.1, lastBlockNum, t.2, rfl, fits _ listed, listed⟩
    | inr savePoint =>
      rw [mem_singleton.mp savePoint] at first
      exact absurd first (by simp [indexSavePointKey, txIDIdxKeyPrefix])
  · intro txID mem
    obtain ⟨i, found⟩ := getElem?_of_mem mem
    exact ⟨_, mem_append_left _ (mem_map_of_mem (mk_mem_zipIdx_iff_getElem?.mpr found)), lastBlockNum, i, rfl⟩

theorem holdsTxIDs_indexBlock {index' : BlockIndex} {info : BlockIdxInfo} (holds : HoldsTxIDs ids index)
    (fits : ∀ t ∈ info.txOffsets, t.txID.length < 2 ^ 64) (indexed : index.indexBlock info = .ok index') :
    HoldsTxIDs (fun txID => ids txID ∨ ∃ t ∈ info.txOffsets, t.txID = txID) index' := by
  obtain ⟨txIDEntries, made, result⟩ := bind_eq_ok.mp indexed
  cases result
  have matched := mapM_eq_ok.mp made
  apply holdsTxIDs_putAll holds
  · intro e listed first
    simp only [mem_append, mem_cons, not_mem_nil, or_false, mem_map] at listed
    rcases listed with (((rfl | rfl) | mem) | ⟨t, _, rfl⟩) | rfl
    · exact absurd first (by simp [constructBlockHashKey, txIDIdxKeyPrefix, blockHashIdxKeyPrefix])
    · exact absurd first (by simp [constructBlockNumKey, txIDIdxKeyPrefix, blockNumIdxKeyPrefix])
    · obtain ⟨t, offset, made⟩ := exists_left_of_mem matched mem
      have listed := fst_mem_of_mem_zipIdx offset
      unfold txIDEntry at made
      split at made
      · cases made
      · cases made
        exact ⟨t.1.txID, info.blockNum, t.2, rfl, fits _ listed, t.1, listed, rfl⟩
    · exact absurd first (by simp [tranNumEntry, constructBlockNumTranNumKey, txIDIdxKeyPrefix, blockNumTranNumIdxKeyPrefix])
    · exact absurd first (by simp [indexSavePointKey, txIDIdxKeyPrefix])
  · intro txID present
    obtain ⟨t, mem, rfl⟩ := present
    obtain ⟨i, found⟩ := getElem?_of_mem mem
    obtain ⟨e, listed, made⟩ := exists_right_of_mem matched (mk_mem_zipIdx_iff_getElem?.mpr found)
    unfold txIDEntry at made
    split at made
    · cases made
    · cases made
      exact ⟨_, mem_append_left _ (mem_append_left _ (mem_append_right _ listed)), info.blockNum, i, rfl⟩

end Fabric.Proof.Blkstorage
