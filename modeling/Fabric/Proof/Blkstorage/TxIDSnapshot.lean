import Fabric.Proof.Blkstorage.TxIDIndex

/-! # Transaction ids in a snapshot -/

namespace Fabric.Proof.Blkstorage

open Lib Fabric.Ledger Fabric.Blkstorage
open List hiding mem_keys

variable {txID a b : Bytes} {txIDs : List Bytes} {index : BlockIndex}

def ScannedBefore (a b : Bytes) : Prop := (compare (txIDRangeStart a) (txIDRangeStart b)).isLE

theorem scannedBefore_nil (fits : txID.length < 2 ^ 64) : ScannedBefore [] txID := by
  unfold ScannedBefore
  cases txID with
  | nil => simp [Std.ReflCmp.compare_self]
  | cons b txID =>
    have less := Varint.compare_encodeOrderPreserving (Nat.zero_lt_succ txID.length) fits [] (b :: txID)
    rw [append_nil] at less
    simp only [txIDRangeStart, compare_cons_cons, Std.ReflCmp.compare_self]
    simp [less]

theorem ScannedBefore.antisymm (ab : ScannedBefore a b) (ba : ScannedBefore b a) (fits : a.length < 2 ^ 64)
    (fits' : b.length < 2 ^ 64) : a = b := by
  have same : compare (txIDRangeStart a) (txIDRangeStart b) = .eq := Std.OrientedCmp.isLE_antisymm ab ba
  have starts : txIDRangeStart a <+: txIDRangeStart b ++ [] := by simp [Std.LawfulEqCmp.eq_of_compare same]
  exact eq_of_common_range fits fits' starts

theorem scannedBefore_of_lt (fits : a.length < 2 ^ 64) (fits' : b.length < 2 ^ 64) {r s : Bytes}
    (less : compare (txIDRangeStart a ++ r) (txIDRangeStart b ++ s) = .lt) : ScannedBefore a b := by
  unfold ScannedBefore
  by_contra after
  have flipped : compare (txIDRangeStart b) (txIDRangeStart a) = .lt := by
    have swapped : compare (txIDRangeStart b) (txIDRangeStart a) = (compare (txIDRangeStart a) (txIDRangeStart b)).swap :=
      Std.OrientedCmp.eq_swap
    cases order : compare (txIDRangeStart a) (txIDRangeStart b) <;> simp_all
  have apart : ¬ txIDRangeStart b <+: txIDRangeStart a := by
    intro starts
    rw [← append_nil (txIDRangeStart a)] at starts
    simp [eq_of_common_range fits' fits starts, Std.ReflCmp.compare_self] at flipped
  have greater := compare_append_of_lt flipped apart s r
  have swapped : compare (txIDRangeStart a ++ r) (txIDRangeStart b ++ s) =
      (compare (txIDRangeStart b ++ s) (txIDRangeStart a ++ r)).swap := Std.OrientedCmp.eq_swap
  rw [greater, less] at swapped
  cases swapped

theorem uniqueTxIDs_spec {previousTxID : Bytes} (fits : ∀ txID ∈ previousTxID :: txIDs, txID.length < 2 ^ 64)
    (sorted : (previousTxID :: txIDs).Pairwise ScannedBefore) : (uniqueTxIDs previousTxID txIDs).Nodup ∧
      ∀ txID, txID ∈ uniqueTxIDs previousTxID txIDs ↔ txID ∈ txIDs ∧ txID ≠ previousTxID := by
  induction txIDs generalizing previousTxID with
  | nil => simp [uniqueTxIDs]
  | cons next txIDs ih =>
    obtain ⟨before, sorted⟩ := pairwise_cons.mp sorted
    unfold uniqueTxIDs
    split
    · rename_i same
      subst same
      obtain ⟨nodup, mem⟩ := ih (fun txID listed => fits txID (mem_cons_of_mem _ listed)) sorted
      refine ⟨nodup, fun txID => ?_⟩
      rw [mem, mem_cons]
      tauto
    · rename_i differ
      obtain ⟨nodup, mem⟩ := ih (fun txID listed => fits txID (mem_cons_of_mem _ listed)) sorted
      refine ⟨nodup_cons.mpr ⟨fun listed => ((mem next).mp listed).2 rfl, nodup⟩, fun txID => ?_⟩
      have gone : ∀ txID ∈ txIDs, txID ≠ previousTxID := by
        intro txID listed same
        have back := (pairwise_cons.mp sorted).1 txID listed
        exact differ ((before next mem_cons_self).antisymm (same ▸ back) (fits _ (by simp)) (fits _ (by simp)))
      rw [mem_cons, mem, mem_cons]
      constructor
      · rintro (rfl | ⟨listed, _⟩)
        · exact ⟨Or.inl rfl, Ne.symm differ⟩
        · exact ⟨Or.inr listed, gone txID listed⟩
      · tauto

theorem retrieveTxID_constructTxIDKey (fits : txID.length < 2 ^ 64) (blkNum txNum : Nat) :
    retrieveTxID (constructTxIDKey txID blkNum txNum) = .ok txID := by
  have more : (txID ++ (Varint.encodeOrderPreserving blkNum ++ Varint.encodeOrderPreserving txNum)).length > txID.length := by
    simp [Varint.encodeOrderPreserving]
  simp only [constructTxIDKey, txIDRangeStart, cons_append, append_assoc, retrieveTxID, ne_eq, not_true_eq_false,
    if_false, Varint.decode_encodeOrderPreserving fits]
  rw [if_neg (by omega), take_left']
  rfl

theorem inRange_txIDIdxKey {k : Bytes} : inRange [txIDIdxKeyPrefix] [txIDIdxKeyPrefix + 1] k = true ↔ k.head? = some txIDIdxKeyPrefix := by
  cases k with
  | nil => decide
  | cons b k =>
    have low : (compare [] k).isLE := by cases k <;> rfl
    have high : compare k [] ≠ .lt := by
      cases k with
      | nil => decide
      | cons => simp [compare, List.compareLex_cons_nil]
    have between : 116 ≤ b ∧ b < 117 ↔ b = 116 := by
      rw [UInt8.le_iff_toNat_le, UInt8.lt_iff_toNat_lt, ← UInt8.toNat_inj]
      change 116 ≤ b.toNat ∧ b.toNat < 117 ↔ b.toNat = 116
      omega
    simp only [inRange, txIDIdxKeyPrefix, compare_cons_cons, Bool.and_eq_true, isEmpty_cons, Bool.false_or, beq_iff_eq,
      Ordering.isLE_then_iff_and, Ordering.then_eq_lt, low, high, head?_cons, Option.some.injEq, ← between, and_false,
      or_false, or_true, and_true, Std.isLE_compare, Std.compare_eq_lt]
    rfl

/-- An index that holds the ids of a snapshot it was bootstrapped from, if any, and of the blocks indexed since. -/
inductive IndexedChain : List Bytes → BlockIndex → Prop where
  | empty : IndexedChain [] ∅
  | bootstrapped (txIDs : List Bytes) (lastBlockNum : Nat) : IndexedChain txIDs (importTxIDsFromSnapshot txIDs lastBlockNum)
  | indexBlock {txIDs : List Bytes} {index index' : BlockIndex} {info : BlockIdxInfo} (before : IndexedChain txIDs index)
      (indexed : index.indexBlock info = .ok index') : IndexedChain (txIDs ++ info.txOffsets.map (·.txID)) index'

theorem IndexedChain.holds (chain : IndexedChain txIDs index) (fits : ∀ txID ∈ txIDs, txID.length < 2 ^ 64)
    : HoldsTxIDs (· ∈ txIDs) index := by
  induction chain with
  | empty => simpa using holdsTxIDs_empty
  | bootstrapped txIDs lastBlockNum => exact holdsTxIDs_import fits lastBlockNum
  | @indexBlock txIDs index index' info before indexed ih =>
    have holds := holdsTxIDs_indexBlock (ih fun txID listed => fits txID (mem_append_left _ listed))
      (fun t listed => fits _ (mem_append_right _ (mem_map_of_mem listed))) indexed
    simpa using holds

theorem exportUniqueTxIDs_spec {ids : Bytes → Prop} (holds : HoldsTxIDs ids index) (fits : ∀ txID, ids txID → txID.length < 2 ^ 64) :
    ∃ txIDs : List Bytes, index.exportUniqueTxIDs = .ok (if txIDs = [] then none else some txIDs) ∧ txIDs.Nodup ∧
      ∀ txID, txID ∈ txIDs ↔ ids txID ∧ txID ≠ [] := by
  let keys := index.keys.filter (inRange [txIDIdxKeyPrefix] [txIDIdxKeyPrefix + 1])
  let idOf (k : Bytes) : Bytes := ((retrieveTxID k).toOption).getD []
  have isKey : ∀ k ∈ keys, ∃ blkNum txNum, k = constructTxIDKey (idOf k) blkNum txNum ∧ ids (idOf k) := by
    intro k mem
    simp only [keys, mem_filter, mem_keys, inRange_txIDIdxKey] at mem
    obtain ⟨txID, blkNum, txNum, rfl, _, indexed⟩ := holds.known k mem.1 mem.2
    have same : idOf (constructTxIDKey txID blkNum txNum) = txID := by
      simp [idOf, retrieveTxID_constructTxIDKey (fits txID indexed), Except.toOption]
    rw [same]
    exact ⟨blkNum, txNum, rfl, indexed⟩
  have retrieved : keys.mapM retrieveTxID = .ok (keys.map idOf) := by
    rw [mapM_eq_ok, List.forall₂_map_right_iff, List.forall₂_same]
    intro k mem
    obtain ⟨blkNum, txNum, same, indexed⟩ := isKey k mem
    have decoded := retrieveTxID_constructTxIDKey (fits _ indexed) blkNum txNum
    rwa [← same] at decoded
  have sorted : (([] : Bytes) :: keys.map idOf).Pairwise ScannedBefore := by
    rw [pairwise_cons, pairwise_map]
    constructor
    · intro txID listed
      obtain ⟨k, mem, rfl⟩ := mem_map.mp listed
      obtain ⟨_, _, _, indexed⟩ := isKey k mem
      exact scannedBefore_nil (fits _ indexed)
    · have ordered : keys.Pairwise fun a b => compare a b = .lt := Std.ExtTreeMap.ordered_keys.filter _
      apply ordered.imp_of_mem
      intro a b memA memB less
      obtain ⟨_, _, isA, indexedA⟩ := isKey a memA
      obtain ⟨_, _, isB, indexedB⟩ := isKey b memB
      rw [isA, isB] at less
      exact scannedBefore_of_lt (fits _ indexedA) (fits _ indexedB) less
  have scanned : ∀ txID ∈ [] :: keys.map idOf, txID.length < 2 ^ 64 := by
    simp only [mem_cons, mem_map]
    rintro txID (rfl | ⟨k, mem, rfl⟩)
    · simp
    · obtain ⟨_, _, _, indexed⟩ := isKey k mem
      exact fits _ indexed
  obtain ⟨nodup, exported⟩ := uniqueTxIDs_spec scanned sorted
  refine ⟨uniqueTxIDs [] (keys.map idOf), ?_, nodup, fun txID => ?_⟩
  · exact bind_eq_ok.mpr ⟨_, retrieved, rfl⟩
  · rw [exported, mem_map]
    refine and_congr_left fun _ => ⟨?_, ?_⟩
    · rintro ⟨k, mem, rfl⟩
      obtain ⟨_, _, _, indexed⟩ := isKey k mem
      exact indexed
    · intro indexed
      obtain ⟨blkNum, txNum, held⟩ := holds.held txID indexed
      refine ⟨_, mem_filter.mpr ⟨mem_keys.mpr held, inRange_txIDIdxKey.mpr rfl⟩, ?_⟩
      simp [idOf, retrieveTxID_constructTxIDKey (fits txID indexed), Except.toOption]

/-- The ids go through a snapshot: the ids are exported once each, and the new store knows the same ids. -/
def RoundTrips (index : BlockIndex) (lastBlockNum : Nat) : Prop :=
  ∃ exported imported, index.exportUniqueTxIDs = .ok exported ∧
    bootstrapFromSnapshottedTxIDs exported lastBlockNum = .ok imported ∧ (∀ txIDs ∈ exported, txIDs.Nodup) ∧
    ∀ txID, txID.length < 2 ^ 64 → imported.txIDExists txID = index.txIDExists txID

theorem txIDs_roundTrip_iff (txIDs : List Bytes) (index : BlockIndex) (chain : IndexedChain txIDs index)
    (fits : ∀ txID ∈ txIDs, txID.length < 2 ^ 64) (lastBlockNum : Nat) :
    RoundTrips index lastBlockNum ↔ txIDs ≠ [] ∧ [] ∉ txIDs := by
  have holds := chain.holds fits
  obtain ⟨unique, exported, nodup, mem⟩ := exportUniqueTxIDs_spec holds fits
  have imported : HoldsTxIDs (· ∈ unique) (importTxIDsFromSnapshot unique lastBlockNum) :=
    holdsTxIDs_import (fun txID listed => fits txID ((mem txID).mp listed).1) lastBlockNum
  constructor
  · intro ⟨files, index', isExported, isImported, _, agree⟩
    rw [exported] at isExported
    obtain rfl := ok.inj isExported
    split at isImported
    · cases isImported
    · rename_i some
      obtain rfl := ok.inj isImported
      constructor
      · rintro rfl
        exact some (eq_nil_iff_forall_not_mem.mpr fun txID listed => nomatch ((mem txID).mp listed).1)
      · intro listed
        have found := (holds.txIDExists_iff (by simp)).mpr listed
        rw [← agree [] (by simp), imported.txIDExists_iff (by simp), mem] at found
        exact found.2 rfl
  · intro ⟨someTx, noEmpty⟩
    have all : ∀ txID, txID ∈ unique ↔ txID ∈ txIDs := by
      intro txID
      rw [mem]
      exact ⟨And.left, fun listed => ⟨listed, fun isEmpty => noEmpty (isEmpty ▸ listed)⟩⟩
    have nonempty : unique ≠ [] := by
      obtain ⟨txID, listed⟩ := exists_mem_of_ne_nil _ someTx
      exact ne_nil_of_mem ((all txID).mpr listed)
    rw [if_neg nonempty] at exported
    refine ⟨some unique, _, exported, rfl, by simpa using nodup, fun txID fits => ?_⟩
    rw [Bool.eq_iff_iff, imported.txIDExists_iff fits, holds.txIDExists_iff fits, all]

def blockOf (txIDs : List Bytes) : BlockIdxInfo :=
  ⟨4, [1], ⟨0, 0, 9⟩, txIDs.map fun txID => ⟨txID, ⟨1, 2⟩⟩, txIDs.map fun _ => 0⟩

theorem repeatedIDs_roundTrip :
    ∃ index, BlockIndex.indexBlock ∅ (blockOf [[7], [7, 8], [7]]) = .ok index ∧ RoundTrips index 4 := by
  have indexed : BlockIndex.indexBlock ∅ (blockOf [[7], [7, 8], [7]]) = .ok _ := rfl
  exact ⟨_, indexed, (txIDs_roundTrip_iff _ _ (.indexBlock .empty indexed) (by decide) 4).mpr (by decide)⟩

theorem emptyID_not_exported : ∃ index imported, BlockIndex.indexBlock ∅ (blockOf [[7], []]) = .ok index ∧
    index.exportUniqueTxIDs = .ok (some [[7]]) ∧ bootstrapFromSnapshottedTxIDs (some [[7]]) 4 = .ok imported ∧
    index.txIDExists [] = true ∧ imported.txIDExists [] = false :=
  ⟨_, _, rfl, by decide +kernel, rfl, by decide +kernel, by decide +kernel⟩

end Fabric.Proof.Blkstorage
