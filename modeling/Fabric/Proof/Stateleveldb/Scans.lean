import Fabric.Stateleveldb.VersionedDB

namespace Fabric.Proof.Stateleveldb

open Lib Fabric.Ledger Fabric.Stateleveldb CompositeKey Std.OrientedCmp DBHandle Std.TransCmp
open List hiding splitAt

variable {ck ck' : CompositeKey} {fuel : Nat} {e : CompositeKey × VersionedValue}
  {xs ys : List (CompositeKey × VersionedValue)} {h' : DBHandle} {key : Bytes} {s : FullDBScanner}
  {quota : Nat}

def levelKey (h : DBHandle) (ck : CompositeKey) : Bytes := h.constructLevelKey (encodeDataKey ck.ns ck.key)

def encodeEntry (h : DBHandle) (e : CompositeKey × VersionedValue) : Bytes × DbValue := (levelKey h e.1, .encoded e.2)

theorem splitAt_append {sep : UInt8} {xs rest : Bytes} (free : sep ∉ xs) : splitAt sep (xs ++ sep :: rest) = (xs, rest) := by
  have all : ∀ x ∈ xs, decide (x ≠ sep) = true := fun x mem => by simpa using ne_of_mem_of_not_mem mem free
  rw [splitAt, takeWhile_append_of_pos all, dropWhile_append_of_pos all]
  simp

theorem retrieveAppKey_constructLevelKey (h : DBHandle) (key : Bytes) : retrieveAppKey (h.constructLevelKey key) = key := by
  rw [retrieveAppKey, constructLevelKey, splitAt_append h.sepFree]

theorem decodeDataKey_encodeDataKey {ns : Bytes} (free : nsKeySep ∉ ns) (key : Bytes) :
    decodeDataKey (encodeDataKey ns key) = ⟨ns, key⟩ := by
  have free' : nsKeySep ∉ dataKeyPrefix ++ ns := by
    rw [mem_append, not_or]
    exact ⟨by decide, free⟩
  rw [decodeDataKey, encodeDataKey, splitAt_append free']
  rfl

theorem decode_levelKey (h : DBHandle) (free : nsKeySep ∉ ck.ns) : decodeDataKey (retrieveAppKey (levelKey h ck)) = ck := by
  rw [levelKey, retrieveAppKey_constructLevelKey, decodeDataKey_encodeDataKey free]

theorem constructLevelKey_inj {h : DBHandle} {key' : Bytes}
    (same : h.constructLevelKey key = h'.constructLevelKey key') : h.dbName = h'.dbName ∧ key = key' := by
  have split := congrArg (splitAt dbNameKeySep) same
  rw [constructLevelKey, constructLevelKey, splitAt_append h.sepFree, splitAt_append h'.sepFree] at split
  exact Prod.mk.inj split

theorem levelKey_inj {h : DBHandle} (free : nsKeySep ∉ ck.ns) (free' : nsKeySep ∉ ck'.ns)
    (same : levelKey h ck = levelKey h' ck') : h.dbName = h'.dbName ∧ ck = ck' := by
  obtain ⟨sameName, sameKey⟩ := constructLevelKey_inj same
  have decoded := congrArg decodeDataKey sameKey
  rw [decodeDataKey_encodeDataKey free, decodeDataKey_encodeDataKey free'] at decoded
  exact ⟨sameName, decoded⟩

theorem compare_constructLevelKey (h : DBHandle) (key key' : Bytes) :
    compare (h.constructLevelKey key) (h.constructLevelKey key') = compare key key' := by
  rw [constructLevelKey, constructLevelKey, compare_append_left, compare_cons_cons]
  rfl

theorem sep_lt {b : UInt8} (other : b ≠ 0) : compare 0 b = .lt :=
  Std.compare_eq_lt.mpr (UInt8.pos_iff_ne_zero.mpr other)

theorem compare_levelKey (h : DBHandle) (free : nsKeySep ∉ ck.ns) (free' : nsKeySep ∉ ck'.ns) :
    compare (levelKey h ck) (levelKey h ck') = compare ck ck' := by
  have above : ∀ {ns : Bytes}, nsKeySep ∉ ns → ∀ b ∈ ns, compare nsKeySep b = .lt :=
    fun free b mem => sep_lt (ne_of_mem_of_not_mem mem free)
  simp only [levelKey, compare_constructLevelKey, encodeDataKey, append_assoc]
  rw [compare_append_left, compare_append_sep (above free) (above free')]
  change _ = List.compareLex compare [ck.ns, ck.key] [ck'.ns, ck'.key]
  simp [List.compareLex_cons_cons, Std.ReflCmp.compare_self]

theorem exists_encodeDataKey_sepFree (ns key : Bytes) :
    ∃ ck : CompositeKey, nsKeySep ∉ ck.ns ∧ encodeDataKey ns key = encodeDataKey ck.ns ck.key := by
  obtain ⟨before, after, split, free⟩ := eq_append_cons_of_mem (show nsKeySep ∈ ns ++ nsKeySep :: key by simp)
  refine ⟨⟨before, after⟩, free, ?_⟩
  rw [encodeDataKey, encodeDataKey, append_assoc, split, ← append_assoc]

theorem exists_key_of_between {ns startKey hi k : Bytes} (above : (compare (encodeDataKey ns startKey) k).isLE)
    (below : compare k (dataKeyPrefix ++ ns ++ hi) = .lt) (bounded : (compare hi [lastKeyIndicator]).isLE) :
    ∃ key, k = encodeDataKey ns key ∧ (compare startKey key).isLE ∧ compare (nsKeySep :: key) hi = .lt := by
  obtain ⟨rest, rfl, least, most, first⟩ := exists_append_of_between above below bounded
  cases rest with
  | nil => cases least
  | cons b key =>
    have high := UInt8.lt_iff_toNat_lt.mp (Std.compare_eq_lt.mp (first b rfl))
    have isSep : b = nsKeySep := UInt8.toNat_inj.mp (Nat.lt_one_iff.mp high)
    subst isSep
    rw [compare_cons_cons] at least
    exact ⟨key, rfl, least, most⟩

theorem iterator_entries (db : LevelDB) (h : DBHandle) (lo hi : Bytes) (bounded : (compare hi dataKeyStopper).isLE) :
    ∃ L, (db.getIterator h (dataKeyPrefix ++ lo) hi).entries = L.map (encodeEntry h) ∧ KeySorted L ∧
      ∀ ck vv, (ck, vv) ∈ L ↔ nsKeySep ∉ ck.ns ∧ db.entries[levelKey h ck]? = some (.encoded vv) ∧
        (compare (dataKeyPrefix ++ lo) (encodeDataKey ck.ns ck.key)).isLE ∧ compare (encodeDataKey ck.ns ck.key) hi = .lt := by
  have whole : ∀ key, h.constructLevelKey key = (h.dbName ++ [dbNameKeySep]) ++ key := fun key => by
    simp [constructLevelKey]
  have mem_iff : ∀ k v, (k, v) ∈ (db.getIterator h (dataKeyPrefix ++ lo) hi).entries ↔ db.entries[k]? = some v ∧
      (compare (h.constructLevelKey (dataKeyPrefix ++ lo)) k).isLE ∧ compare k (h.constructLevelKey hi) = .lt := by
    intro k v
    simp [LevelDB.getIterator, mem_toList_iff_getElem?_eq_some]
  have data : ∀ e ∈ (db.getIterator h (dataKeyPrefix ++ lo) hi).entries, ∃ ck vv, nsKeySep ∉ ck.ns ∧ e = encodeEntry h (ck, vv) := by
    rintro ⟨k, v⟩ mem
    obtain ⟨stored, above, below⟩ := (mem_iff k v).mp mem
    rw [whole] at above below
    obtain ⟨rest, rfl, least, -, first⟩ := exists_append_of_between above below bounded
    rw [← whole] at stored mem ⊢
    have typed := db.typed _ _ stored
    cases v with
    | encoded vv =>
      obtain ⟨h', ns, key, same⟩ := typed
      obtain ⟨_, rfl⟩ := constructLevelKey_inj same
      obtain ⟨ck, free, same⟩ := exists_encodeDataKey_sepFree ns key
      exact ⟨ck, vv, free, by rw [same]; rfl⟩
    | other bytes =>
      obtain ⟨h', key, same, noData⟩ := typed
      obtain ⟨_, rfl⟩ := constructLevelKey_inj same
      refine absurd ?_ noData
      cases rest with
      | nil => cases least
      | cons b rest =>
        rw [dataKeyPrefix, cons_append, compare_cons_cons, Ordering.isLE_then_iff_and] at least
        have low := UInt8.le_iff_toNat_le.mp (Std.isLE_compare.mp least.1)
        have high := UInt8.lt_iff_toNat_lt.mp (Std.compare_eq_lt.mp (first b rfl))
        have same : b = 100 := UInt8.toNat_inj.mp (Nat.le_antisymm (Nat.lt_succ_iff.mp high) low)
        exact ⟨rest, by rw [same]; rfl⟩
  have sorted : KeySorted (db.getIterator h (dataKeyPrefix ++ lo) hi).entries := (KeySorted.toList db.entries).filter _
  have : Nonempty CompositeKey := ⟨[], []⟩
  have : Nonempty VersionedValue := ⟨none, none, ⟨0, 0⟩⟩
  generalize (db.getIterator h (dataKeyPrefix ++ lo) hi).entries = entries at *
  choose! ck vv free same using data
  refine ⟨entries.map fun e => (ck e, vv e), ?_, ?_, ?_⟩
  · rw [map_map]
    exact ((map_congr_left fun e mem => (same e mem).symm).trans (map_id' _)).symm
  · refine pairwise_map.mpr (List.Pairwise.imp_of_mem (fun {a b} memA memB less => ?_) sorted)
    rw [same a memA, same b memB] at less
    exact (compare_levelKey h (free a memA) (free b memB)).symm.trans less
  · intro ck' vv'
    rw [mem_map]
    constructor
    · rintro ⟨e, mem, same'⟩
      obtain ⟨rfl, rfl⟩ := Prod.mk.inj same'
      obtain ⟨stored, above, below⟩ := (mem_iff e.1 e.2).mp mem
      rw [same e mem, encodeEntry, levelKey, compare_constructLevelKey] at above below
      rw [same e mem] at stored
      exact ⟨free e mem, stored, above, below⟩
    · rintro ⟨free', stored, above, below⟩
      have mem : encodeEntry h (ck', vv') ∈ entries := by
        refine (mem_iff _ _).mpr ⟨stored, ?_⟩
        rw [levelKey, compare_constructLevelKey, compare_constructLevelKey]
        exact ⟨above, below⟩
      obtain ⟨sameKey, sameValue⟩ := Prod.mk.inj (same _ mem)
      exact ⟨_, mem, Prod.ext (levelKey_inj free' (free _ mem) sameKey).2.symm (DbValue.encoded.inj sameValue).symm⟩

theorem getState_eq_some {db : LevelDB} {h : DBHandle} {vv : VersionedValue} :
    db.getState h ck.ns ck.key = .ok (some vv) ↔ db.entries[levelKey h ck]? = some (.encoded vv) := by
  rw [LevelDB.getState, ← levelKey]
  cases stored : db.entries[levelKey h ck]? with
  | none => simp
  | some v => cases v <;> simp [decodeValue, Functor.map, Except.map]

section

variable (db : LevelDB) (h : DBHandle) {ns : Bytes} (startKey endKey : Bytes) (pageSize : Int)

def scanEnd (endKey : Bytes) : Bytes := if endKey.isEmpty then [lastKeyIndicator] else nsKeySep :: endKey

theorem inRange_iff : inRange startKey endKey key ↔
    (compare (nsKeySep :: startKey) (nsKeySep :: key)).isLE ∧ compare (nsKeySep :: key) (scanEnd endKey) = .lt := by
  cases endKey with
  | nil =>
    have below : compare nsKeySep lastKeyIndicator = .lt := rfl
    simp [inRange, scanEnd, below]
  | cons b endKey => simp [inRange, scanEnd]

def RangeOf (ns startKey endKey : Bytes) (L : List (CompositeKey × VersionedValue)) : Prop :=
  KeySorted L ∧ ∀ ck vv, (ck, vv) ∈ L ↔
    ck.ns = ns ∧ db.getState h ck.ns ck.key = .ok (some vv) ∧ inRange startKey endKey ck.key

theorem rangeScan_entries (free : nsKeySep ∉ ns) :
    ∃ L, (getStateRangeScanIteratorWithPagination db h ns startKey endKey pageSize).dbItr.entries = L.map (encodeEntry h) ∧
      RangeOf db h ns startKey endKey L := by
  have limit : (if endKey.isEmpty then (encodeDataKey ns endKey).dropLast ++ [lastKeyIndicator] else encodeDataKey ns endKey) =
      dataKeyPrefix ++ ns ++ scanEnd endKey := by
    cases endKey <;> simp [encodeDataKey, scanEnd]
  have start : encodeDataKey ns startKey = dataKeyPrefix ++ (ns ++ nsKeySep :: startKey) := append_assoc _ _ _
  have bounded : (compare (dataKeyPrefix ++ ns ++ scanEnd endKey) dataKeyStopper).isLE := by
    rw [append_assoc, dataKeyPrefix, singleton_append, dataKeyStopper, compare_cons_cons]
    rfl
  obtain ⟨L, entries, sorted, mem⟩ := iterator_entries db h (ns ++ nsKeySep :: startKey) _ bounded
  rw [← start] at entries mem
  refine ⟨L, ?_, sorted, fun ck vv => ?_⟩
  · rw [getStateRangeScanIteratorWithPagination, limit]
    exact entries
  rw [mem, getState_eq_some, inRange_iff]
  constructor
  · rintro ⟨free', stored, above, below⟩
    have bound : (compare (scanEnd endKey) [lastKeyIndicator]).isLE := by
      cases endKey <;> rfl
    obtain ⟨key, same, least, most⟩ := exists_key_of_between above below bound
    have isKey := congrArg decodeDataKey same
    rw [decodeDataKey_encodeDataKey free', decodeDataKey_encodeDataKey free] at isKey
    obtain ⟨rfl, rfl⟩ := mk.inj isKey
    exact ⟨rfl, stored, least, most⟩
  · rintro ⟨rfl, stored, least, most⟩
    refine ⟨free, stored, ?_, ?_⟩
    · rw [encodeDataKey, encodeDataKey, compare_append_left]
      exact least
    · rw [encodeDataKey, compare_append_left]
      exact most

variable {db h startKey endKey pageSize}

theorem drain_page {s : KvScanner} {L : List (CompositeKey × VersionedValue)} (named : ∀ e ∈ L, e.1.ns = s.ns)
    (free : nsKeySep ∉ s.ns) (ahead : s.dbItr.rest = L.map (encodeEntry h))
    (limited : if s.requestedLimit > 0 then s.requestedLimit = s.totalRecordsReturned + quota else L.length ≤ quota)
    (enough : L.length < fuel) : ∃ s', s.drain fuel = .ok (L.take quota, s') ∧ s'.dbItr.rest = (L.drop quota).map (encodeEntry h) := by
  induction fuel generalizing s L quota with
  | zero => cases enough
  | succ fuel ih =>
    rw [KvScanner.drain, KvScanner.next]
    by_cases stopped : s.requestedLimit > 0 ∧ s.totalRecordsReturned ≥ s.requestedLimit
    · have none : quota = 0 := by
        rw [if_pos stopped.1] at limited
        omega
      rw [if_pos stopped, none]
      exact ⟨s, rfl, ahead⟩
    rw [if_neg stopped]
    cases L with
    | nil =>
      rw [Cursor.next_of_rest_nil ahead]
      exact ⟨_, by rw [take_nil]; rfl, by rw [drop_nil]; exact Cursor.rest_behind _⟩
    | cons e L =>
      obtain ⟨left, rfl⟩ : ∃ left, quota = left + 1 := by
        refine Nat.exists_eq_add_one.mpr ?_
        split at limited
        · omega
        · simp only [length_cons] at limited
          omega
      obtain ⟨next, after⟩ := Cursor.next_of_rest_cons ahead
      rw [next]
      have limited' : if s.requestedLimit > 0 then s.requestedLimit = s.totalRecordsReturned + 1 + left else L.length ≤ left := by
        split at limited
        · push_cast at limited
          split <;> omega
        · rename_i unlimited
          rw [if_neg unlimited]
          simpa using limited
      obtain ⟨s', drained, remaining⟩ := ih (s := { s with
          dbItr.pos := s.dbItr.pos + 1, totalRecordsReturned := s.totalRecordsReturned + 1 })
        (fun e mem => named e (by simp [mem])) free after limited' (by simpa using enough)
      refine ⟨s', ?_, remaining⟩
      obtain ⟨⟨ns, key⟩, vv⟩ := e
      obtain rfl : ns = s.ns := named _ mem_cons_self
      have decoded : decodeDataKey (retrieveAppKey (levelKey h ⟨s.ns, key⟩)) = ⟨s.ns, key⟩ := decode_levelKey h free
      simp only [encodeEntry, decodeValue, decoded, bind, Except.bind, drained]
      rfl

theorem scanPage_eq (free : nsKeySep ∉ ns) {L : List (CompositeKey × VersionedValue)} (range : RangeOf db h ns startKey endKey L)
    (limited : if pageSize > 0 then pageSize = quota else L.length ≤ quota) :
    scanPage db h ns startKey endKey pageSize = .ok (L.take quota, ((L.drop quota).head?.map fun e => e.1.key).getD []) := by
  obtain ⟨L', entries, range'⟩ := rangeScan_entries db h startKey endKey pageSize free
  obtain rfl : L = L' := range.1.eq_of_mem_iff range'.1 fun e => (range.2 e.1 e.2).trans (range'.2 e.1 e.2).symm
  rw [scanPage]
  generalize scanner : getStateRangeScanIteratorWithPagination db h ns startKey endKey pageSize = s at entries
  have isScanner : s.ns = ns ∧ s.requestedLimit = pageSize ∧ s.totalRecordsReturned = 0 ∧ s.dbItr.pos = 0 := by
    rw [← scanner]
    exact ⟨rfl, rfl, rfl, rfl⟩
  obtain ⟨rfl, rfl, started, first⟩ := isScanner
  have ahead : s.dbItr.rest = L.map (encodeEntry h) := by rw [Cursor.rest, first, entries, drop_zero]
  obtain ⟨s', drained, remaining⟩ := drain_page (fun e mem => ((range.2 e.1 e.2).mp mem).1) free ahead
    (by rw [started, zero_add]; exact limited) (show L.length < s.dbItr.entries.length + 1 by simp [entries])
  simp only [drained, bind, Except.bind, KvScanner.getBookmarkAndClose]
  cases left : L.drop quota with
  | nil =>
    rw [left] at remaining
    rw [Cursor.next_of_rest_nil remaining]
    rfl
  | cons e rest =>
    rw [left] at remaining
    have inside := ((range.2 e.1 e.2).mp (mem_of_mem_drop (left ▸ mem_cons_self))).1
    rw [(Cursor.next_of_rest_cons remaining).1]
    simp only [encodeEntry, decode_levelKey h (show nsKeySep ∉ e.1.ns from inside ▸ free)]
    rfl

theorem RangeOf.from_bookmark (range : RangeOf db h ns startKey endKey (xs ++ e :: ys)) : RangeOf db h ns e.1.key endKey (e :: ys) := by
  obtain ⟨sorted, mem⟩ := range
  obtain ⟨_, after, before⟩ := pairwise_append.mp sorted
  obtain ⟨⟨_, bookmark⟩, _⟩ := e
  obtain ⟨rfl, _, start⟩ := (mem _ _).mp (mem_append_right xs mem_cons_self)
  unfold RangeOf
  simp only [inRange, Bool.and_eq_true] at mem start ⊢
  refine ⟨after, ?_⟩
  rintro ⟨ns, key⟩ vv
  constructor
  · intro inside
    obtain ⟨rfl, stored, _, below⟩ := (mem _ _).mp (mem_append_right xs inside)
    refine ⟨rfl, stored, ?_, below⟩
    rcases mem_cons.mp inside with same | later
    · cases same
      simp [Std.ReflCmp.compare_self]
    · have less := (pairwise_cons.mp after).1 _ later
      rw [compare_sameNs] at less
      rw [less]
      rfl
  · rintro ⟨rfl, stored, above, below⟩
    have inside := (mem ⟨_, key⟩ vv).mpr ⟨rfl, stored, isLE_trans start.1 above, below⟩
    refine (mem_append.mp inside).resolve_left fun earlier => ?_
    have less := before _ earlier _ mem_cons_self
    rw [compare_sameNs] at less
    simp [gt_of_lt less] at above

theorem RangeOf.bookmark_ne_nil (range : RangeOf db h ns startKey endKey (xs ++ e :: ys)) (later : xs ≠ []) : e.1.key ≠ [] := by
  obtain ⟨sorted, mem⟩ := range
  obtain ⟨x, xs, rfl⟩ := exists_cons_of_ne_nil later
  have less := (pairwise_append.mp sorted).2.2 x (by simp) e (by simp)
  obtain ⟨⟨ns1, key1⟩, _⟩ := x
  obtain ⟨⟨ns2, key2⟩, _⟩ := e
  obtain rfl : ns1 = ns := ((mem _ _).mp (mem_append_left _ mem_cons_self)).1
  obtain rfl : ns2 = ns1 := ((mem _ _).mp (mem_append_right _ mem_cons_self)).1
  rw [compare_sameNs] at less
  rintro rfl
  cases key1 <;> cases less

variable {L : List (CompositeKey × VersionedValue)} (free : nsKeySep ∉ ns) (positive : 1 ≤ pageSize)

include free positive

theorem scanPage_cases (range : RangeOf db h ns startKey endKey L) : scanPage db h ns startKey endKey pageSize = .ok (L, []) ∨
      ∃ page e rest, L = page ++ e :: rest ∧ page ≠ [] ∧ scanPage db h ns startKey endKey pageSize = .ok (page, e.1.key) := by
  have limited : if pageSize > 0 then pageSize = pageSize.toNat else L.length ≤ pageSize.toNat := by
    rw [if_pos (by omega)]
    omega
  have scanned := scanPage_eq free range limited
  cases left : L.drop pageSize.toNat with
  | nil =>
    rw [left, take_of_length_le (drop_eq_nil_iff.mp left)] at scanned
    exact .inl scanned
  | cons e rest =>
    rw [left] at scanned
    refine .inr ⟨L.take pageSize.toNat, e, rest, by rw [← left, take_append_drop], ?_, scanned⟩
    have some : L ≠ [] := by
      rintro rfl
      simp at left
    rw [ne_eq, take_eq_nil_iff, not_or]
    exact ⟨by omega, some⟩

theorem pages_flatten {pages : List (List (CompositeKey × VersionedValue))}
    (scanned : Pages db h ns endKey pageSize startKey pages) (range : RangeOf db h ns startKey endKey L) : pages.flatten = L := by
  induction scanned generalizing L with
  | last scanned =>
    rcases scanPage_cases free positive range with whole | ⟨page, e, rest, rfl, some, more⟩
    · cases scanned.symm.trans whole
      simp
    · obtain ⟨_, empty⟩ := Prod.mk.inj (ok.inj (scanned.symm.trans more))
      exact absurd empty.symm (range.bookmark_ne_nil some)
  | more scanned go _ ih =>
    rcases scanPage_cases free positive range with whole | ⟨page, e, rest, rfl, some, more⟩
    · cases scanned.symm.trans whole
      exact absurd rfl go
    · obtain ⟨rfl, rfl⟩ := Prod.mk.inj (ok.inj (scanned.symm.trans more))
      rw [flatten_cons, ih range.from_bookmark]

theorem exists_pages (range : RangeOf db h ns startKey endKey L) : ∃ pages, Pages db h ns endKey pageSize startKey pages := by
  induction size : L.length using Nat.strong_induction_on generalizing startKey L with
  | _ n ih =>
    rcases scanPage_cases free positive range with whole | ⟨page, e, rest, rfl, some, more⟩
    · exact ⟨_, .last whole⟩
    · obtain ⟨pages, later⟩ := ih _ (by
        have := length_pos_iff.mpr some
        simp at size ⊢
        omega) range.from_bookmark rfl
      exact ⟨_, .more more (range.bookmark_ne_nil some) later⟩

omit free positive in
/-- Scans that go on at the bookmark give the pages of the whole scan, which are the keys of the namespace in the range. -/
theorem pages_partition (db : LevelDB) (h : DBHandle) (ns startKey endKey : Bytes) (pageSize : Int)
    (free : nsKeySep ∉ ns) (positive : 1 ≤ pageSize) :
    ∃ scan, scanPage db h ns startKey endKey 0 = .ok (scan, []) ∧ KeySorted scan ∧
      (∀ ck vv, (ck, vv) ∈ scan ↔ ck.ns = ns ∧ db.getState h ck.ns ck.key = .ok (some vv) ∧ inRange startKey endKey ck.key) ∧
      (∀ (h' : DBHandle) (ns' key key' : Bytes), nsKeySep ∉ ns' →
        h'.constructLevelKey (encodeDataKey ns' key') = h.constructLevelKey (encodeDataKey ns key) →
          h'.dbName = h.dbName ∧ ns' = ns ∧ key' = key) ∧
      (∃ pages, Pages db h ns endKey pageSize startKey pages) ∧
      ∀ pages, Pages db h ns endKey pageSize startKey pages → pages.flatten = scan := by
  obtain ⟨L, _, range⟩ := rangeScan_entries db h startKey endKey 0 free
  have whole : scanPage db h ns startKey endKey 0 = .ok (L.take L.length, ((L.drop L.length).head?.map fun e => e.1.key).getD []) :=
    scanPage_eq free range (by simp)
  rw [take_length, drop_length] at whole
  refine ⟨L, whole, range.1, range.2, ?_, exists_pages free positive range, fun pages scanned => pages_flatten free positive scanned range⟩
  intro h' ns' key key' free' same
  have separate : h'.dbName = h.dbName ∧ (⟨ns', key'⟩ : CompositeKey) = ⟨ns, key⟩ := levelKey_inj free' free same
  exact ⟨separate.1, mk.inj separate.2⟩

end

def channel : DBHandle := ⟨[99], by decide⟩

def seven : VersionedValue := ⟨some [7], none, ⟨1, 0⟩⟩

def threeKeys : LevelDB where
  entries := ((∅ : Map Bytes DbValue).insert (levelKey channel ⟨[1], [5]⟩) (.encoded seven)).insert
    (levelKey channel ⟨[1], [6]⟩) (.encoded seven) |>.insert (levelKey channel ⟨[1, 1], [5]⟩) (.encoded seven)
  typed k v stored := by
    simp only [get_insert] at stored
    split_ifs at stored with same same same
    all_goals first | (cases stored; exact ⟨channel, _, _, same.symm⟩) | simp at stored

theorem threeKeys_paged : ∃ pages, Pages threeKeys channel [1] [] 1 [] pages ∧
    pages.flatten = [(⟨[1], [5]⟩, seven), (⟨[1], [6]⟩, seven)] := by
  obtain ⟨scan, whole, _, _, _, ⟨pages, scanned⟩, all⟩ := pages_partition threeKeys channel [1] [] [] 1 (by decide) (by decide)
  have evaluated : scanPage threeKeys channel [1] [] [] 0 = .ok ([(⟨[1], [5]⟩, seven), (⟨[1], [6]⟩, seven)], []) := by
    decide +kernel
  obtain ⟨rfl, _⟩ := Prod.mk.inj (ok.inj (whole.symm.trans evaluated))
  exact ⟨pages, scanned, all pages scanned⟩

def starter (h : DBHandle) (ns : Bytes) : Bytes := h.constructLevelKey (dataKeyStarterForNextNamespace ns)

theorem levelKey_lt_starter (h : DBHandle) (ck : CompositeKey) : compare (levelKey h ck) (starter h ck.ns) = .lt := by
  rw [levelKey, starter, compare_constructLevelKey, encodeDataKey, dataKeyStarterForNextNamespace, compare_append_left, compare_cons_cons]
  rfl

theorem sameNs_of_between {h : DBHandle} (free : nsKeySep ∉ ck.ns) (free' : nsKeySep ∉ ck'.ns)
    (above : compare (levelKey h ck) (levelKey h ck') = .lt) (below : compare (levelKey h ck') (starter h ck.ns) = .lt) : ck'.ns = ck.ns := by
  rw [levelKey, levelKey, compare_constructLevelKey] at above
  rw [levelKey, starter, compare_constructLevelKey] at below
  obtain ⟨key, same, -⟩ := exists_key_of_between (by rw [above]; rfl) below (by rfl)
  have isKey := congrArg decodeDataKey same
  rw [decodeDataKey_encodeDataKey free', decodeDataKey_encodeDataKey free] at isKey
  exact (mk.inj isKey).1

theorem filter_skipped {h : DBHandle} {pre rest : List (CompositeKey × VersionedValue)} {toSkip : Bytes → Bool}
    (sorted : KeySorted (pre ++ e :: rest)) (free : ∀ x ∈ pre ++ e :: rest, nsKeySep ∉ x.1.ns) (skipped : toSkip e.1.ns = true) :
    (pre ++ e :: rest).filter (fun x => (compare (starter h e.1.ns) (levelKey h x.1)).isLE) =
        rest.filter (fun x => (compare (starter h e.1.ns) (levelKey h x.1)).isLE) ∧
      (rest.filter fun x => (compare (starter h e.1.ns) (levelKey h x.1)).isLE).filter (fun x => !toSkip x.1.ns) =
        rest.filter fun x => !toSkip x.1.ns := by
  have freeE := free e (by simp)
  obtain ⟨_, after, before⟩ := pairwise_append.mp sorted
  have below := levelKey_lt_starter h e.1
  constructor
  · rw [filter_append, filter_cons_of_neg (by simp [gt_of_lt below])]
    refine append_left_eq_self.mpr (filter_eq_nil_iff.mpr fun x mem => ?_)
    have less := before x mem e (by simp)
    rw [← compare_levelKey h (free x (by simp [mem])) freeE] at less
    simp [gt_of_lt (lt_trans less below)]
  · rw [filter_filter]
    refine filter_congr fun x mem => ?_
    have less := (pairwise_cons.mp after).1 x mem
    have freeX := free x (by simp [mem])
    rw [← compare_levelKey h freeE freeX] at less
    have flipped : compare (starter h e.1.ns) (levelKey h x.1) = (compare (levelKey h x.1) (starter h e.1.ns)).swap :=
      eq_swap
    cases order : compare (levelKey h x.1) (starter h e.1.ns) with
    | lt => simp [sameNs_of_between freeE freeX less order, skipped]
    | eq | gt => simp [flipped, order]

theorem nextWith_spec {L : List (CompositeKey × VersionedValue)}
    (entries : s.dbItr.entries = L.map (encodeEntry s.db)) (sorted : KeySorted L) (free : ∀ e ∈ L, nsKeySep ∉ e.1.ns)
    (enough : (L.drop s.dbItr.pos).length < fuel) : ∃ pos, s.nextWith fuel =
        .ok (((L.drop s.dbItr.pos).filter fun e => !s.toSkip e.1.ns).head?, { s with dbItr.pos := pos }) ∧
      (L.drop pos).filter (fun e => !s.toSkip e.1.ns) = ((L.drop s.dbItr.pos).filter fun e => !s.toSkip e.1.ns).tail := by
  induction fuel generalizing s with
  | zero => cases enough
  | succ fuel ih =>
    have ahead : s.dbItr.rest = (L.drop s.dbItr.pos).map (encodeEntry s.db) := by
      rw [Cursor.rest, entries, map_drop]
    cases left : L.drop s.dbItr.pos with
    | nil =>
      rw [left] at ahead
      refine ⟨s.dbItr.entries.length + 1, ?_, ?_⟩
      · rw [FullDBScanner.nextWith, Cursor.next_of_rest_nil ahead]
        rfl
      · rw [entries, length_map, drop_eq_nil_of_le (Nat.le_succ _)]
        rfl
    | cons e rest =>
      rw [left] at ahead enough
      have split : L = L.take s.dbItr.pos ++ e :: rest := by rw [← left, take_append_drop]
      have mem : e ∈ L := by
        rw [split]
        simp
      rw [FullDBScanner.nextWith, (Cursor.next_of_rest_cons ahead).1]
      simp only [encodeEntry, decode_levelKey s.db (free e mem), decodeValue]
      cases skipped : s.toSkip e.1.ns with
      | false =>
        refine ⟨s.dbItr.pos + 1, by simp [skipped]; rfl, ?_⟩
        rw [← drop_drop, left]
        simp [skipped]
      | true =>
        have mono : L.Pairwise fun a b => (compare (starter s.db e.1.ns) (levelKey s.db a.1)).isLE →
            (compare (starter s.db e.1.ns) (levelKey s.db b.1)).isLE := by
          refine List.Pairwise.imp_of_mem (fun {a b} memA memB less reached => ?_) sorted
          rw [← compare_levelKey s.db (free a memA) (free b memB)] at less
          exact isLE_trans reached (by simp [less])
        obtain ⟨passed, kept⟩ := filter_skipped (h := s.db) (split ▸ sorted) (split ▸ free) skipped
        have moved : L.drop (L.findIdx fun x => (compare (starter s.db e.1.ns) (levelKey s.db x.1)).isLE) =
            rest.filter fun x => (compare (starter s.db e.1.ns) (levelKey s.db x.1)).isLE := by
          rw [drop_findIdx mono, ← passed, ← split]
        have isPos : ((({ s.dbItr with pos := s.dbItr.pos + 1 }).seek (starter s.db e.1.ns)).prev).pos =
            L.findIdx fun x => (compare (starter s.db e.1.ns) (levelKey s.db x.1)).isLE := by
          simp only [Cursor.seek, Cursor.prev, Nat.add_sub_cancel, entries, findIdx_map]
          rfl
        obtain ⟨pos, result, tail⟩ := ih (s := { s with
          dbItr := (({ s.dbItr with pos := s.dbItr.pos + 1 }).seek (starter s.db e.1.ns)).prev }) entries (by
            rw [isPos, moved]
            have := length_filter_le (fun x => (compare (starter s.db e.1.ns) (levelKey s.db x.1)).isLE) rest
            simp only [length_cons] at enough
            omega)
        rw [isPos, moved, kept] at result tail
        refine ⟨pos, ?_, ?_⟩
        · rw [filter_cons_of_neg (by simp [skipped])]
          exact result
        · rw [filter_cons_of_neg (by simp [skipped])]
          exact tail

theorem fullScan_drain {L : List (CompositeKey × VersionedValue)}
    (entries : s.dbItr.entries = L.map (encodeEntry s.db)) (sorted : KeySorted L) (free : ∀ e ∈ L, nsKeySep ∉ e.1.ns)
    (enough : ((L.drop s.dbItr.pos).filter fun e => !s.toSkip e.1.ns).length < fuel) :
    s.drain fuel = .ok ((L.drop s.dbItr.pos).filter fun e => !s.toSkip e.1.ns) := by
  induction fuel generalizing s with
  | zero => cases enough
  | succ fuel ih =>
    obtain ⟨pos, result, tail⟩ := nextWith_spec entries sorted free
      (show (L.drop s.dbItr.pos).length < s.dbItr.entries.length + 1 by simp [entries])
    rw [FullDBScanner.drain, FullDBScanner.next, result]
    cases kept : (L.drop s.dbItr.pos).filter fun e => !s.toSkip e.1.ns with
    | nil => rfl
    | cons e rest =>
      rw [kept] at tail enough
      have later := ih (s := { s with dbItr.pos := pos }) entries (by
        rw [show (L.drop pos).filter _ = rest from tail]
        simpa using enough)
      rw [show (L.drop pos).filter _ = rest from tail] at later
      simp only [head?_cons, bind, Except.bind, later]
      rfl

/-- The full scan returns the entries of the channel in the namespaces that are not skipped. -/
theorem fullScan_exact (db : LevelDB) (h : DBHandle) (skipNamespace : Bytes → Bool) :
    ∃ kvs, (newFullDBScanner db h skipNamespace).results = .ok kvs ∧ KeySorted kvs ∧ ∀ ck vv, (ck, vv) ∈ kvs ↔
        skipNamespace ck.ns = false ∧ nsKeySep ∉ ck.ns ∧ db.getState h ck.ns ck.key = .ok (some vv) := by
  obtain ⟨L, entries, sorted, mem⟩ := iterator_entries db h [] dataKeyStopper (by rfl)
  have scanned : (newFullDBScanner db h skipNamespace).results = .ok (L.filter fun e => !skipNamespace e.1.ns) := by
    refine fullScan_drain entries sorted (fun e inside => ((mem e.1 e.2).mp inside).1) ?_
    have size : (newFullDBScanner db h skipNamespace).dbItr.entries.length = L.length :=
      (congrArg List.length entries).trans (length_map _)
    rw [size]
    exact Nat.lt_succ_of_le (length_filter_le _ _)
  refine ⟨_, scanned, sorted.filter _, fun ck vv => ?_⟩
  have inside : (compare (dataKeyPrefix ++ []) (encodeDataKey ck.ns ck.key)).isLE ∧
      compare (encodeDataKey ck.ns ck.key) dataKeyStopper = .lt := by
    constructor
    · rw [encodeDataKey, append_assoc, compare_append_left]
      cases ck.ns ++ nsKeySep :: ck.key <;> rfl
    · rw [encodeDataKey, dataKeyPrefix, append_assoc, singleton_append, dataKeyStopper, compare_cons_cons]
      rfl
  rw [mem_filter, mem, getState_eq_some, and_iff_left inside]
  simp [and_comm]

end Fabric.Proof.Stateleveldb
