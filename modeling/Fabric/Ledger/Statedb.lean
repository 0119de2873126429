import Fabric.Lib.FiniteMap

/-! # Versioned state: heights, keys, update batches and the state database -/

namespace Fabric.Ledger

open Lib Option
open List hiding ext_getElem?

/-- A Go string or byte slice; strings are compared byte by byte. -/
abbrev Bytes := List UInt8

instance : LawfulBEq Bytes := inferInstance

/-- The height of a transaction in the chain. Both fields are `uint64`. -/
structure Height where
  blockNum : Nat
  txNum : Nat
  deriving DecidableEq

/-- The difference of two `uint64` read as an `int`, as the source computes it. -/
def uint64Diff (a b : Nat) : Int :=
  ((a : Int) - b).bmod (2 ^ 64)

def Height.compare (h h1 : Height) : Int :=
  if h.blockNum ≠ h1.blockNum then (if uint64Diff h.blockNum h1.blockNum > 0 then 1 else -1)
  else if h.txNum ≠ h1.txNum then (if uint64Diff h.txNum h1.txNum > 0 then 1 else -1)
  else 0

def areSame : Option Height → Option Height → Bool
  | none, none => true
  | none, some _ => false
  | some _, none => false
  | some h1, some h2 => h1.compare h2 == 0

theorem Height.compare_eq_zero {h h1 : Height} : h.compare h1 = 0 ↔ h = h1 := by
  obtain ⟨block, tx⟩ := h
  obtain ⟨block1, tx1⟩ := h1
  unfold Height.compare
  split_ifs <;> simp_all

@[simp] theorem areSame_eq (h1 h2 : Option Height) : areSame h1 h2 = decide (h1 = h2) := by
  cases h1 <;> cases h2 <;> simp [areSame, Height.compare_eq_zero, Bool.beq_eq_decide_eq]

structure CompositeKey where
  ns : Bytes
  key : Bytes
  deriving DecidableEq

/-- A key of a collection: of the private state under its own name, of the hashed state under its hash. -/
structure CollKey where
  ns : Bytes
  coll : Bytes
  key : Bytes
  deriving DecidableEq

def CompositeKey.fields (k : CompositeKey) : List Bytes := [k.ns, k.key]

def CollKey.fields (k : CollKey) : List Bytes := [k.ns, k.coll, k.key]

instance : Ord CompositeKey := ⟨compareOn CompositeKey.fields⟩

instance : Ord CollKey := ⟨compareOn CollKey.fields⟩

instance : Std.TransOrd CompositeKey := inferInstanceAs (Std.TransCmp (compareOn CompositeKey.fields))

instance : Std.TransOrd CollKey := inferInstanceAs (Std.TransCmp (compareOn CollKey.fields))

instance : Std.LawfulEqOrd CompositeKey :=
  lawfulEqOrd_of_injective (f := CompositeKey.fields) (by rintro ⟨_, _⟩ ⟨_, _⟩ same; simpa [CompositeKey.fields] using same)

instance : Std.LawfulEqOrd CollKey :=
  lawfulEqOrd_of_injective (f := CollKey.fields) (by rintro ⟨_, _, _⟩ ⟨_, _, _⟩ same; simpa [CollKey.fields] using same)

theorem CompositeKey.compare_sameNs (ns key key1 : Bytes) : Ord.compare (⟨ns, key⟩ : CompositeKey) ⟨ns, key1⟩ = Ord.compare key key1 := by
  change List.compareLex Ord.compare [ns, key] [ns, key1] = _
  simp [List.compareLex_cons_cons, Std.ReflCmp.compare_self]

/-- A value with its metadata and version. In an update batch no value means that the key is deleted. -/
structure VersionedValue where
  value : Option Bytes
  metadata : Option Bytes
  version : Height
  deriving DecidableEq

def VersionedValue.isDelete (vv : VersionedValue) : Bool := vv.value.isNone

abbrev VersionedKV := Bytes × VersionedValue

abbrev Updates (K : Type) [Ord K] := Map K VersionedValue

section

variable {K : Type} [Ord K] [Std.TransOrd K]

def Updates.putValAndMetadata (u : Updates K) (k : K) (value metadata : Option Bytes) (version : Height) :
    Result (Updates K) :=
  if value.isNone then .error (.panic "Nil value not allowed. Instead call 'Delete' function")
  else .ok (u.insert k ⟨value, metadata, version⟩)

def Updates.delete (u : Updates K) (k : K) (version : Height) : Updates K :=
  u.insert k ⟨none, none, version⟩

end

variable (entries : Map CompositeKey VersionedValue)

def nsEntries (ns : Bytes) : List VersionedKV :=
  entries.toList.filterMap fun e => if e.1.ns = ns then some (e.1.key, e.2) else none

/-- The keys from `startKey` on and before `endKey`; an empty `endKey` is no bound. -/
def inRange (startKey endKey key : Bytes) : Bool :=
  (compare startKey key).isLE && (endKey.isEmpty || compare key endKey == .lt)

/-- `sort.SearchStrings` on sorted keys: the index of the first key that is not below `x`. -/
def searchStrings (keys : List Bytes) (x : Bytes) : Nat :=
  keys.findIdx fun k => (compare x k).isLE

structure UpdateBatch where
  containsPostOrderWrites : Bool
  updates : Updates CompositeKey

def UpdateBatch.new : UpdateBatch := ⟨false, ∅⟩

def UpdateBatch.getRangeScanIterator (batch : UpdateBatch) (ns startKey endKey : Bytes) : List VersionedKV :=
  let sorted := nsEntries batch.updates ns
  let sortedKeys := sorted.map (·.1)
  let nextIndex := if startKey.isEmpty then 0 else searchStrings sortedKeys startKey
  let lastIndex := if endKey.isEmpty then sorted.length else searchStrings sortedKeys endKey
  (sorted.take lastIndex).drop nextIndex

variable {vv : VersionedValue}

theorem mem_nsEntries {entries : Map CompositeKey VersionedValue} {ns key : Bytes} :
    (key, vv) ∈ nsEntries entries ns ↔ entries[(⟨ns, key⟩ : CompositeKey)]? = some vv := by
  rw [← mem_toList_iff_getElem?_eq_some, nsEntries, mem_filterMap]
  constructor
  · rintro ⟨⟨⟨ns1, key1⟩, vv1⟩, mem, taken⟩
    by_cases same : ns1 = ns <;> simp_all
  · intro mem
    exact ⟨_, mem, by simp⟩

theorem nsEntries_sorted (ns : Bytes) : KeySorted (nsEntries entries ns) := by
  refine List.Pairwise.filterMap _ ?_ (KeySorted.toList entries)
  rintro ⟨⟨ns1, key1⟩, vv1⟩ ⟨⟨ns2, key2⟩, vv2⟩ less a left b right
  simp only [ite_none_right_eq_some, some.injEq] at left right
  obtain ⟨rfl, rfl⟩ := left
  obtain ⟨rfl, rfl⟩ := right
  simpa [CompositeKey.compare_sameNs] using less

private theorem isLE_mono {sorted : List VersionedKV} (ordered : KeySorted sorted) (x : Bytes) :
    sorted.Pairwise fun a b => (compare x a.1).isLE → (compare x b.1).isLE :=
  ordered.imp fun less below => Std.TransCmp.isLE_trans below (by simp [less])

private theorem searchStrings_map (sorted : List VersionedKV) (x : Bytes) :
    searchStrings (sorted.map (·.1)) x = sorted.findIdx fun kv => (compare x kv.1).isLE := by
  unfold searchStrings
  rw [findIdx_map]
  rfl

private theorem nil_isLE (key : Bytes) : (compare [] key).isLE := by
  cases key <;> rfl

private theorem searchStrings_nil (sorted : List VersionedKV) : searchStrings (sorted.map (·.1)) [] = 0 := by
  cases sorted with
  | nil => rfl
  | cons kv rest => simp [searchStrings, findIdx_cons, nil_isLE]

theorem take_drop_searchStrings {sorted : List VersionedKV} (ordered : KeySorted sorted) (startKey endKey : Bytes) :
    (sorted.take (if endKey.isEmpty then sorted.length else searchStrings (sorted.map (·.1)) endKey)).drop
        (if startKey.isEmpty then 0 else searchStrings (sorted.map (·.1)) startKey) =
      sorted.filter fun kv => inRange startKey endKey kv.1 := by
  have start : (if startKey.isEmpty then 0 else searchStrings (sorted.map (·.1)) startKey) =
      searchStrings (sorted.map (·.1)) startKey := by
    cases startKey with
    | nil => exact (searchStrings_nil sorted).symm
    | cons b rest => rfl
  rw [start, searchStrings_map]
  cases endKey with
  | nil =>
    have whole : sorted.findIdx (fun _ => false) = sorted.length := by
      simp
    have constant : sorted.Pairwise fun _ _ => false = true → false = true := ordered.imp fun _ past => past
    have window := drop_take_findIdx (isLE_mono ordered startKey) constant
    simpa [whole, inRange] using window
  | cons b rest =>
    have window := drop_take_findIdx (isLE_mono ordered startKey) (isLE_mono ordered (b :: rest))
    simp only [isEmpty_cons, Bool.false_eq_true, if_false, searchStrings_map, window]
    refine filter_congr fun kv _ => ?_
    simp only [inRange, isEmpty_cons, Bool.false_or]
    have flipped : compare kv.1 (b :: rest) = (compare (b :: rest) kv.1).swap := Std.OrientedCmp.eq_swap
    rw [flipped]
    cases compare (b :: rest) kv.1 <;> rfl

theorem UpdateBatch.getRangeScanIterator_eq (batch : UpdateBatch) (ns startKey endKey : Bytes) :
    batch.getRangeScanIterator ns startKey endKey = (nsEntries batch.updates ns).filter fun kv => inRange startKey endKey kv.1 :=
  take_drop_searchStrings (nsEntries_sorted _ _) startKey endKey

/-- The stored state: every stored key has a value. -/
structure State (K : Type) [Ord K] [Std.TransOrd K] where
  entries : Map K VersionedValue
  live : ∀ (k : K) (vv : VersionedValue), entries[k]? = some vv → vv.isDelete = false

section

variable {K : Type} [Ord K] [Std.TransOrd K] [Std.LawfulEqOrd K]

def State.empty : State K := ⟨∅, by simp⟩

variable (s : State K)

def State.getState (k : K) : Option VersionedValue := s.entries[k]?

def State.getVersion (k : K) : Option Height := (s.getState k).map (·.version)

def State.applyUpdates (batch : Updates K) : State K where
  entries := overlay VersionedValue.isDelete s.entries batch
  live k vv found := by
    rw [get_overlay] at found
    cases pending : batch[k]? with
    | none => exact s.live k vv (by simpa [pending] using found)
    | some u =>
      simp only [pending, overlayEntry_some, ite_none_left_eq_some, some.injEq] at found
      obtain ⟨kept, rfl⟩ := found
      simpa using kept

theorem State.getState_applyUpdates (batch : Updates K) (k : K) :
    (s.applyUpdates batch).getState k = overlayEntry VersionedValue.isDelete batch[k]? (s.getState k) :=
  get_overlay _ _ _ _

theorem State.getState_applyUpdates_cases {s : State K} {batch : Updates K} {k : K} (found : (s.applyUpdates batch).getState k = some vv) :
    batch[k]? = some vv ∧ vv.isDelete = false ∨ batch[k]? = none ∧ s.getState k = some vv := by
  rw [State.getState_applyUpdates] at found
  cases pending : batch[k]? with
  | none => exact .inr ⟨rfl, by simpa [pending] using found⟩
  | some u =>
    simp only [pending, overlayEntry_some, ite_none_left_eq_some, some.injEq] at found
    obtain ⟨kept, rfl⟩ := found
    exact .inl ⟨rfl, by simpa using kept⟩

theorem State.ext_getState {s t : State K} (same : ∀ k, s.getState k = t.getState k) : s = t := by
  cases s
  cases t
  simp only [State.mk.injEq]
  exact ext_getElem? same

end

def State.getStateRangeScanIterator (s : State CompositeKey) (ns startKey endKey : Bytes) : List VersionedKV :=
  (nsEntries s.entries ns).filter fun kv => inRange startKey endKey kv.1

theorem State.mem_getStateRangeScanIterator {s : State CompositeKey} {ns startKey endKey key : Bytes} :
    (key, vv) ∈ s.getStateRangeScanIterator ns startKey endKey ↔
      s.getState ⟨ns, key⟩ = some vv ∧ inRange startKey endKey key := by
  simp [State.getStateRangeScanIterator, mem_nsEntries, State.getState]

theorem State.getStateRangeScanIterator_sorted (s : State CompositeKey) (ns startKey endKey : Bytes) :
    KeySorted (s.getStateRangeScanIterator ns startKey endKey) :=
  (nsEntries_sorted _ _).filter _

end Fabric.Ledger
