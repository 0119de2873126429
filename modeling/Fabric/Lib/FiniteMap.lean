import Fabric.Lib.Result

/-! # Finite maps with delete markers -/

namespace Fabric.Lib

open Option Std.OrientedCmp
open List hiding ext_getElem? getElem?_eq_none getElem?_insert getElem?_map mem_keys mem_of_mem_erase mem_union_iff

abbrev Map (K V : Type) [Ord K] := Std.ExtTreeMap K V compare

export Std.ExtTreeMap (ext_getElem? getElem?_empty getElem?_eq_none getElem?_erase getElem?_insert getElem?_map
  getElem?_union mem_erase mem_iff_isSome_getElem? mem_insert mem_keys mem_of_mem_erase
  mem_toList_iff_getElem?_eq_some mem_union_iff)

theorem lawfulEqOrd_of_injective {α β : Type} [Ord β] [Std.LawfulEqOrd β] {f : α → β}
    (injective : Function.Injective f) : Std.LawfulEqCmp (compareOn f) where
  compare_self := by simp [compareOn]
  eq_of_compare same := injective (Std.LawfulEqCmp.eq_of_compare same)

section

variable {K V : Type} [Ord K] [Std.TransOrd K]

theorem mem_iff_get {m : Map K V} {k : K} : k ∈ m ↔ ∃ v, m[k]? = some v := by
  rw [mem_iff_isSome_getElem?, isSome_iff_exists]

theorem mem_of_get {m : Map K V} {k : K} {v : V} (found : m[k]? = some v) : k ∈ m :=
  mem_iff_get.mpr ⟨v, found⟩

variable [Std.LawfulEqOrd K]

theorem mem_of_mem_toList {m : Map K V} {e : K × V} (mem : e ∈ m.toList) : e.1 ∈ m :=
  mem_of_get (mem_toList_iff_getElem?_eq_some.mp mem)

theorem get_insert [DecidableEq K] (m : Map K V) (k a : K) (v : V) : (m.insert k v)[a]? = if k = a then some v else m[a]? := by
  simp [getElem?_insert, Std.LawfulEqCmp.compare_eq_iff_eq]

theorem get_erase [DecidableEq K] (m : Map K V) (k a : K) : (m.erase k)[a]? = if k = a then none else m[a]? := by
  simp [getElem?_erase, Std.LawfulEqCmp.compare_eq_iff_eq]

theorem mem_insertKey (m : Map K V) (k a : K) (v : V) : a ∈ m.insert k v ↔ k = a ∨ a ∈ m := by
  simp [mem_insert, Std.LawfulEqCmp.compare_eq_iff_eq]

variable (isDelete : V → Bool)

def overlay (base batch : Map K V) : Map K V :=
  batch.foldl (fun m k v => if isDelete v then m.erase k else m.insert k v) base

def overlayEntry (pending stored : Option V) : Option V :=
  match pending with
  | none => stored
  | some v => if isDelete v then none else some v

@[simp] theorem overlayEntry_none (stored : Option V) : overlayEntry isDelete none stored = stored := rfl

@[simp] theorem overlayEntry_some (v : V) (stored : Option V) :
    overlayEntry isDelete (some v) stored = if isDelete v then none else some v := rfl

private def writeEntry (m : Map K V) (e : K × V) : Map K V := if isDelete e.2 then m.erase e.1 else m.insert e.1 e.2

private theorem get_writeEntry [DecidableEq K] (m : Map K V) (e : K × V) (k : K) : (writeEntry isDelete m e)[k]? =
      if e.1 = k then (if isDelete e.2 then none else some e.2) else m[k]? := by
  unfold writeEntry
  split <;> simp [getElem?_insert, getElem?_erase]

private theorem get_foldl_of_notMem [DecidableEq K] (entries : List (K × V)) (m : Map K V)
    (k : K) (absent : ∀ e ∈ entries, e.1 ≠ k) : (entries.foldl (writeEntry isDelete) m)[k]? = m[k]? := by
  induction entries generalizing m with
  | nil => rfl
  | cons e rest ih =>
    rw [foldl_cons, ih _ fun x mem => absent x (mem_cons_of_mem _ mem), get_writeEntry, if_neg (absent e mem_cons_self)]

private theorem get_foldl_of_mem [DecidableEq K] (entries : List (K × V)) (m : Map K V)
    (k : K) (v : V) (distinct : entries.Pairwise fun a b => a.1 ≠ b.1) (mem : (k, v) ∈ entries) :
    (entries.foldl (writeEntry isDelete) m)[k]? = if isDelete v then none else some v := by
  induction entries generalizing m with
  | nil => simp at mem
  | cons e rest ih =>
    obtain ⟨fresh, distinct⟩ := pairwise_cons.mp distinct
    rcases mem_cons.mp mem with rfl | later
    · rw [foldl_cons, get_foldl_of_notMem _ _ _ _ fun x hx => (fresh x hx).symm, get_writeEntry, if_pos rfl]
    · exact ih _ distinct later

theorem get_overlay (base batch : Map K V) (k : K) : (overlay isDelete base batch)[k]? = overlayEntry isDelete batch[k]? base[k]? := by
  classical
  have listed : overlay isDelete base batch = batch.toList.foldl (writeEntry isDelete) base :=
    Std.ExtTreeMap.foldl_eq_foldl_toList
  rw [listed]
  cases found : batch[k]? with
  | none =>
    refine get_foldl_of_notMem _ _ _ _ fun e mem same => ?_
    have present := mem_toList_iff_getElem?_eq_some.mp mem
    simp [same, found] at present
  | some v =>
    refine get_foldl_of_mem _ _ _ _ _ ?_ (mem_toList_iff_getElem?_eq_some.mpr found)
    exact Std.ExtTreeMap.distinct_keys_toList.imp fun different same => different (by simp [same])

theorem overlay_union (base first second : Map K V) :
    overlay isDelete base (first ∪ second) = overlay isDelete (overlay isDelete base first) second := by
  refine ext_getElem? fun k => ?_
  simp only [get_overlay, getElem?_union]
  cases second[k]? <;> simp

end

section

variable {A B K V : Type} [Ord K] [Std.TransOrd K] [Std.LawfulEqOrd K]

/-- Inserts the entries whose key satisfies `p`, under the key `g` and with the value `w` of the entry. -/
def insertEach (p : A → Bool) (g : A → K) (w : B → V) (entries : List (A × B)) (m : Map K V) : Map K V :=
  entries.foldl (fun m e => if p e.1 then m.insert (g e.1) (w e.2) else m) m

variable {p : A → Bool} {g : A → K} {w : B → V}

theorem get_insertEach_of_none {entries : List (A × B)} {m : Map K V} {k : K}
    (absent : ∀ e ∈ entries, p e.1 → g e.1 ≠ k) : (insertEach p g w entries m)[k]? = m[k]? := by
  induction entries generalizing m with
  | nil => rfl
  | cons e rest ih =>
    obtain ⟨here, later⟩ := forall_mem_cons.mp absent
    rw [insertEach, foldl_cons]
    refine (ih later).trans ?_
    split
    · rename_i taken
      simp [getElem?_insert, here taken]
    · rfl

private theorem get_insertEach_of_mem [Ord A] [Std.LawfulEqOrd A]
    {entries : List (A × B)} {m : Map K V} {a : A} {b : B} (taken : p a) (only : ∀ a', p a' → g a' = g a → a' = a)
    (distinct : entries.Pairwise fun x y => ¬ compare x.1 y.1 = .eq) (mem : (a, b) ∈ entries) :
    (insertEach p g w entries m)[g a]? = some (w b) := by
  induction entries generalizing m with
  | nil => simp at mem
  | cons e rest ih =>
    obtain ⟨fresh, distinct⟩ := pairwise_cons.mp distinct
    rw [insertEach, foldl_cons]
    rcases mem_cons.mp mem with rfl | later
    · refine (get_insertEach_of_none fun x inRest takenX same => fresh x inRest ?_).trans ?_
      · simp [only x.1 takenX same]
      · simp [taken]
    · exact ih distinct later

theorem get_insertEach [Ord A] [Std.TransOrd A] [Std.LawfulEqOrd A]
    (ops : Map A B) (m : Map K V) {a : A} (taken : p a) (only : ∀ a', p a' → g a' = g a → a' = a) :
    (insertEach p g w ops.toList m)[g a]? = (ops[a]?.map w).or m[g a]? := by
  cases found : ops[a]? with
  | none =>
    refine get_insertEach_of_none fun e mem takenE same => ?_
    have present := mem_toList_iff_getElem?_eq_some.mp mem
    simp [only e.1 takenE same, found] at present
  | some b =>
    exact get_insertEach_of_mem taken only Std.ExtTreeMap.distinct_keys_toList
      (mem_toList_iff_getElem?_eq_some.mpr found)

end

section

variable {K V : Type} [DecidableEq K]

def lastFor (k : K) (entries : List (K × V)) : Option V :=
  ((entries.filter (·.1 = k)).map (·.2)).getLast?

theorem lastFor_append (k : K) (xs ys : List (K × V)) : lastFor k (xs ++ ys) = (lastFor k ys).or (lastFor k xs) := by
  simp [lastFor, getLast?_append]

theorem lastFor_concat (k : K) (xs : List (K × V)) (e : K × V) : lastFor k (xs ++ [e]) = if e.1 = k then some e.2 else lastFor k xs := by
  rw [lastFor_append]
  by_cases same : e.1 = k <;> simp [lastFor, same]

variable {entries : List (K × V)} {k : K} {v : V}

theorem mem_of_lastFor (found : lastFor k entries = some v) : (k, v) ∈ entries := by
  obtain ⟨⟨k', v'⟩, mem, rfl⟩ := List.mem_map.mp (mem_of_getLast? found)
  obtain ⟨listed, same⟩ := mem_filter.mp mem
  obtain rfl : k' = k := by simpa using same
  exact listed

theorem lastFor_eq_none : lastFor k entries = none ↔ ∀ v, (k, v) ∉ entries := by
  simp only [lastFor, getLast?_eq_none_iff, map_eq_nil_iff, filter_eq_nil_iff, decide_eq_true_eq]
  constructor
  · intro absent v mem
    exact absent _ mem rfl
  · rintro absent ⟨k', v⟩ mem rfl
    exact absent v mem

theorem lastFor_of_mem (distinct : (entries.map (·.1)).Nodup) (mem : (k, v) ∈ entries) : lastFor k entries = some v := by
  obtain ⟨v', found⟩ : ∃ v', lastFor k entries = some v' := ne_none_iff_exists'.mp fun none => lastFor_eq_none.mp none v mem
  have same := (inj_on_of_nodup_map distinct) (mem_of_lastFor found) mem rfl
  rw [found, (Prod.mk.inj same).2]

theorem lastFor_eq_some_iff (functional : ∀ v v', (k, v) ∈ entries → (k, v') ∈ entries → v = v') :
    lastFor k entries = some v ↔ (k, v) ∈ entries := by
  constructor
  · exact mem_of_lastFor
  · intro mem
    cases found : lastFor k entries with
    | none => exact absurd mem (lastFor_eq_none.mp found v)
    | some v' => rw [functional v' v (mem_of_lastFor found) mem]

end

section

variable {K V : Type} [Ord K] [Std.TransOrd K]

def putAll (m : Map K V) (entries : List (K × V)) : Map K V :=
  entries.foldl (fun m e => m.insert e.1 e.2) m

def eraseAll (m : Map K V) (keys : List K) : Map K V :=
  keys.foldl (fun m k => m.erase k) m

theorem putAll_append (m : Map K V) (xs ys : List (K × V)) : putAll m (xs ++ ys) = putAll (putAll m xs) ys :=
  foldl_append

variable [Std.LawfulEqOrd K]

theorem nodup_keys (m : Map K V) : (m.toList.map (·.1)).Nodup := by
  refine pairwise_map.mpr (Std.ExtTreeMap.distinct_keys_toList.imp ?_)
  intro a b different same
  simp [same] at different

variable [DecidableEq K]

theorem lastFor_toList (k : K) (m : Map K V) : lastFor k m.toList = m[k]? := by
  cases found : m[k]? with
  | some v => exact lastFor_of_mem (nodup_keys m) (mem_toList_iff_getElem?_eq_some.mpr found)
  | none =>
    refine lastFor_eq_none.mpr fun v mem => ?_
    simp [mem_toList_iff_getElem?_eq_some.mp mem] at found

theorem get_putAll (m : Map K V) (entries : List (K × V)) (k : K) : (putAll m entries)[k]? = (lastFor k entries).or m[k]? := by
  induction entries using reverseRecOn with
  | nil => simp [putAll, lastFor]
  | append_singleton entries e ih =>
    have last : putAll m (entries ++ [e]) = (putAll m entries).insert e.1 e.2 := by
      simp [putAll]
    rw [last, getElem?_insert, lastFor_concat]
    by_cases same : e.1 = k
    · simp [same]
    · simp [same, ih]

theorem putAll_insert {m : Map K V} {entries : List (K × V)} {k : K} {v : V} (absent : k ∉ entries.map (·.1)) :
    (putAll m entries).insert k v = putAll (m.insert k v) entries := by
  apply ext_getElem?
  intro k'
  simp only [getElem?_insert, get_putAll, Std.LawfulEqCmp.compare_eq_iff_eq]
  by_cases same : k = k'
  · subst same
    have unlisted : lastFor k entries = none := by
      rw [lastFor_eq_none]
      intro w mem
      exact absent (List.mem_map.mpr ⟨(k, w), mem, rfl⟩)
    simp [unlisted]
  · simp [same]

theorem putAll_toList (m changes : Map K V) : putAll m changes.toList = m ∪ changes := by
  refine ext_getElem? fun k => ?_
  rw [get_putAll, lastFor_toList, getElem?_union]

theorem get_eraseAll (m : Map K V) (keys : List K) (k : K) : (eraseAll m keys)[k]? = if k ∈ keys then none else m[k]? := by
  induction keys using reverseRecOn with
  | nil => simp [eraseAll]
  | append_singleton keys a ih =>
    have last : eraseAll m (keys ++ [a]) = (eraseAll m keys).erase a := by
      simp [eraseAll]
    rw [last, getElem?_erase, ih]
    by_cases same : a = k
    · simp [same]
    · simp [same, Ne.symm same]

theorem mem_of_mem_eraseAll {m : Map K V} {keys : List K} {k : K} (mem : k ∈ eraseAll m keys) : k ∈ m := by
  rw [mem_iff_isSome_getElem?, get_eraseAll] at mem
  rw [mem_iff_isSome_getElem?]
  split at mem
  · simp at mem
  · exact mem

theorem mem_of_mem_putAll {m : Map K V} {entries : List (K × V)} {k : K} (mem : k ∈ putAll m entries) :
    k ∈ m ∨ ∃ e ∈ entries, e.1 = k := by
  rw [mem_iff_isSome_getElem?, get_putAll] at mem
  cases found : lastFor k entries with
  | none => exact .inl (mem_iff_isSome_getElem?.mpr (by simpa [found] using mem))
  | some v => exact .inr ⟨(k, v), mem_of_lastFor found, rfl⟩

theorem mem_putAll_of_mem {m : Map K V} {entries : List (K × V)} {k : K} (mem : k ∈ m) : k ∈ putAll m entries := by
  rw [mem_iff_isSome_getElem?] at mem ⊢
  rw [get_putAll]
  cases lastFor k entries <;> simp [mem]

theorem mem_putAll_of_listed {m : Map K V} {entries : List (K × V)} {e : K × V} (listed : e ∈ entries) : e.1 ∈ putAll m entries := by
  rw [mem_iff_isSome_getElem?, get_putAll]
  cases found : lastFor e.1 entries with
  | none => exact absurd listed (lastFor_eq_none.mp found e.2)
  | some v => rfl

end

section

variable {K V : Type} [Ord K] [Std.TransOrd K] [Std.LawfulEqOrd K] {m : Map K V} {keys : List K}

theorem size_le_length (listed : ∀ k ∈ m, k ∈ keys) : m.size ≤ keys.length := by
  rw [← Std.ExtTreeMap.length_keys]
  apply List.Subperm.length_le
  apply List.Nodup.subperm Std.ExtTreeMap.nodup_keys
  intro k mem
  exact listed k (mem_keys.mp mem)

theorem length_eq_size_iff (listed : ∀ k, k ∈ m ↔ k ∈ keys) : keys.length = m.size ↔ keys.Nodup := by
  have same : ∀ k, k ∈ m.keys ↔ k ∈ keys := fun k => mem_keys.trans (listed k)
  rw [← Std.ExtTreeMap.length_keys]
  constructor
  · intro equal
    have sub : m.keys.Subperm keys := List.Nodup.subperm Std.ExtTreeMap.nodup_keys fun k mem => (same k).mp mem
    exact (sub.perm_of_length_le equal.le).nodup_iff.mp Std.ExtTreeMap.nodup_keys
  · intro distinct
    exact ((perm_ext_iff_of_nodup Std.ExtTreeMap.nodup_keys distinct).mpr same).length_eq.symm

end

section

variable {K V : Type} [Ord K]

def KeySorted (entries : List (K × V)) : Prop :=
  entries.Pairwise fun a b => compare a.1 b.1 = .lt

theorem KeySorted.toList [Std.TransOrd K] (m : Map K V) : KeySorted m.toList :=
  Std.ExtTreeMap.ordered_keys_toList

theorem KeySorted.filter {entries : List (K × V)} (sorted : KeySorted entries) (p : K × V → Bool) : KeySorted (entries.filter p) :=
  List.Pairwise.filter p sorted

theorem KeySorted.head?_eq_some [Std.TransOrd K] {entries : List (K × V)} (sorted : KeySorted entries) {e : K × V}
    (mem : e ∈ entries) (least : ∀ x ∈ entries, x = e ∨ compare e.1 x.1 = .lt) : entries.head? = some e := by
  cases entries with
  | nil => cases mem
  | cons x entries =>
    rcases least x mem_cons_self with rfl | less
    · rfl
    · rcases mem_cons.mp mem with rfl | later
      · rfl
      · have greater := (pairwise_cons.mp sorted).1 e later
        have flipped : compare x.1 e.1 = (compare e.1 x.1).swap := eq_swap
        rw [flipped, less] at greater
        cases greater

theorem KeySorted.eq_of_mem_iff [Std.TransOrd K] [Std.LawfulEqOrd K] {xs ys : List (K × V)} (left : KeySorted xs) (right : KeySorted ys)
    (same : ∀ e, e ∈ xs ↔ e ∈ ys) : xs = ys := by
  have nodup : ∀ {zs : List (K × V)}, KeySorted zs → zs.Nodup := by
    intro zs sorted
    refine List.Pairwise.imp (fun {a b} less => ?_) sorted
    rintro rfl
    simp [Std.ReflCmp.compare_self] at less
  have perm : xs.Perm ys := (perm_ext_iff_of_nodup (nodup left) (nodup right)).mpr same
  refine perm.eq_of_pairwise (fun a b _ _ ab ba => ?_) left right
  have flipped : compare a.1 b.1 = (compare b.1 a.1).swap := eq_swap
  simp [ab, ba] at flipped

theorem drop_take_findIdx {α : Type} {above past : α → Bool} {xs : List α}
    (aboveMono : xs.Pairwise fun a b => above a → above b) (pastMono : xs.Pairwise fun a b => past a → past b) :
    (xs.take (xs.findIdx past)).drop (xs.findIdx above) = xs.filter fun x => above x && !past x := by
  induction xs with
  | nil => rfl
  | cons a rest ih =>
    obtain ⟨aboveHead, aboveMono⟩ := pairwise_cons.mp aboveMono
    obtain ⟨pastHead, pastMono⟩ := pairwise_cons.mp pastMono
    have tail := ih aboveMono pastMono
    by_cases isPast : past a
    · have none : ∀ x ∈ a :: rest, ¬ (above x && !past x) = true := by
        intro x mem
        rcases mem_cons.mp mem with rfl | later
        · simp [isPast]
        · simp [pastHead x later isPast]
      simp [findIdx_cons, isPast, filter_eq_nil_iff.mpr none]
    · by_cases isAbove : above a
      · have fromStart : rest.findIdx above = 0 := by
          cases rest with
          | nil => rfl
          | cons b rest => simp [findIdx_cons, aboveHead b mem_cons_self isAbove]
        simp only [fromStart, drop_zero] at tail
        simp [findIdx_cons, isPast, isAbove, tail]
      · simp [findIdx_cons, isPast, isAbove, tail]

end

variable {K V : Type} [Ord K]

def mergeStep : List (K × V) → List (K × V) → Option ((K × V) × List (K × V) × List (K × V))
  | [], [] => none
  | d :: ds, [] => some (d, ds, [])
  | [], u :: us => some (u, [], us)
  | d :: ds, u :: us =>
    match compare d.1 u.1 with
    | .lt => some (d, ds, u :: us)
    | .eq => some (u, ds, us)
    | .gt => some (u, d :: ds, us)

variable {e : K × V} {isDelete : V → Bool}

theorem mergeStep_length {ds us ds' us' : List (K × V)}
    (step : mergeStep ds us = some (e, ds', us')) : ds'.length + us'.length < ds.length + us.length := by
  revert step
  fun_cases mergeStep ds us <;> grind

def mergeScans (isDelete : V → Bool) (ds us : List (K × V)) : List (K × V) :=
  match _step : mergeStep ds us with
  | none => []
  | some (e, ds', us') => if isDelete e.2 then mergeScans isDelete ds' us' else e :: mergeScans isDelete ds' us'
termination_by ds.length + us.length
decreasing_by all_goals exact mergeStep_length _step

theorem mergeScans_of_step {ds us ds' us' : List (K × V)}
    (step : mergeStep ds us = some (e, ds', us')) : mergeScans isDelete ds us =
      if isDelete e.2 then mergeScans isDelete ds' us' else e :: mergeScans isDelete ds' us' := by
  rw [mergeScans]
  split
  · simp_all
  · simp_all

def Shown (ds us : List (K × V)) (e : K × V) : Prop :=
  e ∈ us ∨ e ∈ ds ∧ ∀ v, (e.1, v) ∉ us

variable {ds us : List (K × V)}

theorem mergeStep_eq_none : mergeStep ds us = none ↔ ds = [] ∧ us = [] := by
  fun_cases mergeStep ds us <;> simp_all

theorem mergeScans_of_finished (finished : mergeStep ds us = none) : mergeScans isDelete ds us = [] := by
  rw [mergeScans]
  split
  · rfl
  · simp_all

variable [Std.TransOrd K] [Std.LawfulEqOrd K]

omit [Std.TransOrd K] in
private theorem ne_of_lt {a b : K} (less : compare a b = .lt) : a ≠ b := by
  rintro rfl
  simp [Std.ReflCmp.compare_self] at less

theorem mergeStep_spec {ds us ds' us' : List (K × V)} (base : KeySorted ds) (batch : KeySorted us)
    (step : mergeStep ds us = some (e, ds', us')) : KeySorted ds' ∧ KeySorted us' ∧ (∀ x ∈ ds' ++ us', compare e.1 x.1 = .lt) ∧
      ∀ x, Shown ds us x ↔ x = e ∨ Shown ds' us' x := by
  unfold KeySorted at base batch ⊢
  cases ds with
  | nil =>
    cases us with
    | nil => simp [mergeStep] at step
    | cons u us =>
      obtain ⟨above, sorted⟩ := pairwise_cons.mp batch
      simp only [mergeStep, some.injEq, Prod.mk.injEq] at step
      obtain ⟨rfl, rfl, rfl⟩ := step
      exact ⟨base, sorted, by simpa using above, by simp [Shown]⟩
  | cons d ds =>
    obtain ⟨aboveD, sortedD⟩ := pairwise_cons.mp base
    cases us with
    | nil =>
      simp only [mergeStep, some.injEq, Prod.mk.injEq] at step
      obtain ⟨rfl, rfl, rfl⟩ := step
      exact ⟨sortedD, batch, by simpa using aboveD, by simp [Shown]⟩
    | cons u us =>
      obtain ⟨aboveU, sortedU⟩ := pairwise_cons.mp batch
      cases order : compare d.1 u.1 with
      | lt =>
        simp only [mergeStep, order, some.injEq, Prod.mk.injEq] at step
        obtain ⟨rfl, rfl, rfl⟩ := step
        have aboveBatch : ∀ x ∈ u :: us, compare d.1 x.1 = .lt := by
          simpa [order] using fun a b mem => Std.TransCmp.lt_trans order (aboveU (a, b) mem)
        have fresh : ∀ x ∈ u :: us, d.1 ≠ x.1 := fun x mem => ne_of_lt (aboveBatch x mem)
        refine ⟨sortedD, batch, ?_, fun x => by grind [Shown]⟩
        exact forall_mem_append.mpr ⟨aboveD, aboveBatch⟩
      | eq =>
        simp only [mergeStep, order, some.injEq, Prod.mk.injEq] at step
        obtain ⟨rfl, rfl, rfl⟩ := step
        have same : d.1 = u.1 := Std.LawfulEqCmp.eq_of_compare order
        have fresh : ∀ x ∈ ds, u.1 ≠ x.1 := fun x mem => ne_of_lt (same ▸ aboveD x mem)
        refine ⟨sortedD, sortedU, ?_, fun x => by grind [Shown]⟩
        exact forall_mem_append.mpr ⟨same ▸ aboveD, aboveU⟩
      | gt =>
        simp only [mergeStep, order, some.injEq, Prod.mk.injEq] at step
        obtain ⟨rfl, rfl, rfl⟩ := step
        have below : compare u.1 d.1 = .lt := lt_of_gt order
        have aboveBase : ∀ x ∈ d :: ds, compare u.1 x.1 = .lt := by
          simpa [below] using fun a b mem => Std.TransCmp.lt_trans below (aboveD (a, b) mem)
        have fresh : ∀ x ∈ d :: ds, u.1 ≠ x.1 := fun x mem => ne_of_lt (aboveBase x mem)
        refine ⟨base, sortedU, ?_, fun x => by grind [Shown]⟩
        exact forall_mem_append.mpr ⟨aboveBase, aboveU⟩

omit [Ord K] [Std.TransOrd K] [Std.LawfulEqOrd K] in
private theorem Shown.mem_append (shown : Shown ds us e) : e ∈ ds ++ us := by
  rcases shown with mem | mem
  · exact mem_append_right _ mem
  · exact mem_append_left _ mem.1

theorem mergeScans_spec (isDelete : V → Bool) (base : KeySorted ds) (batch : KeySorted us) :
    KeySorted (mergeScans isDelete ds us) ∧ ∀ e, e ∈ mergeScans isDelete ds us ↔ isDelete e.2 = false ∧ Shown ds us e := by
  fun_induction mergeScans isDelete ds us with
  | case1 ds us finished =>
    obtain ⟨rfl, rfl⟩ := mergeStep_eq_none.mp finished
    exact ⟨.nil, by simp [Shown]⟩
  | case2 ds us e ds' us' step marker ih =>
    obtain ⟨base, batch, above, shown⟩ := mergeStep_spec base batch step
    obtain ⟨sorted, mem⟩ := ih base batch
    refine ⟨sorted, fun x => ?_⟩
    rw [mem, shown]
    constructor
    · exact fun ⟨kept, later⟩ => ⟨kept, .inr later⟩
    · rintro ⟨kept, rfl | later⟩
      · simp [marker] at kept
      · exact ⟨kept, later⟩
  | case3 ds us e ds' us' step value ih =>
    obtain ⟨base, batch, above, shown⟩ := mergeStep_spec base batch step
    obtain ⟨sorted, mem⟩ := ih base batch
    refine ⟨pairwise_cons.mpr ⟨fun x later => above x ((mem x).mp later).2.mem_append, sorted⟩, fun x => ?_⟩
    rw [mem_cons, mem, shown]
    constructor
    · rintro (rfl | ⟨kept, later⟩)
      · exact ⟨by simpa using value, .inl rfl⟩
      · exact ⟨kept, .inr later⟩
    · rintro ⟨kept, rfl | later⟩
      · exact .inl rfl
      · exact .inr ⟨kept, later⟩

end Fabric.Lib
