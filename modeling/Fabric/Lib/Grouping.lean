import Fabric.Lib.FiniteMap

/-! # Lists under keys -/

namespace Fabric.Lib

open List

variable {K A X : Type} (groups : List (K × List A))

def ungroup : List (K × A) := groups.flatMap fun (k, as) => as.map fun a => (k, a)

theorem filter_ungroup [DecidableEq K] (k : K) :
    ((ungroup groups).filter (·.1 = k)).map Prod.snd = ((groups.filter (·.1 = k)).map Prod.snd).flatten := by
  induction groups with
  | nil => rfl
  | cons g groups ih =>
    have isCons : ungroup (g :: groups) = g.2.map (fun a => (g.1, a)) ++ ungroup groups := rfl
    rw [isCons, filter_append, map_append, ih]
    by_cases same : g.1 = k
    · simp [same, filter_map, Function.comp_def]
    · simp [same, filter_map, Function.comp_def]

variable [Ord K] [Std.TransOrd K] (m : Map K (List A))

def appendAt (k : K) (a : A) : Map K (List A) := m.insert k (m.getD k [] ++ [a])

def groupInto (key : X → K) (value : X → A) (xs : List X) (m : Map K (List A)) : Map K (List A) :=
  xs.foldl (fun m x => appendAt m (key x) (value x)) m

variable [Std.LawfulEqOrd K]

theorem filter_toList [DecidableEq K] (m : Map K A) (k : K) : m.toList.filter (·.1 = k) = m[k]?.toList.map fun a => (k, a) := by
  cases found : m[k]? with
  | none =>
    apply filter_eq_nil_iff.mpr
    intro e mem isKey
    have present := mem_toList_iff_getElem?_eq_some.mp mem
    rw [of_decide_eq_true isKey, found] at present
    cases present
  | some a =>
    have mem : (k, a) ∈ m.toList := mem_toList_iff_getElem?_eq_some.mpr found
    have nodup := nodup_keys m
    obtain ⟨before, after, split⟩ := append_of_mem mem
    rw [split, map_append, map_cons, nodup_middle, nodup_cons, ← map_append] at nodup
    have others : ∀ e ∈ before ++ after, e.1 ≠ k := by
      intro e mem isKey
      exact nodup.1 (mem_map.mpr ⟨e, mem, isKey⟩)
    have noneBefore : before.filter (·.1 = k) = [] :=
      filter_eq_nil_iff.mpr fun e mem => by simpa using others e (mem_append_left _ mem)
    have noneAfter : after.filter (·.1 = k) = [] :=
      filter_eq_nil_iff.mpr fun e mem => by simpa using others e (mem_append_right _ mem)
    rw [split, filter_append, filter_cons_of_pos (by simp), noneBefore, noneAfter]
    rfl

theorem filter_ungroup_toList [DecidableEq K] (k : K) : ((ungroup m.toList).filter (·.1 = k)).map Prod.snd = m.getD k [] := by
  rw [filter_ungroup, filter_toList, Std.ExtTreeMap.getD_eq_getD_getElem?]
  cases m[k]? with
  | none => rfl
  | some as => simp

theorem getD_appendAt [DecidableEq K] (k k' : K) (a : A) : (appendAt m k a).getD k' [] = m.getD k' [] ++ if k = k' then [a] else [] := by
  rw [appendAt, Std.ExtTreeMap.getD_insert]
  simp only [Std.LawfulEqCmp.compare_eq_iff_eq]
  split
  · rename_i same
    rw [same]
  · rw [append_nil]

theorem getD_groupInto [DecidableEq K] (key : X → K) (value : X → A) (xs : List X) (m : Map K (List A)) (k : K) :
    (groupInto key value xs m).getD k [] = m.getD k [] ++ (xs.filter (key · = k)).map value := by
  induction xs generalizing m with
  | nil => simp [groupInto]
  | cons x xs ih =>
    rw [groupInto, foldl_cons]
    refine (ih _).trans ?_
    rw [getD_appendAt, append_assoc]
    by_cases same : key x = k
    · simp [same]
    · simp [same]

theorem mem_groupInto {key : X → K} {value : X → A} {xs : List X} {m : Map K (List A)} {k : K} :
    k ∈ groupInto key value xs m ↔ k ∈ m ∨ ∃ x ∈ xs, key x = k := by
  induction xs generalizing m with
  | nil => simp [groupInto]
  | cons x xs ih =>
    rw [groupInto, foldl_cons]
    refine ih.trans ?_
    rw [appendAt, mem_insertKey]
    simp only [mem_cons, exists_eq_or_imp]
    tauto

end Fabric.Lib
