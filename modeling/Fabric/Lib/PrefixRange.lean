import Mathlib

/-! # Prefixes as ranges of keys -/

namespace Fabric.Lib

open List

variable {α : Type} [Ord α] {xs ys start k : List α} {last : α}

def prefixRange (start : List α) (last : α) (k : List α) : Bool :=
  (compare start k).isLE && compare k (start ++ [last]) == .lt

theorem compare_cons_cons (x y : α) (xs ys : List α) : compare (x :: xs) (y :: ys) = (compare x y).then (compare xs ys) :=
  List.compareLex_cons_cons

variable [Std.LawfulEqOrd α]

theorem compare_append_left (start xs ys : List α) : compare (start ++ xs) (start ++ ys) = compare xs ys := by
  induction start with
  | nil => rfl
  | cons x start ih =>
    have same : compare x x = .eq := Std.ReflCmp.compare_self
    rw [cons_append, cons_append, compare_cons_cons, same, ih]
    rfl

theorem prefixRange_append (start rest : List α) (last : α) :
    prefixRange start last (start ++ rest) = rest.head?.all fun c => compare c last == .lt := by
  induction start with
  | nil =>
    cases rest with
    | nil => simp [prefixRange, compare, List.compareLex_nil_nil, List.compareLex_nil_cons]
    | cons c rest =>
      have above : compare ([] : List α) (c :: rest) = .lt := List.compareLex_nil_cons
      have nothingBelow : compare rest ([] : List α) ≠ .lt := by
        cases rest with
        | nil => simp [compare, List.compareLex_nil_nil]
        | cons d rest => simp [compare, List.compareLex_cons_nil]
      simp only [prefixRange, nil_append, above, compare_cons_cons, head?_cons, Option.all_some]
      cases order : compare c last <;> simp [nothingBelow]
  | cons x start ih =>
    rw [← ih]
    simp [prefixRange]

variable [Std.TransOrd α]

theorem compare_append_sep {sep : α} {as bs : List α} (aboveX : ∀ x ∈ xs, compare sep x = .lt)
    (aboveY : ∀ y ∈ ys, compare sep y = .lt) : compare (xs ++ sep :: as) (ys ++ sep :: bs) = (compare xs ys).then (compare as bs) := by
  induction xs generalizing ys with
  | nil =>
    cases ys with
    | nil =>
      have same : compare sep sep = .eq := Std.ReflCmp.compare_self
      rw [nil_append, nil_append, compare_cons_cons, same]
      rfl
    | cons y ys =>
      rw [nil_append, cons_append, compare_cons_cons, aboveY y (by simp)]
      rfl
  | cons x xs ih =>
    cases ys with
    | nil =>
      rw [nil_append, cons_append, compare_cons_cons, Std.OrientedCmp.gt_of_lt (aboveX x (by simp))]
      rfl
    | cons y ys =>
      rw [cons_append, cons_append, compare_cons_cons, compare_cons_cons, Ordering.then_assoc,
        ih (fun x mem => aboveX x (by simp [mem])) (fun y mem => aboveY y (by simp [mem]))]

theorem isPrefix_of_prefixRange (inRange : prefixRange start last k = true) : start <+: k := by
  induction start generalizing k with
  | nil => exact nil_prefix
  | cons x start ih =>
    simp only [prefixRange, Bool.and_eq_true, beq_iff_eq] at inRange
    cases k with
    | nil => simp [compare, List.compareLex_cons_nil] at inRange
    | cons y k =>
      simp only [cons_append, compare_cons_cons, Ordering.then_eq_lt, Ordering.isLE_then_iff_or] at inRange
      obtain ⟨low, high⟩ := inRange
      -- The first symbols agree, since each bound allows a difference in one direction only.
      have same : x = y := by
        cases low with
        | inr both => exact Std.LawfulEqCmp.eq_of_compare both.1
        | inl less =>
          cases high with
          | inr both => exact (Std.LawfulEqCmp.eq_of_compare both.1).symm
          | inl greater =>
            rw [Std.OrientedOrd.eq_swap, greater] at less
            cases less
      subst same
      have below : prefixRange start last k = true := by
        simp only [Std.ReflCmp.compare_self, reduceCtorEq, false_or, true_and] at low high
        simp [prefixRange, low, high]
      exact cons_prefix_cons.mpr ⟨rfl, ih below⟩

theorem prefixRange_iff : prefixRange start last k = true ↔ ∃ rest, k = start ++ rest ∧ ∀ c ∈ rest.head?, compare c last = .lt := by
  constructor
  · intro inRange
    obtain ⟨rest, rfl⟩ := isPrefix_of_prefixRange inRange
    rw [prefixRange_append] at inRange
    exact ⟨rest, rfl, by simpa [Option.all_eq_true] using inRange⟩
  · intro continues
    obtain ⟨rest, rfl, below⟩ := continues
    rw [prefixRange_append]
    simpa [Option.all_eq_true] using below

theorem exists_append_of_between {lo hi : List α} (above : (compare (start ++ lo) k).isLE)
    (below : compare k (start ++ hi) = .lt) (bounded : (compare hi [last]).isLE) :
    ∃ rest, k = start ++ rest ∧ (compare lo rest).isLE ∧ compare rest hi = .lt ∧ ∀ c ∈ rest.head?, compare c last = .lt := by
  have least : (compare start (start ++ lo)).isLE := by
    have split := compare_append_left start [] lo
    rw [append_nil] at split
    rw [split]
    cases lo <;> rfl
  have inside : prefixRange start last k := by
    simp only [prefixRange, Bool.and_eq_true, beq_iff_eq]
    refine ⟨Std.TransCmp.isLE_trans least above, ?_⟩
    rw [← compare_append_left start] at bounded
    exact Std.TransCmp.lt_of_lt_of_isLE below bounded
  obtain ⟨rest, rfl, first⟩ := prefixRange_iff.mp inside
  rw [compare_append_left] at above below
  exact ⟨rest, rfl, above, below, first⟩

omit [Std.TransOrd α] in
theorem compare_append_of_lt (less : compare xs ys = .lt) (apart : ¬ xs <+: ys) (r s : List α) : compare (xs ++ r) (ys ++ s) = .lt := by
  induction xs generalizing ys with
  | nil => exact absurd nil_prefix apart
  | cons x xs ih =>
    cases ys with
    | nil => cases less
    | cons y ys =>
      rw [compare_cons_cons, Ordering.then_eq_lt] at less
      rw [cons_append, cons_append, compare_cons_cons, Ordering.then_eq_lt]
      refine less.imp_right fun same => ⟨same.1, ih same.2 fun inner => apart ?_⟩
      exact cons_prefix_cons.mpr ⟨Std.LawfulEqCmp.eq_of_compare same.1, inner⟩

end Fabric.Lib
