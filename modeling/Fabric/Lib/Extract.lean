import Mathlib.Data.List.Infix
import Mathlib.Data.List.Nodup

/-! # Positions of the elements that a list yields -/

namespace Fabric.Lib

open List

variable {α β : Type} {f : α → Option β} {xs ys : List α} {i j : Nat} {a x : α} {b : β}

theorem getElem?_of_isPrefix (part : xs <+: ys) (found : xs[i]? = some a) : ys[i]? = some a := by
  obtain ⟨rest, rfl⟩ := part
  obtain ⟨inside, _⟩ := List.getElem?_eq_some_iff.mp found
  rw [getElem?_append_left inside]
  exact found

theorem concat_isPrefix (part : xs <+: ys) (next : ys[xs.length]? = some a) : xs ++ [a] <+: ys := by
  obtain ⟨rest, rfl⟩ := part
  rw [getElem?_append_right (Nat.le_refl _), Nat.sub_self] at next
  cases rest with
  | nil => cases next
  | cons first rest =>
    cases next
    exact ⟨rest, by simp⟩

theorem getElem?_concat_cases (found : (xs ++ [x])[i]? = some a) : i < xs.length ∧ xs[i]? = some a ∨ i = xs.length ∧ a = x := by
  rcases Nat.lt_trichotomy i xs.length with inside | rfl | outside
  · rw [getElem?_append_left inside] at found
    exact .inl ⟨inside, found⟩
  · exact .inr ⟨rfl, by simpa using found.symm⟩
  · rw [getElem?_append_right (by omega), List.getElem?_eq_none (by simp; omega)] at found
    simp at found

theorem getElem?_concat_eq_some : (xs ++ [x])[i]? = some a ↔ xs[i]? = some a ∨ i = xs.length ∧ a = x := by
  constructor
  · intro found
    exact (getElem?_concat_cases found).imp And.right id
  · rintro (inside | ⟨rfl, rfl⟩)
    · exact getElem?_of_isPrefix (prefix_append _ _) inside
    · simp

theorem getElem?_set_eq_some {old : α} (present : xs[i]? = some old) :
    (xs.set i x)[j]? = some a ↔ j = i ∧ a = x ∨ j ≠ i ∧ xs[j]? = some a := by
  have inside := (List.getElem?_eq_some_iff.mp present).1
  rw [getElem?_set]
  split
  · rename_i same
    simp [← same, inside, eq_comm]
  · rename_i other
    simp [Ne.symm other]

theorem nodup_concat (nodup : xs.Nodup) (absent : x ∉ xs) : (xs ++ [x]).Nodup := by
  rw [← concat_eq_append]
  exact List.Nodup.concat absent nodup

theorem filter_flatMap_of_unique {α β : Type} {xs : List α} {a : α} {f : α → List β} {q : β → Bool} (nodup : xs.Nodup) (mem : a ∈ xs)
    (others : ∀ x ∈ xs, x ≠ a → ∀ b ∈ f x, q b = false) : (xs.flatMap f).filter q = (f a).filter q := by
  obtain ⟨before, after, rfl⟩ := append_of_mem mem
  rw [nodup_middle, nodup_cons, mem_append, not_or] at nodup
  obtain ⟨⟨notBefore, notAfter⟩, _⟩ := nodup
  have none : ∀ ys : List α, a ∉ ys → (∀ y ∈ ys, y ∈ before ++ a :: after) → (ys.flatMap f).filter q = [] := by
    intro ys absent inside
    apply filter_eq_nil_iff.mpr
    intro b memB
    obtain ⟨y, memY, memB⟩ := mem_flatMap.mp memB
    simp [others y (inside y memY) (fun same => absent (same ▸ memY)) b memB]
  rw [flatMap_append, flatMap_cons, filter_append, filter_append, none before notBefore fun y memY => mem_append_left _ memY,
    none after notAfter fun y memY => mem_append_right _ (mem_cons_of_mem _ memY)]
  simp

def extracted (f : α → Option β) (xs : List α) (i : Nat) : Nat := ((xs.take i).filterMap f).length

theorem extracted_succ (found : xs[i]? = some a) : extracted f xs (i + 1) = extracted f xs i + (f a).toList.length := by
  unfold extracted
  rw [take_add_one, filterMap_append, found, length_append]
  cases yields : f a <;> simp [yields]

theorem extracted_mono (le : i ≤ j) : extracted f xs i ≤ extracted f xs j :=
  ((take_isPrefix_take.mpr (.inl le)).filterMap f).length_le

theorem extracted_of_isPrefix (part : xs <+: ys) (le : i ≤ xs.length) : extracted f ys i = extracted f xs i := by
  obtain ⟨rest, rfl⟩ := part
  rw [extracted, take_append_of_le_length le, extracted]

theorem filterMap_take_isPrefix : (xs.take i).filterMap f <+: xs.filterMap f := by
  apply List.IsPrefix.filterMap
  exact take_prefix i xs

theorem getElem?_extracted (found : xs[i]? = some a) (yields : f a = some b) : (xs.filterMap f)[extracted f xs i]? = some b := by
  have split : (xs.take (i + 1)).filterMap f = (xs.take i).filterMap f ++ [b] := by
    rw [take_add_one, filterMap_append, found]
    simp [yields]
  have whole : (xs.take (i + 1)).filterMap f <+: xs.filterMap f := filterMap_take_isPrefix
  rw [split] at whole
  apply getElem?_of_isPrefix whole
  rw [extracted, getElem?_append_right (Nat.le_refl _)]
  simp

end Fabric.Lib
