import Mathlib

/-! # Results of fallible code -/

namespace Fabric.Lib

open List

variable {α β : Type} {b : β} {xs : List α} {ys : List β} {σ : Type} {r : α → β → Prop}

inductive Failure where
  | error (msg : String)
  | panic (msg : String)
  deriving DecidableEq

abbrev Result (α : Type) := Except Failure α

variable {x : Result α} {f : α → Result β}

theorem Result.bind_eq_ok {ε : Type} {x : Except ε α} {f : α → Except ε β} : (x >>= f) = .ok b ↔ ∃ a, x = .ok a ∧ f a = .ok b := by
  cases x with
  | error e => simp [bind, Except.bind]
  | ok a => simp [bind, Except.bind]

theorem Result.map_eq_ok {f : α → β} : f <$> x = .ok b ↔ ∃ a, x = .ok a ∧ f a = b := by
  cases x with
  | error e => simp [Functor.map, Except.map]
  | ok a => simp [Functor.map, Except.map]

theorem Result.toOption_eq_some {ε : Type} {x : Except ε α} {a : α} : x.toOption = some a ↔ x = .ok a := by
  cases x <;> simp [Except.toOption]

theorem Result.forM_eq_ok {f : α → Result Unit} : xs.forM f = .ok () ↔ ∀ x ∈ xs, f x = .ok () := by
  induction xs with
  | nil => simp [pure, Except.pure]
  | cons x rest ih =>
    have unfolded : (x :: rest).forM f = f x >>= fun _ => rest.forM f := rfl
    rw [unfolded, Result.bind_eq_ok, forall_mem_cons, ← ih]
    constructor
    · rintro ⟨_, here, later⟩
      exact ⟨here, later⟩
    · rintro ⟨here, later⟩
      exact ⟨(), here, later⟩

theorem Result.mapM_eq_ok : xs.mapM f = .ok ys ↔ List.Forall₂ (fun x y => f x = .ok y) xs ys := by
  induction xs generalizing ys with
  | nil => simp [pure, Except.pure, eq_comm]
  | cons x rest ih =>
    rw [mapM_cons, Result.bind_eq_ok]
    constructor
    · rintro ⟨y, here, later⟩
      obtain ⟨ys', after, result⟩ := Result.bind_eq_ok.mp later
      obtain rfl := Except.ok.inj result
      exact .cons here (ih.mp after)
    · rintro (_ | ⟨here, later⟩)
      exact ⟨_, here, Result.bind_eq_ok.mpr ⟨_, ih.mpr later, rfl⟩⟩

theorem Result.mem_of_mapM_eq_error {failure : Failure} (failed : xs.mapM f = .error failure) : ∃ x ∈ xs, f x = .error failure := by
  induction xs with
  | nil => simp [pure, Except.pure] at failed
  | cons x xs ih =>
    rw [mapM_cons] at failed
    cases here : f x with
    | error e =>
      rw [here] at failed
      obtain rfl : e = failure := by simpa [bind, Except.bind] using failed
      exact ⟨x, mem_cons_self, here⟩
    | ok y =>
      rw [here] at failed
      cases rest : xs.mapM f with
      | ok ys => simp [rest, bind, Except.bind, pure, Except.pure] at failed
      | error e =>
        obtain rfl : e = failure := by simpa [rest, bind, Except.bind] using failed
        obtain ⟨z, mem, isError⟩ := ih rest
        exact ⟨z, mem_cons_of_mem _ mem, isError⟩

theorem foldlM_invariant {f : σ → α → Result σ} {s t : σ} (inv : List α → σ → Prop) (run : xs.foldlM f s = .ok t)
    (start : inv [] s) (step : ∀ done x a b, done ++ [x] <+: xs → inv done a → f a x = .ok b → inv (done ++ [x]) b) : inv xs t := by
  suffices general : ∀ rest done a, xs = done ++ rest → inv done a → rest.foldlM f a = .ok t → inv xs t from
    general xs [] s rfl start run
  intro rest
  induction rest with
  | nil =>
    intro done a split holds finished
    simp only [foldlM_nil, pure, Except.pure, Except.ok.injEq] at finished
    simpa [split, ← finished] using holds
  | cons x rest ih =>
    intro done a split holds finished
    simp only [foldlM_cons, Result.bind_eq_ok] at finished
    obtain ⟨b, taken, remaining⟩ := finished
    refine ih (done ++ [x]) b (by simp [split]) (step done x a b ?_ holds taken) remaining
    exact ⟨rest, by simp [split]⟩

theorem foldlM_isOk {f : σ → α → Result σ} (isOk : ∀ s, ∀ x ∈ xs, ∃ t, f s x = .ok t) (s : σ) : ∃ t, xs.foldlM f s = .ok t := by
  induction xs generalizing s with
  | nil => exact ⟨s, rfl⟩
  | cons x xs ih =>
    obtain ⟨t, first⟩ := isOk s x mem_cons_self
    obtain ⟨u, rest⟩ := ih (fun s y mem => isOk s y (mem_cons_of_mem _ mem)) t
    exact ⟨u, Result.bind_eq_ok.mpr ⟨t, first, rest⟩⟩

theorem exists_left_of_mem (related : List.Forall₂ r xs ys) {y : β} (mem : y ∈ ys) : ∃ x ∈ xs, r x y := by
  induction related with
  | nil => cases mem
  | cons here _ ih =>
    cases mem with
    | head => exact ⟨_, mem_cons_self, here⟩
    | tail _ later =>
      obtain ⟨x, listed, holds⟩ := ih later
      exact ⟨x, mem_cons_of_mem _ listed, holds⟩

theorem exists_right_of_mem (related : List.Forall₂ r xs ys) {x : α} (mem : x ∈ xs) : ∃ y ∈ ys, r x y := by
  obtain ⟨y, listed, holds⟩ := exists_left_of_mem related.flip mem
  exact ⟨y, listed, holds⟩

export Except (ok.inj ok.injEq)

export Result (bind_eq_ok toOption_eq_some mapM_eq_ok map_eq_ok forM_eq_ok mem_of_mapM_eq_error)

end Fabric.Lib
