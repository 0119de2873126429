import Mathlib

/-! # Runs of labelled transition systems -/

namespace Fabric.Lib

variable {S L : Type} {step : S → L → Option S} {allowed : S → L → Prop} {s t u : S} {ls ms : List L}

inductive Reaches (step : S → L → Option S) (allowed : S → L → Prop) (s : S) : List L → S → Prop where
  | start : Reaches step allowed s [] s
  | next {ls : List L} {l : L} {t u : S} (before : Reaches step allowed s ls t) (meets : allowed t l)
      (taken : step t l = some u) : Reaches step allowed s (ls ++ [l]) u

theorem Reaches.invariant (inv : List L → S → Prop) (run : Reaches step allowed s ls t) (start : inv [] s)
    (keep : ∀ ls t l u, inv ls t → allowed t l → step t l = some u → inv (ls ++ [l]) u) : inv ls t := by
  induction run with
  | start => exact start
  | next before meets taken ih => exact keep _ _ _ _ ih meets taken

theorem Reaches.append (first : Reaches step allowed s ls t) (second : Reaches step allowed t ms u) :
    Reaches step allowed s (ls ++ ms) u := by
  induction second with
  | start => simpa using first
  | next _ meets taken ih =>
    rw [← List.append_assoc]
    exact .next ih meets taken

theorem Reaches.mono {allowed' : S → L → Prop} (run : Reaches step allowed s ls t)
    (weaker : ∀ s l, allowed s l → allowed' s l) : Reaches step allowed' s ls t := by
  induction run with
  | start => exact .start
  | next _ meets taken ih => exact .next ih (weaker _ _ meets) taken

variable [∀ s l, Decidable (allowed s l)]

def checkRun (step : S → L → Option S) (allowed : S → L → Prop) [∀ s l, Decidable (allowed s l)] (s : S) :
    List L → Option S
  | [] => some s
  | l :: ls => if allowed s l then (step s l).bind fun t => checkRun step allowed t ls else none

theorem reaches_of_checkRun (run : checkRun step allowed s ls = some t) : Reaches step allowed s ls t := by
  induction ls generalizing s with
  | nil =>
    obtain rfl : s = t := by simpa [checkRun] using run
    exact .start
  | cons l ls ih =>
    simp only [checkRun] at run
    split at run
    case isTrue meets =>
      obtain ⟨r, taken, rest⟩ := Option.bind_eq_some_iff.mp run
      exact Reaches.append (.next .start meets taken) (ih rest)
    case isFalse => cases run

theorem exists_of_checkRun {p : S → Bool} (run : (checkRun step allowed s ls).any p = true) :
    ∃ t, Reaches step allowed s ls t ∧ p t = true := by
  obtain ⟨t, reached, holds⟩ := (Option.any_eq_true ..).mp run
  exact ⟨t, reaches_of_checkRun reached, holds⟩

/-- A run with a property of its end that is found by evaluation. -/
theorem exists_reaches {q : S → Prop} (p : S → Prop) [DecidablePred p]
    (run : (checkRun step allowed s ls).any (fun t => decide (p t)) = true) (holds : ∀ t, Reaches step allowed s ls t → p t → q t) :
    ∃ t, Reaches step allowed s ls t ∧ q t := by
  obtain ⟨t, reached, here⟩ := exists_of_checkRun run
  exact ⟨t, reached, holds t reached (of_decide_eq_true here)⟩

end Fabric.Lib
