import Fabric.Lib.Extract
import Fabric.Lib.Transition

/-! # Infinite executions and fairness

At every time an execution takes a step or does nothing. An agent that is not left out forever brings about what each
of its steps comes closer to. -/

namespace Fabric.Lib

open List

variable {S L : Type}

structure Execution (step : S → L → Option S) (allowed : S → L → Prop) (σ : Nat → S) (taken : Nat → Option L) : Prop where
  rest : ∀ i, taken i = none → σ (i + 1) = σ i
  move : ∀ i l, taken i = some l → allowed (σ i) l ∧ step (σ i) l = some (σ (i + 1))

/-- An agent that can always take a step from some time on takes one. -/
def WeaklyFair (step : S → L → Option S) (σ : Nat → S) (taken : Nat → Option L) (agent : L → Prop) : Prop :=
  ∀ i, (∀ j ≥ i, ∃ l, agent l ∧ (step (σ j) l).isSome) → ∃ j ≥ i, ∃ l, taken j = some l ∧ agent l

variable {step : S → L → Option S} {allowed : S → L → Prop} {σ : Nat → S} {taken : Nat → Option L}

theorem Execution.reaches (exec : Execution step allowed σ taken) (i : Nat) : ∃ ls, Reaches step allowed (σ 0) ls (σ i) := by
  induction i with
  | zero => exact ⟨[], .start⟩
  | succ i ih =>
    obtain ⟨ls, before⟩ := ih
    cases moves : taken i with
    | none =>
      rw [exec.rest i moves]
      exact ⟨ls, before⟩
    | some l =>
      obtain ⟨meets, isStep⟩ := exec.move i l moves
      exact ⟨ls ++ [l], .next before meets isStep⟩

theorem Execution.extend {ls : List L} {t u : S} {l : L} (exec : Execution step allowed σ (ls[·]?))
    (stays : ∀ i ≥ ls.length, σ i = t) (meets : allowed t l) (isStep : step t l = some u) :
    ∃ σ', (∀ i ≤ ls.length, σ' i = σ i) ∧ (∀ i ≥ (ls ++ [l]).length, σ' i = u) ∧
      Execution step allowed σ' ((ls ++ [l])[·]?) := by
  refine ⟨fun i => if i ≤ ls.length then σ i else u, fun i before => if_pos before, ?_, ⟨?_, ?_⟩⟩
  · intro i after
    rw [length_append, length_singleton] at after
    exact if_neg (by omega)
  · intro i rests
    have after := List.getElem?_eq_none_iff.mp rests
    rw [length_append, length_singleton] at after
    simp only [if_neg (by omega : ¬ i ≤ ls.length), if_neg (by omega : ¬ i + 1 ≤ ls.length)]
  · intro i l' moves
    rcases getElem?_concat_eq_some.mp moves with old | ⟨rfl, rfl⟩
    · obtain ⟨less, _⟩ := List.getElem?_eq_some_iff.mp old
      simp only [if_pos less.le, if_pos (Nat.succ_le_of_lt less)]
      exact exec.move i l' old
    · simp only [le_refl, if_true, if_neg (Nat.not_succ_le_self ls.length), stays _ le_rfl]
      exact ⟨meets, isStep⟩

theorem exists_execution_of_reaches {s t u : S} {ls ms : List L} (first : Reaches step allowed s ls t)
    (second : Reaches step allowed t ms u) :
    ∃ σ, σ 0 = s ∧ σ ls.length = t ∧ (∀ i ≥ (ls ++ ms).length, σ i = u) ∧ Execution step allowed σ ((ls ++ ms)[·]?) := by
  induction second with
  | start =>
    rw [append_nil]
    induction first with
    | start => exact ⟨fun _ => s, rfl, rfl, fun _ _ => rfl, fun _ _ => rfl, fun _ _ moves => by cases moves⟩
    | @next ls l t u before meets isStep ih =>
      obtain ⟨σ, isFirst, _, stays, exec⟩ := ih
      obtain ⟨σ', agrees, ends, exec'⟩ := exec.extend stays meets isStep
      exact ⟨σ', (agrees 0 (Nat.zero_le _)).trans isFirst, ends _ le_rfl, ends, exec'⟩
  | @next ms l u v between meets isStep ih =>
    obtain ⟨σ, isFirst, passes, stays, exec⟩ := ih
    obtain ⟨σ', agrees, ends, exec'⟩ := exec.extend stays meets isStep
    rw [← append_assoc]
    refine ⟨σ', (agrees 0 (Nat.zero_le _)).trans isFirst, (agrees _ ?_).trans passes, ends, exec'⟩
    rw [length_append]
    exact Nat.le_add_right _ _

theorem weaklyFair_of_stays {n : Nat} {t : S} {agent : L → Prop} (stays : ∀ i ≥ n, σ i = t)
    (quiet : ∀ l, agent l → step t l = none) : WeaklyFair step σ taken agent := by
  intro i enabled
  obtain ⟨l, isAgent, isSome⟩ := enabled (max i n) (le_max_left i n)
  rw [stays _ (le_max_right i n), quiet l isAgent] at isSome
  cases isSome

theorem Execution.drop {allowed' : S → L → Prop} (exec : Execution step allowed σ taken) (k : Nat)
    (stronger : ∀ i l, taken (k + i) = some l → allowed (σ (k + i)) l → allowed' (σ (k + i)) l) :
    Execution step allowed' (fun i => σ (k + i)) (fun i => taken (k + i)) where
  rest i rests := exec.rest (k + i) rests
  move i l moves := by
    obtain ⟨meets, isStep⟩ := exec.move (k + i) l moves
    exact ⟨stronger i l moves meets, isStep⟩

theorem WeaklyFair.drop {agent : L → Prop} (fair : WeaklyFair step σ taken agent) (k : Nat) :
    WeaklyFair step (fun i => σ (k + i)) (fun i => taken (k + i)) agent := by
  intro i enabled
  have enabledFrom : ∀ j ≥ k + i, ∃ l, agent l ∧ (step (σ j) l).isSome := by
    intro j later
    obtain ⟨d, rfl⟩ := Nat.exists_eq_add_of_le (Nat.le_of_add_right_le later)
    exact enabled d (by omega)
  obtain ⟨j, later, l, moves, isAgent⟩ := fair (k + i) enabledFrom
  obtain ⟨d, rfl⟩ := Nat.exists_eq_add_of_le (Nat.le_of_add_right_le later)
  exact ⟨d, by omega, l, moves, isAgent⟩

variable {agent : L → Prop} {inv : S → Prop} (waiting goal : S → Prop) (rank : S → Nat)

theorem Execution.leadsTo_of_rank (exec : Execution step allowed σ taken) (fair : WeaklyFair step σ taken agent)
    (holds : ∀ i, inv (σ i)) (enabled : ∀ s, inv s → waiting s → ∃ l, agent l ∧ (step s l).isSome)
    (nearer : ∀ s l t, inv s → waiting s → allowed s l → step s l = some t →
      goal t ∨ waiting t ∧ rank t ≤ rank s ∧ (agent l → rank t < rank s)) (i : Nat) (waits : waiting (σ i)) :
        ∃ j ≥ i, goal (σ j) := by
  induction bound : rank (σ i) using Nat.strong_induction_on generalizing i with
  | _ r ih =>
    by_contra never
    have noGoal : ∀ j ≥ i, ¬ goal (σ j) := fun j later isGoal => never ⟨j, later, isGoal⟩
    have still : ∀ d, waiting (σ (i + d)) ∧ rank (σ (i + d)) ≤ r := by
      intro d
      induction d with
      | zero => exact ⟨waits, bound.le⟩
      | succ d ihd =>
        obtain ⟨waitsD, rankD⟩ := ihd
        rw [← Nat.add_assoc]
        cases moves : taken (i + d) with
        | none =>
          rw [exec.rest _ moves]
          exact ⟨waitsD, rankD⟩
        | some l =>
          obtain ⟨meets, isStep⟩ := exec.move _ l moves
          rcases nearer _ l _ (holds _) waitsD meets isStep with isGoal | ⟨waits', rank', _⟩
          · exact absurd isGoal (noGoal _ (by omega))
          · exact ⟨waits', rank'.trans rankD⟩
    have waitsFrom : ∀ j ≥ i, waiting (σ j) ∧ rank (σ j) ≤ r := by
      intro j later
      obtain ⟨d, rfl⟩ := Nat.exists_eq_add_of_le later
      exact still d
    obtain ⟨j, later, l, moves, isAgent⟩ := fair i fun j later => enabled _ (holds j) (waitsFrom j later).1
    obtain ⟨meets, isStep⟩ := exec.move j l moves
    obtain ⟨waitsJ, rankJ⟩ := waitsFrom j later
    rcases nearer _ l _ (holds j) waitsJ meets isStep with isGoal | ⟨waits', _, rank'⟩
    · exact noGoal (j + 1) (by omega) isGoal
    · have := rank' isAgent
      obtain ⟨k, laterK, isGoal⟩ := ih (rank (σ (j + 1))) (by omega) (j + 1) waits' rfl
      exact noGoal k (by omega) isGoal

end Fabric.Lib
