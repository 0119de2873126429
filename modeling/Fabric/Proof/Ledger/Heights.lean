import Fabric.Ledger.Statedb

/-! # The order of heights -/

namespace Fabric.Proof.Ledger

open Fabric.Ledger

variable {h h1 : Height} {a b : Nat}

def lexKey (h : Height) : Nat ×ₗ Nat := toLex (h.blockNum, h.txNum)

def lexCompare (h h1 : Height) : Int :=
  if lexKey h < lexKey h1 then -1 else if h = h1 then 0 else 1

def Fits (h : Height) : Prop := h.blockNum < 2 ^ 64 ∧ h.txNum < 2 ^ 64

/-- The difference of the numbers keeps its sign as an `int`. -/
def Near (a b : Nat) : Prop := a < b + 2 ^ 63 ∧ b ≤ a + 2 ^ 63

/-- The numbers that decide the comparison are near each other. -/
def Comparable (h h1 : Height) : Prop :=
  Near h.blockNum h1.blockNum ∧ (h.blockNum = h1.blockNum → Near h.txNum h1.txNum)

theorem near_iff (fitsA : a < 2 ^ 64) (fitsB : b < 2 ^ 64) : Near a b ↔ (0 < uint64Diff a b ↔ b < a) := by
  unfold uint64Diff Near
  rw [Int.bmod_def]
  omega

@[simp] theorem uint64Diff_self (a : Nat) : uint64Diff a a = 0 := by
  simp [uint64Diff]

theorem compare_eq_lexCompare (fits : Fits h) (fits1 : Fits h1) : h.compare h1 = lexCompare h h1 ↔ Comparable h h1 := by
  obtain ⟨block, tx⟩ := h
  obtain ⟨block1, tx1⟩ := h1
  unfold Comparable
  rw [near_iff fits.1 fits1.1, near_iff fits.2 fits1.2]
  simp only [Height.compare, lexCompare, lexKey, Prod.Lex.toLex_lt_toLex, Height.mk.injEq]
  rcases Nat.lt_trichotomy block block1 with less | rfl | more
  · simp [less, less.ne, less.not_gt]
  · rcases Nat.lt_trichotomy tx tx1 with less | rfl | more
    · simp [less, less.ne, less.not_gt]
    · simp
    · simp [more, more.ne', more.not_gt]
  · simp [more, more.ne', more.not_gt]

theorem lexKey_injective : Function.Injective lexKey := by
  rintro ⟨block, tx⟩ ⟨block1, tx1⟩ same
  simpa [lexKey] using same

theorem lexCompare_nonpos : lexCompare h h1 ≤ 0 ↔ lexKey h ≤ lexKey h1 := by
  rw [le_iff_lt_or_eq (a := lexKey h), lexKey_injective.eq_iff]
  unfold lexCompare
  split_ifs <;> simp_all

/-- The heights are ordered by block number and then by transaction number exactly where they are comparable. -/
theorem heights_linearlyOrdered (heights : Set Height) (fits : ∀ h ∈ heights, Fits h) :
    (∀ h ∈ heights, ∀ h1 ∈ heights, h.compare h1 = lexCompare h h1 ↔ Comparable h h1) ∧
    ((∀ h ∈ heights, ∀ h1 ∈ heights, Comparable h h1) →
      IsLinearOrder heights fun h h1 => h.1.compare h1.1 ≤ 0) := by
  have agrees := fun h mem h1 mem1 => compare_eq_lexCompare (fits h mem) (fits h1 mem1)
  refine ⟨agrees, fun comparable => ?_⟩
  have ordered : ∀ h h1 : heights, h.1.compare h1.1 ≤ 0 ↔ lexKey h.1 ≤ lexKey h1.1 := by
    intro h h1
    rw [(agrees _ h.2 _ h1.2).mpr (comparable _ h.2 _ h1.2)]
    exact lexCompare_nonpos
  exact {
    refl h := (ordered h h).mpr le_rfl
    trans h h1 h2 first second := (ordered h h2).mpr (((ordered h h1).mp first).trans ((ordered h1 h2).mp second))
    antisymm h h1 first second := by
      have same := ((ordered h h1).mp first).antisymm ((ordered h1 h).mp second)
      exact Subtype.ext (lexKey_injective same)
    total h h1 := by
      rw [ordered, ordered]
      exact le_total _ _ }

theorem firstBlocks_linearlyOrdered :
    IsLinearOrder ({⟨3, 0⟩, ⟨3, 7⟩, ⟨4, 2⟩} : Set Height) fun h h1 => h.1.compare h1.1 ≤ 0 := by
  apply (heights_linearlyOrdered _ (by simp [Fits])).2
  simp [Comparable, Near]

/-- The height at which the entries of a block expire comes before the transactions of the block. -/
theorem maxTxNum_below : Height.compare ⟨7, 2 ^ 64 - 1⟩ ⟨7, 3⟩ = -1 ∧ lexCompare ⟨7, 2 ^ 64 - 1⟩ ⟨7, 3⟩ = 1 := by
  decide

end Fabric.Proof.Ledger
