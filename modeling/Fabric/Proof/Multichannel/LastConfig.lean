import Fabric.Lib.Extract
import Fabric.Multichannel.BlockWriter

/-! # The number of the last config block -/

namespace Fabric.Proof.Multichannel

open Lib Fabric.Multichannel List Option

variable {bw bw' : BlockWriter} {ledger : List Stored} {n k : Nat} {s : Stored}

def CarriesConfig (ledger : List Stored) (n : Nat) : Prop := (configSequence ledger n).isSome

/-- The latest block up to the given one that carries a config transaction, the genesis block if there is none. -/
structure IsLastConfig (ledger : List Stored) (n k : Nat) : Prop where
  below : k ≤ n
  carries : k = 0 ∨ CarriesConfig ledger k
  latest : ∀ i, k < i → i ≤ n → ¬ CarriesConfig ledger i

/-- Blocks with a config transaction are handed to `WriteConfigBlock`. -/
def NormalBlocks (_ : BlockWriter) : Step → Prop
  | .writeBlock block | .writeBlockSync block => block.content.configSequence = none
  | _ => True

instance (bw : BlockWriter) : ∀ l, Decidable (NormalBlocks bw l)
  | .writeBlock block | .writeBlockSync block => inferInstanceAs (Decidable (block.content.configSequence = none))
  | .commitBlock | .writeConfigBlock _ | .restart => inferInstanceAs (Decidable True)

structure Tracked (bw : BlockWriter) : Prop where
  numbered : ∀ (i : Nat) (s : Stored), bw.ledger[i]? = some s → s.block.number = i
  recorded : ∀ (i : Nat) (s : Stored), bw.ledger[i]? = some s → s.lastConfig = s.signedLastConfig ∧ IsLastConfig bw.ledger i s.lastConfig
  current : IsLastConfig bw.ledger (bw.ledger.length - 1) bw.lastConfigBlockNum
  inForce : configSequence bw.ledger bw.lastConfigBlockNum = some bw.sequence
  caughtUp : bw.lastConfigSeq = bw.sequence
  background : bw.committingBlock = true → bw.lastBlock.content.configSequence = none

theorem configSequence_append (inside : n < ledger.length) : configSequence (ledger ++ [s]) n = configSequence ledger n := by
  rw [configSequence, getElem?_append_left inside]
  rfl

theorem configSequence_last (ledger : List Stored) (s : Stored) :
    configSequence (ledger ++ [s]) ledger.length = s.block.content.configSequence := by
  simp [configSequence]

theorem IsLastConfig.append (last : IsLastConfig ledger n k) (inside : n < ledger.length) :
    IsLastConfig (ledger ++ [s]) n k := by
  refine ⟨last.below, last.carries.imp id fun carries => ?_, fun i after below => ?_⟩
  · rwa [CarriesConfig, configSequence_append (last.below.trans_lt inside)]
  · rw [CarriesConfig, configSequence_append (below.trans_lt inside)]
    exact last.latest i after below

section

variable (tracked : Tracked bw) {block : Block}
include tracked

theorem length_pos_of_inForce : 0 < bw.ledger.length := by
  have inForce := tracked.inForce
  cases isLedger : bw.ledger with
  | nil => simp [isLedger, configSequence] at inForce
  | cons s ledger => simp

theorem Tracked.append (number : s.block.number = bw.ledger.length)
    (same : s.lastConfig = s.signedLastConfig) (last : IsLastConfig (bw.ledger ++ [s]) bw.ledger.length s.lastConfig)
    (isLedger : bw'.ledger = bw.ledger ++ [s]) (isLast : bw'.lastConfigBlockNum = s.lastConfig)
    (inForce : configSequence (bw.ledger ++ [s]) s.lastConfig = some bw'.sequence) (caughtUp : bw'.lastConfigSeq = bw'.sequence)
    (idle : bw'.committingBlock = false) : Tracked bw' := by
  constructor
  case numbered =>
    intro i t found
    rw [isLedger, getElem?_concat_eq_some] at found
    rcases found with before | ⟨rfl, rfl⟩
    · exact tracked.numbered i t before
    · exact number
  case recorded =>
    intro i t found
    rw [isLedger, getElem?_concat_eq_some] at found
    rw [isLedger]
    rcases found with before | ⟨rfl, rfl⟩
    · obtain ⟨equal, isLastConfig⟩ := tracked.recorded i t before
      exact ⟨equal, isLastConfig.append (List.getElem?_eq_some_iff.mp before).1⟩
    · exact ⟨same, last⟩
  case current =>
    rw [isLedger, isLast, length_append]
    exact last
  case inForce => rw [isLedger, isLast, inForce]
  case caughtUp => exact caughtUp
  case background =>
    rw [idle]
    intro absurdity
    cases absurdity

theorem Tracked.commitNormal (normal : block.content.configSequence = none)
    (committed : { bw with lastBlock := block }.commitBlock = some bw') : Tracked bw' := by
  have unchanged : BlockWriter.addLastConfig { bw with lastBlock := block } = { bw with lastBlock := block } :=
    if_neg (by simp [tracked.caughtUp])
  unfold BlockWriter.commitBlock at committed
  rw [unchanged] at committed
  obtain ⟨number, result⟩ := ite_none_right_eq_some.mp committed
  obtain rfl := some.inj result
  have inside : bw.lastConfigBlockNum < bw.ledger.length := by
    have := length_pos_of_inForce tracked
    have := tracked.current.below
    omega
  refine tracked.append number rfl ⟨inside.le, ?_, ?_⟩ rfl rfl ?_ tracked.caughtUp rfl
  · refine tracked.current.carries.imp id fun carries => ?_
    rwa [CarriesConfig, configSequence_append inside]
  · intro i after below
    rcases below.lt_or_eq with before | rfl
    · rw [CarriesConfig, configSequence_append before]
      exact tracked.current.latest i after (Nat.le_sub_one_of_lt before)
    · rw [CarriesConfig, configSequence_last, normal]
      simp
  · rw [configSequence_append inside]
    exact tracked.inForce

theorem Tracked.commitConfig (isConfig : block.content = .config (bw.sequence + 1))
    (committed : { bw with sequence := bw.sequence + 1, lastBlock := block }.commitBlock = some bw') : Tracked bw' := by
  have updated : BlockWriter.addLastConfig { bw with sequence := bw.sequence + 1, lastBlock := block } = { bw with
        sequence := bw.sequence + 1, lastBlock := block, lastConfigBlockNum := block.number
        lastConfigSeq := bw.sequence + 1 } := if_pos (by simp [tracked.caughtUp])
  unfold BlockWriter.commitBlock at committed
  rw [updated] at committed
  obtain ⟨number, result⟩ := ite_none_right_eq_some.mp committed
  obtain rfl := some.inj result
  have number : block.number = bw.ledger.length := number
  have carried : configSequence (bw.ledger ++ [⟨block, block.number, block.number⟩]) block.number = some (bw.sequence + 1) := by
    rw [number, configSequence_last]
    simp [isConfig, Content.configSequence]
  refine tracked.append number rfl ⟨number.le, .inr ?_, ?_⟩ rfl rfl carried rfl rfl
  · rw [CarriesConfig, carried]
    rfl
  · intro i after below
    exact absurd (number ▸ after) (Nat.not_lt.mpr below)

theorem restart_of_tracked : ∃ bw', newBlockWriter bw.ledger = some bw' ∧ Tracked bw' := by
  have nonempty := length_pos_of_inForce tracked
  obtain ⟨tip, isTip⟩ : ∃ tip, bw.ledger[bw.ledger.length - 1]? = some tip := ⟨_, getElem?_eq_getElem (by omega)⟩
  obtain ⟨same, last⟩ := tracked.recorded _ _ isTip
  -- The tip names the same block as the writer before the restart.
  have unique : tip.lastConfig = bw.lastConfigBlockNum := by
    rcases lt_trichotomy tip.lastConfig bw.lastConfigBlockNum with less | equal | greater
    · refine absurd ?_ (last.latest _ less tracked.current.below)
      rw [CarriesConfig, tracked.inForce]
      rfl
    · exact equal
    · rcases last.carries with zero | carries
      · omega
      · exact absurd carries (tracked.current.latest _ greater last.below)
  have signed : tip.signedLastConfig = bw.lastConfigBlockNum := same.symm.trans unique
  have number : (if tip.block.number ≠ 0 then bw.lastConfigBlockNum else 0) = bw.lastConfigBlockNum := by
    rw [tracked.numbered _ _ isTip]
    split
    · rfl
    · rename_i genesis
      have := tracked.current.below
      omega
  refine ⟨{ bw with lastConfigSeq := bw.sequence, lastBlock := tip.block, committingBlock := false }, ?_, ?_⟩
  · unfold newBlockWriter
    rw [getLast?_eq_getElem?, isTip]
    simp only [bind_eq_bind, bind_some, signed, tracked.inForce, number]
  · exact { tracked with caughtUp := rfl, background := nofun }

theorem Tracked.step {l : Step} (normal : NormalBlocks bw l) (taken : bw.step l = some bw') : Tracked bw' := by
  cases l with
  | writeBlock block =>
    obtain ⟨_, result⟩ := ite_none_left_eq_some.mp taken
    obtain rfl := some.inj result
    exact { tracked with background := fun _ => normal }
  | commitBlock =>
    obtain ⟨committing, committed⟩ := ite_none_right_eq_some.mp taken
    exact tracked.commitNormal (tracked.background committing) committed
  | writeBlockSync block =>
    obtain ⟨_, committed⟩ := ite_none_left_eq_some.mp taken
    exact tracked.commitNormal normal committed
  | writeConfigBlock block =>
    obtain ⟨_, rest⟩ := ite_none_left_eq_some.mp taken
    cases content : block.content with
    | normal =>
      rw [content] at rest
      cases rest
    | ordererTransaction =>
      rw [content] at rest
      exact tracked.commitNormal (congrArg Content.configSequence content) rest
    | config sequence =>
      rw [content] at rest
      obtain ⟨next, committed⟩ := ite_none_left_eq_some.mp rest
      obtain rfl := of_not_not next
      exact tracked.commitConfig content committed
  | restart =>
    obtain ⟨_, opened, after⟩ := restart_of_tracked tracked
    obtain rfl := some.inj (opened.symm.trans taken)
    exact after

end

def genesisWriter (sequence : Nat) : BlockWriter where
  sequence
  lastConfigBlockNum := 0
  lastConfigSeq := sequence
  lastBlock := ⟨0, .config sequence⟩
  committingBlock := false
  ledger := [⟨⟨0, .config sequence⟩, 0, 0⟩]

theorem tracked_genesisWriter (sequence : Nat) : Tracked (genesisWriter sequence) := by
  have only : ∀ (i : Nat) (s : Stored), (genesisWriter sequence).ledger[i]? = some s → i = 0 ∧
    s = ⟨⟨0, .config sequence⟩, 0, 0⟩ := by
    intro i s found
    obtain ⟨inside, isS⟩ := List.getElem?_eq_some_iff.mp found
    have : i = 0 := by simpa [genesisWriter] using inside
    subst this
    exact ⟨rfl, isS.symm⟩
  have first : IsLastConfig (genesisWriter sequence).ledger 0 0 := ⟨le_rfl, .inl rfl, fun i after below => by omega⟩
  refine ⟨?_, ?_, first, rfl, rfl, fun absurdity => by cases absurdity⟩
  · intro i s found
    obtain ⟨rfl, rfl⟩ := only i s found
    rfl
  · intro i s found
    obtain ⟨rfl, rfl⟩ := only i s found
    exact ⟨rfl, first⟩

/-- In every block both numbers are that of the latest config block, and the writer can be opened again. -/
theorem lastConfig_tracked {sequence : Nat} {steps : List Step}
    (run : Reaches BlockWriter.step NormalBlocks (genesisWriter sequence) steps bw) :
    (∀ (i : Nat) (s : Stored), bw.ledger[i]? = some s →
      s.block.number = i ∧ s.lastConfig = s.signedLastConfig ∧ IsLastConfig bw.ledger i s.lastConfig) ∧
      (bw.step .restart).isSome := by
  have tracked : Tracked bw := run.invariant (fun _ bw => Tracked bw) (tracked_genesisWriter sequence)
    fun _ _ _ _ inv normal taken => inv.step normal taken
  constructor
  · exact fun i s found => ⟨tracked.numbered i s found, tracked.recorded i s found⟩
  · obtain ⟨_, opened, _⟩ := restart_of_tracked tracked
    exact isSome_iff_exists.mpr ⟨_, opened⟩

def configBetween : List Step :=
  [.writeBlock ⟨1, .normal⟩, .commitBlock, .writeConfigBlock ⟨2, .config 1⟩, .restart, .writeBlockSync ⟨3, .normal⟩]

theorem configBetween_tracked : ∃ bw, Reaches BlockWriter.step NormalBlocks (genesisWriter 0) configBetween bw ∧
    bw.ledger.map Stored.lastConfig = [0, 0, 2, 2] ∧ (∀ (i : Nat) (s : Stored), bw.ledger[i]? = some s →
      s.block.number = i ∧ s.lastConfig = s.signedLastConfig ∧ IsLastConfig bw.ledger i s.lastConfig) ∧
      (bw.step .restart).isSome := by
  exact exists_reaches (fun bw => bw.ledger.map Stored.lastConfig = [0, 0, 2, 2]) (by decide)
    fun bw run numbers => ⟨numbers, lastConfig_tracked run⟩

end Fabric.Proof.Multichannel
