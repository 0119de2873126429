import Fabric.Committer.KeyLevel

/-! # Every write is endorsed -/

namespace Fabric.Proof.Committer

open Lib Ledger Fabric.Committer List

variable {SignedData : Type} {e : Evaluator SignedData} {p p' : PolicyChecker} {coll policy : Bytes} {what : String}
  {write : Bytes × Bytes} {writes : List (Bytes × Bytes)}

def namespacePolicy (e : Evaluator SignedData) (coll : Bytes) : Option Bytes :=
  if coll = [] then some e.ccEP
  else (e.fetchCollEP coll).toOption.map fun collEP => if collEP = [] then e.ccEP else collEP

/-- The parameter of the key, or the policy of its collection or chaincode; none if they cannot be read. -/
def requiredPolicy (e : Evaluator SignedData) (write : Bytes × Bytes) : Option Bytes :=
  match e.getValidationParameterForKey e.cc write.1 write.2 e.blockNum e.txNum with
  | .ok (b :: vp) => some (b :: vp)
  | .ok [] | .error .collConfig => namespacePolicy e write.1
  | .error _ => none

def Satisfied (e : Evaluator SignedData) (policy : Bytes) : Prop := e.policySupport policy e.sd = .ok ()

structure Sound (e : Evaluator SignedData) (p : PolicyChecker) : Prop where
  satisfied : ∀ policy ∈ p.evaluated, Satisfied e policy
  checked : p.someEPChecked → p.evaluated ≠ []
  -- A check that is skipped would not have failed.
  remembered : ∀ coll ∈ p.nsEPChecked, ∃ policy ∈ namespacePolicy e coll, Satisfied e policy

theorem Sound.check (sound : Sound e p) (ran : e.check p policy what = .ok p') : Sound e p' ∧ policy ∈ p'.evaluated := by
  unfold Evaluator.check at ran
  split at ran
  · cases ran
  · rename_i satisfied
    cases ran
    exact ⟨⟨forall_mem_cons.mpr ⟨satisfied, sound.satisfied⟩, fun _ => cons_ne_nil _ _, sound.remembered⟩, mem_cons_self⟩

theorem Sound.checkAndRemember (sound : Sound e p) (required : namespacePolicy e coll = some policy)
    (ran : (do let p ← e.check p policy what; .ok { p with nsEPChecked := coll :: p.nsEPChecked }) = .ok p') :
    Sound e p' ∧ ∃ policy ∈ namespacePolicy e coll, Satisfied e policy := by
  obtain ⟨q, evaluated, result⟩ := bind_eq_ok.mp ran
  cases result
  obtain ⟨after, mem⟩ := sound.check evaluated
  have holds : ∃ policy ∈ namespacePolicy e coll, Satisfied e policy := ⟨policy, required, after.satisfied policy mem⟩
  exact ⟨{ after with remembered := forall_mem_cons.mpr ⟨holds, after.remembered⟩ }, holds⟩

theorem Sound.checkCCEPIfNotChecked (sound : Sound e p) (ran : e.checkCCEPIfNotChecked p coll = .ok p') :
    Sound e p' ∧ ∃ policy ∈ namespacePolicy e coll, Satisfied e policy := by
  unfold Evaluator.checkCCEPIfNotChecked at ran
  split at ran
  · rename_i remembered
    cases ran
    exact ⟨sound, sound.remembered coll remembered⟩
  · obtain ⟨collEP, fetched, ran⟩ := bind_eq_ok.mp ran
    have required : namespacePolicy e coll = if collEP = [] then namespacePolicy e [] else some collEP := by
      unfold namespacePolicy
      split_ifs at fetched ⊢ <;> simp_all [Except.toOption]
    split_ifs at ran with defined remembered
    · rw [if_neg defined] at required
      exact sound.checkAndRemember required ran
    · cases ran
      rw [required, if_pos (of_not_not defined)]
      exact ⟨sound, sound.remembered [] remembered⟩
    · rw [required, if_pos (of_not_not defined)]
      exact sound.checkAndRemember (if_pos rfl) ran

theorem Sound.checkSBAndCCEP (sound : Sound e p) (ran : e.checkSBAndCCEP p write = .ok p') :
    Sound e p' ∧ ∃ policy ∈ requiredPolicy e write, Satisfied e policy := by
  unfold Evaluator.checkSBAndCCEP at ran
  unfold requiredPolicy
  split at ran
  · cases ran
  · cases ran
  · rename_i found
    rw [found]
    exact sound.checkCCEPIfNotChecked ran
  · rename_i found
    rw [found]
    exact sound.checkCCEPIfNotChecked ran
  · rename_i found
    rw [found]
    obtain ⟨after, mem⟩ := sound.check ran
    exact ⟨after, _, rfl, after.satisfied _ mem⟩

theorem Sound.foldlM (sound : Sound e p) (ran : writes.foldlM e.checkSBAndCCEP p = .ok p') :
    Sound e p' ∧ ∀ write ∈ writes, ∃ policy ∈ requiredPolicy e write, Satisfied e policy := by
  induction writes generalizing p with
  | nil =>
    cases ran
    exact ⟨sound, nofun⟩
  | cons write writes ih =>
    obtain ⟨q, first, ran⟩ := bind_eq_ok.mp ran
    obtain ⟨after, covered⟩ := sound.checkSBAndCCEP first
    obtain ⟨final, rest⟩ := ih after ran
    exact ⟨final, forall_mem_cons.mpr ⟨covered, rest⟩⟩

/-- Every write has a satisfied policy, also those whose check is skipped because it is remembered. -/
theorem evaluate_covers {nsRwSets : List NsRwSet} (accepted : e.evaluate nsRwSets = .ok p) :
    (∀ r ∈ nsRwSets, r.nameSpace = e.cc → ∀ write ∈ writesOf r, ∃ policy ∈ requiredPolicy e write, Satisfied e policy) ∧
    p.evaluated ≠ [] ∧ Sound e p := by
  obtain ⟨q, ran, last⟩ := bind_eq_ok.mp accepted
  obtain ⟨sound, covered⟩ := Sound.foldlM (p := ⟨false, [], []⟩) ⟨nofun, nofun, nofun⟩ ran
  constructor
  · intro r mem isNs write isWrite
    exact covered write (mem_flatMap.mpr ⟨r, mem_filter.mpr ⟨mem, by simpa using isNs⟩, isWrite⟩)
  · unfold Evaluator.checkCCEPIfNoEPChecked at last
    split at last
    · rename_i some
      cases last
      exact ⟨sound.checked some, sound⟩
    · have final := (sound.checkAndRemember (if_pos rfl) last).1
      obtain ⟨q', evaluated, result⟩ := bind_eq_ok.mp last
      cases result
      exact ⟨ne_nil_of_mem (sound.check evaluated).2, final⟩

def twoPolicies : Evaluator Unit where
  cc := [99]
  blockNum := 1
  txNum := 0
  sd := []
  ccEP := [3]
  getValidationParameterForKey _ _ key _ _ := .ok (if key = [1] then [1] else [])
  fetchState := .ok ()
  collectionValidationInfo _ _ := ([2], none, none)
  policySupport policy _ := if policy = [3] then .error "not satisfied" else .ok ()

def keyAndCollWrites : NsRwSet :=
  ⟨[99], ⟨[], [], [⟨[1], false, [7]⟩], []⟩, [⟨[100], ⟨[], [⟨[4], false, [], false⟩, ⟨[5], false, [], false⟩], []⟩, none⟩]⟩

theorem keyAndCollWrites_covered : ∃ p, twoPolicies.evaluate [keyAndCollWrites] = .ok p ∧ p.evaluated = [[2], [1]] ∧
    ∃ policy ∈ requiredPolicy twoPolicies ([100], [5]), Satisfied twoPolicies policy := by
  have accepted : twoPolicies.evaluate [keyAndCollWrites] = .ok ⟨true, [[100]], [[2], [1]]⟩ := rfl
  exact ⟨_, accepted, rfl, (evaluate_covers accepted).1 keyAndCollWrites mem_cons_self rfl _ (by decide)⟩

end Fabric.Proof.Committer
