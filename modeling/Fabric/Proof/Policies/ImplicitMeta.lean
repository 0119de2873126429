import Fabric.Policies.Policy

/-! # Implicit meta policies count the sub-policies that accept -/

namespace Fabric.Proof.Policies

open Lib Fabric.Policies List
open Fabric.Configtx (SignedData)

variable {Identity M P : Type} {accepts : P → Bool} {policies : List P} {rule : Int} {imp : ImplicitMetaPolicy P}

theorem remainingAfter_eq_zero {remaining : Int} (pos : 1 ≤ remaining) :
    remainingAfter accepts remaining policies = 0 ↔ remaining ≤ policies.countP accepts := by
  induction policies generalizing remaining with
  | nil =>
    simp only [remainingAfter, countP_nil, Int.ofNat_zero]
    omega
  | cons policy policies ih =>
    unfold remainingAfter
    cases accepted : accepts policy with
    | false =>
      rw [countP_cons_of_neg (by simp [accepted])]
      exact ih pos
    | true =>
      rw [countP_cons_of_pos accepted, if_pos rfl]
      by_cases last : remaining - 1 = 0
      · rw [if_pos last]
        simp only [Nat.cast_add, Nat.cast_one, true_iff]
        omega
      · rw [if_neg last, ih (by omega)]
        omega

/-- The number of sub-policies that the rule requires; of none, none is required. -/
def required (rule : Int) (subPolicies : Nat) : Nat :=
  if subPolicies = 0 then 0 else if rule = 0 then 1 else if rule = 1 then subPolicies else subPolicies / 2 + 1

theorem thresholdOf_eq_required (known : rule = 0 ∨ rule = 1 ∨ rule = 2) (subPolicies : Nat) :
    thresholdOf rule subPolicies = required rule subPolicies := by
  by_cases none : subPolicies = 0
  · simp [thresholdOf, required, none]
  · rcases known with rfl | rfl | rfl <;> simp [thresholdOf, required, none]

theorem evaluate_eq_ok (known : rule = 0 ∨ rule = 1 ∨ rule = 2) (created : imp.threshold = thresholdOf rule imp.subPolicies.length) :
    imp.evaluate accepts = .ok () ↔ required rule imp.subPolicies.length ≤ imp.subPolicies.countP accepts := by
  have met : imp.evaluate accepts = .ok () ↔ remainingAfter accepts imp.threshold imp.subPolicies = 0 := by
    unfold ImplicitMetaPolicy.evaluate
    simp only
    split <;> simp_all
  rw [met, created, thresholdOf_eq_required known]
  by_cases none : imp.subPolicies.length = 0
  · simp [eq_nil_of_length_eq_zero none, required, remainingAfter]
  · have pos : 1 ≤ required rule imp.subPolicies.length := by
      unfold required
      split_ifs <;> omega
    rw [remainingAfter_eq_zero (by omega)]
    omega

theorem required_mono {sat unsat sat' unsat' : Nat} (more : sat ≤ sat') (fewer : unsat' ≤ unsat)
    (met : required rule (sat + unsat) ≤ sat) : required rule (sat' + unsat') ≤ sat' := by
  unfold required at *
  split_ifs at * <;> omega

theorem length_eq_countP_add (accepts : P → Bool) (policies : List P) :
    policies.length = policies.countP accepts + policies.countP (!accepts ·) := by
  rw [length_eq_countP_add_countP accepts]
  congr 2
  funext policy
  cases accepts policy <;> rfl

def Grown (before after : List P) (accepts accepts' : P → Bool) : Prop :=
  before.countP accepts ≤ after.countP accepts' ∧ after.countP (!accepts' ·) ≤ before.countP (!accepts ·)

theorem evaluate_mono {imp' : ImplicitMetaPolicy P} {accepts' : P → Bool} (known : rule = 0 ∨ rule = 1 ∨ rule = 2)
    (created : imp.threshold = thresholdOf rule imp.subPolicies.length) (created' : imp'.threshold = thresholdOf rule imp'.subPolicies.length)
    (grown : Grown imp.subPolicies imp'.subPolicies accepts accepts') (accepted : imp.evaluate accepts = .ok ()) :
    imp'.evaluate accepts' = .ok () := by
  rw [evaluate_eq_ok known created, length_eq_countP_add accepts] at accepted
  rw [evaluate_eq_ok known created', length_eq_countP_add accepts']
  exact required_mono grown.1 grown.2 accepted

theorem created_spec {unmarshal : List UInt8 → Result ImplicitMetaDefinition} {getPolicy : M → String → Result P}
    {data : List UInt8} {managers : List (String × M)} {definition : ImplicitMetaDefinition}
    (read : unmarshal data = .ok definition) (created : newImplicitMetaPolicy unmarshal getPolicy data managers = .ok imp) :
    List.Forall₂ (fun manager policy => getPolicy manager.2 definition.subPolicy = .ok policy) managers imp.subPolicies ∧
      imp.threshold = thresholdOf definition.rule imp.subPolicies.length := by
  obtain ⟨_, read', created⟩ := bind_eq_ok.mp created
  obtain rfl := ok.inj (read.symm.trans read')
  obtain ⟨subPolicies, looked, result⟩ := bind_eq_ok.mp created
  cases result
  exact ⟨mapM_eq_ok.mp looked, rfl⟩

theorem implicitMeta_meets_rule (unmarshal : List UInt8 → Result ImplicitMetaDefinition)
    (getPolicy : M → String → Result (Policy Identity)) (data : List UInt8) (definition : ImplicitMetaDefinition)
    (read : unmarshal data = .ok definition) (known : definition.rule = 0 ∨ definition.rule = 1 ∨ definition.rule = 2)
    (managers : List (String × M)) (imp : ImplicitMetaPolicy (Policy Identity))
    (created : newImplicitMetaPolicy unmarshal getPolicy data managers = .ok imp) :
    List.Forall₂ (fun manager policy => getPolicy manager.2 definition.subPolicy = .ok policy) managers imp.subPolicies ∧
    (∀ signatureSet, imp.evaluateSignedData signatureSet = .ok () ↔ required definition.rule managers.length ≤
      imp.subPolicies.countP fun policy => isOk (policy.evaluateSignedData signatureSet)) ∧
    (∀ identities, imp.evaluateIdentities identities = .ok () ↔ required definition.rule managers.length ≤
      imp.subPolicies.countP fun policy => isOk (policy.evaluateIdentities identities)) ∧
    ∀ managers' imp', newImplicitMetaPolicy unmarshal getPolicy data managers' = .ok imp' →
      (∀ signatureSet signatureSet', Grown imp.subPolicies imp'.subPolicies
        (fun policy => isOk (policy.evaluateSignedData signatureSet))
        (fun policy => isOk (policy.evaluateSignedData signatureSet')) →
        imp.evaluateSignedData signatureSet = .ok () → imp'.evaluateSignedData signatureSet' = .ok ()) ∧
      ∀ identities identities', Grown imp.subPolicies imp'.subPolicies
        (fun policy => isOk (policy.evaluateIdentities identities))
        (fun policy => isOk (policy.evaluateIdentities identities')) →
        imp.evaluateIdentities identities = .ok () → imp'.evaluateIdentities identities' = .ok () := by
  obtain ⟨looked, threshold⟩ := created_spec read created
  rw [looked.length_eq]
  refine ⟨looked, fun _ => evaluate_eq_ok known threshold, fun _ => evaluate_eq_ok known threshold, ?_⟩
  intro managers' imp' created'
  obtain ⟨_, threshold'⟩ := created_spec read created'
  constructor
  · intro _ _ grown accepted
    exact evaluate_mono known threshold threshold' grown accepted
  · intro _ _ grown accepted
    exact evaluate_mono known threshold threshold' grown accepted

def fixedPolicy (accepts : Bool) (_ : String) : Result (Policy Unit) :=
  let answer : Result Unit := if accepts then .ok () else .error (.error "rejected")
  .ok ⟨fun _ => answer, fun _ => answer⟩

def writersByRule (rule : List UInt8) : Result ImplicitMetaDefinition := .ok ⟨"Writers", rule.length⟩

theorem twoOfThree_majority : ∃ imp, newImplicitMetaPolicy writersByRule fixedPolicy [0, 0]
    [("Org1", true), ("Org2", false), ("Org3", true)] = .ok imp ∧ imp.evaluateSignedData [] = .ok () := by
  have created : newImplicitMetaPolicy writersByRule fixedPolicy [0, 0]
      [("Org1", true), ("Org2", false), ("Org3", true)] = .ok _ := rfl
  obtain ⟨_, signedData, _⟩ := implicitMeta_meets_rule _ _ _ _ rfl (by decide) _ _ created
  exact ⟨_, created, (signedData []).mpr (by decide)⟩

-- No group is needed for "any" when there is none, and a rule with an unknown number accepts
-- until a group does.
theorem implicitMeta_other_thresholds : (∃ imp, newImplicitMetaPolicy writersByRule fixedPolicy [] [] = .ok imp ∧
      imp.evaluateSignedData [] = .ok () ∧ imp.subPolicies.length < 1) ∧
    ∃ imp imp', newImplicitMetaPolicy writersByRule fixedPolicy [0, 0, 0] [("Org1", false)] = .ok imp ∧
      newImplicitMetaPolicy writersByRule fixedPolicy [0, 0, 0] [("Org1", true)] = .ok imp' ∧
      imp.evaluateSignedData [] = .ok () ∧ imp'.evaluateSignedData [] ≠ .ok () :=
  ⟨⟨_, rfl, rfl, by decide⟩, _, _, rfl, rfl, rfl, nofun⟩

end Fabric.Proof.Policies
