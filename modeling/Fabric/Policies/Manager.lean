import Fabric.Policies.Policy

/-! # Policy managers -/

namespace Fabric.Policies

open Lib Configtx

abbrev Provider := List UInt8 → Result Configtx.SignaturePolicy

structure Providers where
  provider : Int → Option Provider
  unmarshal : List UInt8 → Result ImplicitMetaDefinition

def implicitMetaType : Int := 3

def rejectPolicy (id : String) : Configtx.SignaturePolicy :=
  ⟨fun _ => .error (.error s!"no such policy: '{id}'")⟩

def subPolicy (manager : ManagerImpl) (name : String) : Result Configtx.SignaturePolicy := do
  let policy ← manager.getPolicy name
  .ok (policy.getD (rejectPolicy name))

def newConfigPolicy (providers : Providers) (path : String) (managers : List (String × ManagerImpl)) (policyName : String)
    (configPolicy : ConfigPolicy) : Result Configtx.SignaturePolicy :=
  match configPolicy.policy with
  | none => .error (.error s!"policy {policyName} at path {path} was nil")
  | some policy =>
    if policy.type = implicitMetaType then do
      let imp ← wrapf s!"implicit policy {policyName} at path {path} did not compile"
        (newImplicitMetaPolicy providers.unmarshal subPolicy policy.value managers)
      .ok ⟨fun signatureSet => imp.evaluate fun policy => isOk (policy.evaluateSignedData signatureSet)⟩
    else
      match providers.provider policy.type with
      | none => .error (.error s!"policy {policyName} at path {path} has unknown policy type: {policy.type}")
      | some newPolicy => wrapf s!"policy {policyName} at path {path} did not compile" (newPolicy policy.value)

mutual
def newManagerImpl (providers : Providers) (path : String) : ConfigGroup → Result ManagerImpl
  | ⟨_, groups, _, policies, _⟩ =>
    if (providers.provider implicitMetaType).isSome then
      .error (.panic "ImplicitMetaPolicy type must be provider by the policy manager")
    else do
      let managers ← newManagers providers path groups
      let own ← policies.mapM fun e => do .ok (e.1, ← newConfigPolicy providers path managers e.1 e.2)
      let below := managers.flatMap fun m => m.2.policies.toList.map fun e => (m.1 ++ pathSeparator ++ e.1, e.2)
      .ok ⟨path, putAll (putAll ∅ own) below, managers⟩

def newManagers (providers : Providers) (path : String) : List (String × ConfigGroup) → Result (List (String × ManagerImpl))
  | [] => .ok []
  | (groupName, group) :: groups => do
    let manager ← newManagerImpl providers (path ++ pathSeparator ++ groupName) group
    let managers ← newManagers providers path groups
    .ok ((groupName, manager) :: managers)
end

end Fabric.Policies
