import Fabric.Configtx.Update

/-! # Channel policies -/

namespace Fabric.Policies

open Lib Configtx

variable {Identity : Type}

structure MSPPrincipal where
  principalClassification : Int
  principal : List UInt8

structure MSP (Identity : Type) where
  deserializeIdentity : List UInt8 → Option Identity
  mspid : Identity → String
  id : Identity → String
  verify : Identity → List UInt8 → List UInt8 → Bool
  satisfiesPrincipal : Identity → MSPPrincipal → Bool

/-- A policy without a type is `unset`. -/
inductive SignaturePolicy where
  | nOutOf (n : Int) (rules : List SignaturePolicy)
  | signedBy (index : Int)
  | unset

structure SignaturePolicyEnvelope where
  version : Int
  rule : Option SignaturePolicy
  identities : List MSPPrincipal

/-- A compiled policy marks the identities it used. -/
abbrev Evaluator (Identity : Type) := List Identity → List Bool → Bool × List Bool

def claimUnused (satisfies : Identity → Bool) : List Identity → List Bool → Option (List Bool)
  | sd :: signedData, isUsed :: used =>
    if !isUsed && satisfies sd then some (true :: used) else (claimUnused satisfies signedData used).map (isUsed :: ·)
  | _, _ => none

def evaluateSignedBy (satisfies : Identity → Bool) : Evaluator Identity := fun signedData used =>
  match claimUnused satisfies signedData used with
  | some used => (true, used)
  | none => (false, used)

def evaluateRules (signedData : List Identity) : List (Evaluator Identity) → Int → List Bool → Int × List Bool
  | [], verified, used => (verified, used)
  | policy :: policies, verified, used =>
    match policy signedData used with
    | (true, used) => evaluateRules signedData policies (verified + 1) used
    | (false, _) => evaluateRules signedData policies verified used

def evaluateNOutOf (n : Int) (policies : List (Evaluator Identity)) : Evaluator Identity := fun signedData used =>
  let (verified, used) := evaluateRules signedData policies 0 used
  (verified ≥ n, used)

mutual
def compile (msp : MSP Identity) (identities : List MSPPrincipal) : SignaturePolicy → Result (Evaluator Identity)
  | .nOutOf n rules => do
    let policies ← compileRules msp identities rules
    .ok (evaluateNOutOf n policies)
  | .signedBy index =>
    match if index < 0 then none else identities[index.toNat]? with
    | none =>
      .error (.error s!"identity index out of range, requested {index}, but identities length is {identities.length}")
    | some signedByID => .ok (evaluateSignedBy (msp.satisfiesPrincipal · signedByID))
  | .unset => .error (.error "Unknown type: <nil>:<nil>")

def compileRules (msp : MSP Identity) (identities : List MSPPrincipal) :
    List SignaturePolicy → Result (List (Evaluator Identity))
  | [] => .ok []
  | rule :: rules => do
    let policy ← compile msp identities rule
    let policies ← compileRules msp identities rules
    .ok (policy :: policies)
end

variable (msp : MSP Identity)

def newPolicy (sigPolicy : SignaturePolicyEnvelope) : Result (Evaluator Identity) :=
  if sigPolicy.version ≠ 0 then
    .error (.error s!"This evaluator only understands messages of version 0, but version was {sigPolicy.version}")
  else
    match sigPolicy.rule with
    | none => .error (.error "Empty policy element")
    | some rule => compile msp sigPolicy.identities rule

def evaluateIdentities (evaluator : Evaluator Identity) (identities : List Identity) : Result Unit :=
  if (evaluator identities (identities.map fun _ => false)).1 then .ok ()
  else .error (.error "signature set did not satisfy policy")

def MSP.key (identity : Identity) : String := msp.mspid identity ++ msp.id identity

/-- The identities of the valid signatures, each once; `idMap` holds the ones met so far. -/
def signatureSetToValidIdentities (msp : MSP Identity) (idMap : List String) : List SignedData → List Identity
  | [] => []
  | sd :: signedData =>
    match msp.deserializeIdentity sd.identity with
    | none => signatureSetToValidIdentities msp idMap signedData
    | some identity =>
      if msp.key identity ∈ idMap then signatureSetToValidIdentities msp idMap signedData
      else if msp.verify identity sd.data sd.signature then
        identity :: signatureSetToValidIdentities msp (msp.key identity :: idMap) signedData
      else signatureSetToValidIdentities msp idMap signedData

def evaluateSignedData (evaluator : Evaluator Identity) (signatureSet : List SignedData) :
    Result Unit :=
  evaluateIdentities evaluator (signatureSetToValidIdentities msp [] signatureSet)

structure Policy (Identity : Type) where
  evaluateSignedData : List SignedData → Result Unit
  evaluateIdentities : List Identity → Result Unit

/-- The rules are 0 for any, 1 for all and 2 for a majority; other numbers can be received. -/
structure ImplicitMetaDefinition where
  subPolicy : String
  rule : Int

structure ImplicitMetaPolicy (P : Type) where
  threshold : Int
  subPolicies : List P
  subPolicyName : String

def thresholdOf (rule : Int) (subPolicies : Nat) : Int :=
  if subPolicies = 0 then 0
  else if rule = 0 then 1
  else if rule = 1 then subPolicies
  else if rule = 2 then (subPolicies / 2 + 1 : Nat)
  else 0

def newImplicitMetaPolicy {M P : Type} (unmarshal : List UInt8 → Result ImplicitMetaDefinition)
    (getPolicy : M → String → Result P) (data : List UInt8) (managers : List (String × M)) : Result (ImplicitMetaPolicy P) := do
  let definition ← unmarshal data
  let subPolicies ← managers.mapM fun manager => getPolicy manager.2 definition.subPolicy
  .ok ⟨thresholdOf definition.rule subPolicies.length, subPolicies, definition.subPolicy⟩

def remainingAfter {P : Type} (accepts : P → Bool) : Int → List P → Int
  | remaining, [] => remaining
  | remaining, policy :: policies =>
    if accepts policy then if remaining - 1 = 0 then 0 else remainingAfter accepts (remaining - 1) policies
    else remainingAfter accepts remaining policies

def ImplicitMetaPolicy.evaluate {P : Type} (imp : ImplicitMetaPolicy P) (accepts : P → Bool) : Result Unit :=
  let remaining := remainingAfter accepts imp.threshold imp.subPolicies
  if remaining = 0 then .ok ()
  else .error (.error (s!"implicit policy evaluation failed - {imp.threshold - remaining} sub-policies were satisfied, " ++
    s!"but this policy requires {imp.threshold} of the '{imp.subPolicyName}' sub-policies to be satisfied"))

def isOk (result : Result Unit) : Bool := result.toOption.isSome

variable (imp : ImplicitMetaPolicy (Policy Identity))

def ImplicitMetaPolicy.evaluateSignedData (signatureSet : List SignedData) :
    Result Unit :=
  imp.evaluate fun policy => isOk (policy.evaluateSignedData signatureSet)

def ImplicitMetaPolicy.evaluateIdentities (identities : List Identity) :
    Result Unit :=
  imp.evaluate fun policy => isOk (policy.evaluateIdentities identities)

structure CompiledPolicy (msp : MSP Identity) where
  envelope : SignaturePolicyEnvelope
  evaluator : Evaluator Identity
  compiled : newPolicy msp envelope = .ok evaluator

/-- The policies of a channel that are made of signature policies only. -/
inductive ConvertiblePolicy (msp : MSP Identity) where
  | signature (policy : CompiledPolicy msp)
  | implicitMeta (rule : Int) (subPolicies : List (ConvertiblePolicy msp)) (subPolicyName : String)

mutual
def ConvertiblePolicy.evaluateIdentities {msp : MSP Identity} (identities : List Identity) : ConvertiblePolicy msp → Result Unit
  | .signature policy => Policies.evaluateIdentities policy.evaluator identities
  | .implicitMeta rule subPolicies subPolicyName =>
    ImplicitMetaPolicy.evaluate ⟨thresholdOf rule subPolicies.length, evaluateSubPolicies identities subPolicies, subPolicyName⟩ isOk

def evaluateSubPolicies {msp : MSP Identity} (identities : List Identity) : List (ConvertiblePolicy msp) → List (Result Unit)
  | [] => []
  | policy :: policies => policy.evaluateIdentities identities :: evaluateSubPolicies identities policies
end

def classificationName : Int → List UInt8
  | 0 => [82, 79, 76, 69]
  | 1 => [79, 82, 71, 65, 78, 73, 90, 65, 84, 73, 79, 78, 95, 85, 78, 73, 84]
  | 2 => [73, 68, 69, 78, 84, 73, 84, 89]
  | 3 => [65, 78, 79, 78, 89, 77, 73, 84, 89]
  | 4 => [67, 79, 77, 66, 73, 78, 69, 68]
  | classification => (toString classification).toList.map fun c => UInt8.ofNat c.toNat

def MSPPrincipal.str (id : MSPPrincipal) : List UInt8 :=
  classificationName id.principalClassification ++ id.principal

mutual
def remap (idRemap : List Nat) : SignaturePolicy → Result SignaturePolicy
  | .nOutOf n rules => do
    let rules ← remapRules idRemap rules
    .ok (.nOutOf n rules)
  | .signedBy index =>
    match if index < 0 then none else idRemap[index.toNat]? with
    | none => .error (.panic "programming error")
    | some newID => .ok (.signedBy newID)
  | .unset => .error (.panic "invalid policy type <nil>")

def remapRules (idRemap : List Nat) : List SignaturePolicy → Result (List SignaturePolicy)
  | [] => .ok []
  | rule :: rules => do
    let rule ← remap idRemap rule
    let rules ← remapRules idRemap rules
    .ok (rule :: rules)
end

structure Merging where
  ids : List MSPPrincipal
  idMap : Map (List UInt8) Nat
  idRemap : List Nat

def Merging.add (m : Merging) (id : MSPPrincipal) : Merging :=
  match m.idMap[id.str]? with
  | some j => { m with idRemap := m.idRemap ++ [j] }
  | none => ⟨m.ids ++ [id], m.idMap.insert id.str m.ids.length, m.idRemap ++ [m.ids.length]⟩

def merge (this : List MSPPrincipal × List SignaturePolicy) (that : SignaturePolicyEnvelope) :
    Result (List MSPPrincipal × List SignaturePolicy) :=
  let idMap := this.1.zipIdx.foldl (fun idMap id => idMap.insert id.1.str id.2) ∅
  let merging := that.identities.foldl Merging.add ⟨this.1, idMap, []⟩
  match that.rule with
  | none => .error (.panic "runtime error: invalid memory address or nil pointer dereference")
  | some rule => do
    let newEntry ← remap merging.idRemap rule
    .ok (merging.ids, this.2 ++ [newEntry])

mutual
def ConvertiblePolicy.convert {msp : MSP Identity} : ConvertiblePolicy msp → Result SignaturePolicyEnvelope
  | .signature policy => .ok policy.envelope
  | .implicitMeta rule subPolicies _ => do
    let (identities, rules) ← convertSubPolicies ([], []) subPolicies
    .ok ⟨0, some (.nOutOf (thresholdOf rule subPolicies.length) rules), identities⟩

def convertSubPolicies {msp : MSP Identity} (converted : List MSPPrincipal × List SignaturePolicy) :
    List (ConvertiblePolicy msp) → Result (List MSPPrincipal × List SignaturePolicy)
  | [] => .ok converted
  | subPolicy :: subPolicies => do
    let spe ← subPolicy.convert
    let converted ← merge converted spe
    convertSubPolicies converted subPolicies
end

end Fabric.Policies
