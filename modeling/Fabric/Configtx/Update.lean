import Fabric.Configtx.ConfigMap

/-! # Authorisation of configuration updates -/

namespace Fabric.Configtx

open Lib

structure SignedData where
  data : List UInt8
  identity : List UInt8
  signature : List UInt8

structure SignaturePolicy where
  evaluateSignedData : List SignedData → Result Unit

structure ManagerImpl where
  path : String
  policies : Map String SignaturePolicy
  managers : List (String × ManagerImpl)

def ManagerImpl.manager : ManagerImpl → List String → Option ManagerImpl
  | pm, [] => some pm
  | pm, name :: path =>
    match pm.managers.lookup name with
    | none => none
    | some m => m.manager path

def ManagerImpl.relpath (pm : ManagerImpl) (id : String) : Result (Option String) :=
  if ¬pathSeparator.toList <+: id.toList then .ok (some id)
  else if ¬(pathSeparator ++ pm.path).toList <+: id.toList then .ok none
  else if id.utf8ByteSize < 1 + pm.path.utf8ByteSize + 1 then .error (.panic "runtime error: slice bounds out of range")
  else .ok (String.fromUTF8? (id.toUTF8.extract (1 + pm.path.utf8ByteSize + 1) id.utf8ByteSize))

def ManagerImpl.getPolicy (pm : ManagerImpl) (id : String) : Result (Option SignaturePolicy) :=
  if id = "" then .ok none
  else do
    let relpath ← pm.relpath id
    .ok (relpath.bind fun relpath => pm.policies[relpath]?)

structure Config where
  sequence : UInt64
  channelGroup : ConfigTree

structure ConfigUpdate where
  channelId : String
  readSet : Option ConfigTree
  writeSet : Option ConfigTree

structure ConfigSignature where
  signatureHeader : List UInt8
  signature : List UInt8

structure ConfigUpdateEnvelope where
  configUpdate : List UInt8
  signatures : List ConfigSignature

structure Unmarshaller where
  configUpdate : List UInt8 → Result ConfigUpdate
  creator : List UInt8 → Result (List UInt8)

structure ValidatorImpl where
  channelID : String
  sequence : UInt64
  configMap : ConfigMap
  configProto : Config
  nameSpace : String
  pm : ManagerImpl

def channelFirstChars (c : Char) : Bool := 'a' ≤ c && c ≤ 'z'
def channelAllowedChars (c : Char) : Bool := channelFirstChars c || c.isDigit || c == '.' || c == '-'

def validateChannelID (channelID : String) : Result Unit :=
  if channelID.utf8ByteSize = 0 then .error (.error "channel ID illegal, cannot be empty")
  else if maxLength < channelID.utf8ByteSize then .error (.error "channel ID illegal, cannot be longer than 249")
  else if (findString channelFirstChars channelAllowedChars channelID.toList).length ≠ channelID.utf8ByteSize then
    .error (.error ("'" ++ channelID ++ "' contains illegal characters"))
  else .ok ()

def newValidatorImpl (channelID : String) (config : Config) (nameSpace : String) (pm : ManagerImpl) :
    Result ValidatorImpl := do
  wrapf "bad channel ID" (validateChannelID channelID)
  let configMap ← wrapf "error converting config to map" (mapConfig (some config.channelGroup.group) nameSpace)
  .ok ⟨channelID, config.sequence, configMap, config, nameSpace, pm⟩

variable (unmarshal : Unmarshaller)

def configUpdateEnvelopeAsSignedData (ce : ConfigUpdateEnvelope) : Result (List SignedData) :=
  ce.signatures.mapM fun configSig => do
    let creator ← unmarshal.creator configSig.signatureHeader
    .ok ⟨configSig.signatureHeader ++ ce.configUpdate, creator, configSig.signature⟩

variable (vi : ValidatorImpl)

def ValidatorImpl.verifyReadSet (readSet : ConfigMap) : Result Unit :=
  readSet.toList.forM fun e =>
    match vi.configMap[e.1]? with
    | none => .error (.error ("existing config does not contain element for " ++ e.1 ++ " but was in the read set"))
    | some existing =>
      if existing.version ≠ e.2.version then
        .error (.error (s!"proposed update requires that key {e.1} be at version {e.2.version}, " ++
          s!"but it is currently at version {existing.version}"))
      else .ok ()

def computeDeltaSet (readSet writeSet : ConfigMap) : ConfigMap :=
  writeSet.filter fun key value =>
    match readSet[key]? with
    | none => true
    | some readVal => readVal.version ≠ value.version

def validateModPolicy (modPolicy : String) : Result Unit :=
  if modPolicy = "" then .error (.error "mod_policy not set")
  else
    let trimmed := if modPolicy.toList.head? = some '/' then modPolicy.toList.drop 1 else modPolicy.toList
    (trimmed.splitOn '/').zipIdx.forM fun e =>
      wrapf s!"path element at {e.2} is invalid" (validateConfigID (String.ofList e.1))

def ValidatorImpl.managerForItem (item : Comparable) : Option ManagerImpl :=
  if item.modPolicy ≠ "" ∧ item.modPolicy.toList.head? ≠ some '/' ∧ item.path ≠ [] then
    match vi.pm.manager (item.path.drop 1) with
    | none => none
    | some manager =>
      match item.element with
      | .group _ => manager.manager [item.key]
      | _ => some manager
  else some vi.pm

def ValidatorImpl.policyForItem (item : Comparable) : Result (Option SignaturePolicy) :=
  match vi.managerForItem item with
  | none => .ok none
  | some manager => manager.getPolicy item.modPolicy

def ValidatorImpl.verifyDelta (signedData : List SignedData) (key : String) (value : Comparable) :
    Result Unit := do
  wrapf ("invalid mod_policy for element " ++ key) (validateModPolicy value.modPolicy)
  match vi.configMap[key]? with
  | none =>
    if value.version ≠ 0 then
      .error (.error s!"attempted to set key {key} to version {value.version}, but key does not exist")
    else .ok ()
  | some existing =>
    if value.version ≠ existing.version + 1 then
      .error (.error s!"attempt to set key {key} to version {value.version}, but key is at version {existing.version}")
    else
      match ← vi.policyForItem existing with
      | none => .error (.error s!"unexpected missing policy {existing.modPolicy} for item {key}")
      | some policy => wrapf s!"policy for {key} not satisfied" (policy.evaluateSignedData signedData)

def ValidatorImpl.verifyDeltaSet (deltaSet : ConfigMap) (signedData : List SignedData) :
    Result Unit :=
  if deltaSet.isEmpty then .error (.error "delta set was empty -- update would have no effect")
  else deltaSet.toList.forM fun e => vi.verifyDelta signedData e.1 e.2

def ValidatorImpl.computeUpdateResult (updatedConfig : ConfigMap) : ConfigMap :=
  putAll vi.configMap updatedConfig.toList

def verifyFullProposedConfig (writeSet fullProposedConfig : ConfigMap) : Result Unit :=
  writeSet.keys.forM fun key =>
    if key ∈ fullProposedConfig then .ok ()
    else .error (.error ("writeset contained key " ++ key ++ " which did not appear in proposed config"))

variable (configUpdateEnv : ConfigUpdateEnvelope)

def ValidatorImpl.authorizeUpdate (vi : ValidatorImpl) : Result ConfigMap := do
  let configUpdate ← unmarshal.configUpdate configUpdateEnv.configUpdate
  if configUpdate.channelId ≠ vi.channelID then
    .error (.error s!"ConfigUpdate for channel '{configUpdate.channelId}' but envelope for channel '{vi.channelID}'")
  else
    let readSet ← wrapf "error mapping ReadSet" (mapConfig (configUpdate.readSet.map (·.group)) vi.nameSpace)
    wrapf "error validating ReadSet" (vi.verifyReadSet readSet)
    let writeSet ← wrapf "error mapping WriteSet" (mapConfig (configUpdate.writeSet.map (·.group)) vi.nameSpace)
    let deltaSet := computeDeltaSet readSet writeSet
    let signedData ← configUpdateEnvelopeAsSignedData unmarshal configUpdateEnv
    wrapf "error validating DeltaSet" (vi.verifyDeltaSet deltaSet signedData)
    let fullProposedConfig := vi.computeUpdateResult deltaSet
    wrapf "full config did not verify" (verifyFullProposedConfig writeSet fullProposedConfig)
    .ok fullProposedConfig

structure ProposedConfig where
  sequence : UInt64
  channelGroup : ConfigGroup
  lastUpdate : ConfigUpdateEnvelope

def ValidatorImpl.proposeConfigUpdate (vi : ValidatorImpl) : Result ProposedConfig := do
  let configMap ← wrapf "error authorizing update" (vi.authorizeUpdate unmarshal configUpdateEnv)
  let channelGroup ← wrapf "could not turn configMap back to channelGroup" (configMapToConfig configMap vi.nameSpace)
  .ok ⟨vi.sequence + 1, channelGroup, configUpdateEnv⟩

end Fabric.Configtx
