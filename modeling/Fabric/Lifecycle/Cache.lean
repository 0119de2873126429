import Fabric.Lib.Transition
import Fabric.Ledger.Statedb

/-! # The cache of chaincode definitions -/

namespace Fabric.Lifecycle

open Lib Ledger

structure ChaincodeParameters where
  endorsementInfo : Bytes
  validationInfo : Bytes
  collections : Bytes
  deriving DecidableEq

structure ChaincodeDefinition where
  sequence : Nat
  parameters : ChaincodeParameters

inductive OrgField where
  | metadata
  | endorsementInfo
  | validationInfo
  | collections
  | sourcesMetadata
  | packageID
  deriving DecidableEq

structure OrgKey where
  name : Bytes
  sequence : Nat
  field : OrgField
  deriving DecidableEq

/-- Hashes of keys and of values; distinct keys and distinct values have distinct hashes. -/
structure Hashing where
  keyHash : OrgKey → Bytes
  valueHash : Bytes → Bytes
  parametersMetadata : Bytes
  localPackageMetadata : Bytes
  keyHash_injective : Function.Injective keyHash
  valueHash_injective : Function.Injective valueHash

abbrev OrgState := OrgKey → Option Bytes

structure ChannelState where
  definitions : Map Bytes ChaincodeDefinition
  orgStates : Bytes → OrgState

def ChannelState.empty : ChannelState := ⟨∅, fun _ _ => none⟩

def ChannelState.currentSequence (st : ChannelState) (ccname : Bytes) : Nat :=
  st.definitions[ccname]?.elim 0 (·.sequence)

inductive Request where
  | commit (ccname : Bytes) (cd : ChaincodeDefinition)
  | approve (mspID ccname : Bytes) (cd : ChaincodeDefinition) (packageID : Bytes)

structure StateUpdates where
  publicUpdates : List Bytes
  collHashUpdates : List (Bytes × Bytes)

def commitChaincodeDefinition (st : ChannelState) (ccname : Bytes) (cd : ChaincodeDefinition) : Result ChannelState :=
  let currentSequence := st.currentSequence ccname
  if cd.sequence ≠ currentSequence + 1 then
    .error (.error s!"requested sequence is {cd.sequence}, but new definition must be sequence {currentSequence + 1}")
  else .ok { st with definitions := st.definitions.insert ccname cd }

variable (h : Hashing)

def approvalEntries (ccname : Bytes) (cd : ChaincodeDefinition) (packageID : Bytes) : List (OrgKey × Bytes) :=
  [(⟨ccname, cd.sequence, .metadata⟩, h.valueHash h.parametersMetadata),
   (⟨ccname, cd.sequence, .endorsementInfo⟩, h.valueHash cd.parameters.endorsementInfo),
   (⟨ccname, cd.sequence, .validationInfo⟩, h.valueHash cd.parameters.validationInfo),
   (⟨ccname, cd.sequence, .collections⟩, h.valueHash cd.parameters.collections),
   (⟨ccname, cd.sequence, .sourcesMetadata⟩, h.valueHash h.localPackageMetadata),
   (⟨ccname, cd.sequence, .packageID⟩, h.valueHash packageID)]

variable (entries : List (OrgKey × Bytes))

def serialize (state : OrgState) : List (OrgKey × Bytes) :=
  entries.filter fun e => state e.1 ≠ some e.2

def putEntries (state : OrgState) : OrgState :=
  entries.foldl (fun state e k => if k = e.1 then some e.2 else state k) state

variable (st : ChannelState)

def approveChaincodeDefinitionForOrg (mspID ccname : Bytes) (cd : ChaincodeDefinition)
    (packageID : Bytes) : Result (List (OrgKey × Bytes)) :=
  let currentSequence := st.currentSequence ccname
  let entries := serialize (approvalEntries h ccname cd packageID) (st.orgStates mspID)
  if currentSequence = cd.sequence ∧ cd.sequence = 0 then
    .error (.error "requested sequence is 0, but first definable sequence number is 1")
  else if cd.sequence < currentSequence then
    .error (.error s!"currently defined sequence {currentSequence} is larger than requested sequence {cd.sequence}")
  else if currentSequence + 1 < cd.sequence then
    .error (.error (s!"requested sequence {cd.sequence} is larger than the next available sequence number " ++
      s!"{currentSequence + 1}"))
  else if cd.sequence = currentSequence ∧ st.definitions[ccname]?.map (·.parameters) ≠ some cd.parameters then
    .error (.error (s!"attempted to redefine the current committed sequence ({currentSequence}) for namespace {ccname} " ++
      "with different parameters"))
  else if cd.sequence = currentSequence + 1 ∧ entries = [] then
    .error (.error (s!"attempted to redefine uncommitted sequence ({cd.sequence}) for namespace {ccname} with unchanged " ++
      "content"))
  else .ok entries

def ChannelState.putOrgEntries (mspID : Bytes) (entries : List (OrgKey × Bytes)) : ChannelState :=
  { st with orgStates := Function.update st.orgStates mspID (putEntries entries (st.orgStates mspID)) }

def applyRequest (su : ChannelState × StateUpdates) : Request → Result (ChannelState × StateUpdates)
  | .commit ccname cd => do
    let st ← commitChaincodeDefinition su.1 ccname cd
    .ok (st, { su.2 with publicUpdates := su.2.publicUpdates ++ [ccname] })
  | .approve mspID ccname cd packageID => do
    let entries ← approveChaincodeDefinitionForOrg h su.1 mspID ccname cd packageID
    .ok (su.1.putOrgEntries mspID entries, { su.2 with
      collHashUpdates := su.2.collHashUpdates ++ entries.map fun e => (mspID, h.keyHash e.1) })

def applyRequests (requests : List Request) : Result (ChannelState × StateUpdates) :=
  requests.foldlM (applyRequest h) (st, ⟨[], []⟩)

structure ChaincodePackageMetadata where
  type : Bytes
  path : Bytes
  label : Bytes
  deriving DecidableEq

structure ChaincodeInstallInfo where
  packageID : Bytes
  metadata : ChaincodePackageMetadata
  deriving DecidableEq

structure CachedChaincodeDefinition where
  definition : ChaincodeDefinition
  approved : Bool
  installInfo : Option ChaincodeInstallInfo
  hashes : List Bytes

structure ChannelCache where
  chaincodes : Map Bytes CachedChaincodeDefinition
  interestingHashes : Map Bytes Bytes

structure LocalChaincode where
  info : Option ChaincodeInstallInfo
  references : Finset (Bytes × Bytes)

structure Cache where
  definedChaincodes : Map Bytes ChannelCache
  localChaincodes : Map Bytes LocalChaincode

def newCache : Cache := ⟨∅, ∅⟩

variable (orgState : OrgState)

def isSerialized (name : Bytes) (cd : ChaincodeDefinition) : Bool :=
  orgState ⟨name, cd.sequence, .metadata⟩ == some (h.valueHash h.parametersMetadata) &&
  orgState ⟨name, cd.sequence, .endorsementInfo⟩ == some (h.valueHash cd.parameters.endorsementInfo) &&
  orgState ⟨name, cd.sequence, .validationInfo⟩ == some (h.valueHash cd.parameters.validationInfo) &&
  orgState ⟨name, cd.sequence, .collections⟩ == some (h.valueHash cd.parameters.collections)

def isLocalPackage (name : Bytes) (cd : ChaincodeDefinition) : Bool :=
  orgState ⟨name, cd.sequence, .sourcesMetadata⟩ == some (h.valueHash h.localPackageMetadata)

def hashOfCCHash (name : Bytes) (cd : ChaincodeDefinition) : Bytes :=
  (orgState ⟨name, cd.sequence, .packageID⟩).getD []

def definitionHashes (name : Bytes) (cd : ChaincodeDefinition) : List Bytes :=
  [.metadata, .endorsementInfo, .validationInfo, .collections, .packageID].map fun f => h.keyHash ⟨name, cd.sequence, f⟩

-- A reference is removed when the definition had a package installed and it is not the one now referred to.
def removeReference (channelID name : Bytes) (oldInfo newInfo : Option ChaincodeInstallInfo) (lc : LocalChaincode) :
    LocalChaincode :=
  match oldInfo with
  | none => lc
  | some info =>
    if newInfo.any (·.packageID == info.packageID) then lc
    else { lc with references := lc.references.erase (channelID, name) }

def updateLocalChaincodes (initializing : Bool) (channelID name : Bytes) (oldInfo : Option ChaincodeInstallInfo)
    (hash : Bytes) (localChaincodes : Map Bytes LocalChaincode) : Map Bytes LocalChaincode :=
  let localChaincode := localChaincodes[hash]?.getD ⟨none, ∅⟩
  let localChaincodes := localChaincodes.insert hash localChaincode
  if initializing then localChaincodes
  else localChaincodes.map fun _ lc => removeReference channelID name oldInfo localChaincode.info lc

def addReference (channelID name hash : Bytes) (localChaincodes : Map Bytes LocalChaincode) : Map Bytes LocalChaincode :=
  match localChaincodes[hash]? with
  | none => localChaincodes
  | some lc => localChaincodes.insert hash { lc with references := insert (channelID, name) lc.references }

variable (myOrgMSPID : Bytes)

def Cache.updateOne (initializing : Bool) (channelID : Bytes) (st : ChannelState)
    (c : Cache) (name : Bytes) : Cache :=
  let channelCache := c.definedChaincodes[channelID]?.getD ⟨∅, ∅⟩
  let old := channelCache.chaincodes[name]?
  let interestingHashes := eraseAll channelCache.interestingHashes (old.elim [] (·.hashes))
  let orgState := st.orgStates myOrgMSPID
  match st.definitions[name]? with
  | none => { c with definedChaincodes :=
      c.definedChaincodes.insert channelID ⟨channelCache.chaincodes.erase name, interestingHashes⟩ }
  | some cd =>
    let hash := hashOfCCHash orgState name cd
    let hashes := definitionHashes h name cd
    let localInfo := c.localChaincodes[hash]?.bind (·.info)
    let localChaincodes := updateLocalChaincodes initializing channelID name (old.bind (·.installInfo)) hash c.localChaincodes
    let store (approved : Bool) (installInfo : Option ChaincodeInstallInfo) : Map Bytes ChannelCache :=
      c.definedChaincodes.insert channelID
        ⟨channelCache.chaincodes.insert name ⟨cd, approved, installInfo, hashes⟩,
          putAll interestingHashes (hashes.map fun k => (k, name))⟩
    -- The install information of an earlier definition stays unless the new one has a package.
    if !isSerialized h orgState name cd then ⟨store false (old.bind (·.installInfo)), localChaincodes⟩
    else if !isLocalPackage h orgState name cd then ⟨store true (old.bind (·.installInfo)), localChaincodes⟩
    else ⟨store true localInfo, addReference channelID name hash localChaincodes⟩

def Cache.update (initializing : Bool) (channelID : Bytes) (dirtyChaincodes : List Bytes)
    (st : ChannelState) (c : Cache) : Cache :=
  let c := { c with definedChaincodes :=
    c.definedChaincodes.insert channelID (c.definedChaincodes[channelID]?.getD ⟨∅, ∅⟩) }
  dirtyChaincodes.foldl (Cache.updateOne h myOrgMSPID initializing channelID st) c

def Cache.initializeChannel (myOrgMSPID channelID : Bytes) (names : List Bytes) (st : ChannelState) (c : Cache) : Cache :=
  c.update h myOrgMSPID true channelID names st

def Cache.dirtyChaincodes (c : Cache) (myOrgMSPID channelID : Bytes) (updates : StateUpdates) : Finset Bytes :=
  let interestingHashes := c.definedChaincodes[channelID]?.elim ∅ (·.interestingHashes)
  updates.publicUpdates.toFinset ∪ (updates.collHashUpdates.filterMap fun u =>
    if u.1 = myOrgMSPID then interestingHashes[u.2]? else none).toFinset

def Cache.handleChaincodeInstalled (c : Cache) (p : Bytes × ChaincodePackageMetadata) : Cache :=
  let hash := h.valueHash p.1
  let info : ChaincodeInstallInfo := ⟨p.1, p.2⟩
  let references := (c.localChaincodes[hash]?.elim ∅ (·.references) : Finset (Bytes × Bytes))
  ⟨c.definedChaincodes.map fun channelID channelCache => { channelCache with
      chaincodes := channelCache.chaincodes.map fun name cached =>
        if (channelID, name) ∈ references then { cached with installInfo := some info } else cached },
    c.localChaincodes.insert hash ⟨some info, references⟩⟩

structure Peer where
  cache : Cache
  ledgers : Map Bytes ChannelState
  installed : List (Bytes × ChaincodePackageMetadata)

variable (installed : List (Bytes × ChaincodePackageMetadata))

def Cache.initializeLocalChaincodes (c : Cache) : Cache :=
  installed.foldl (Cache.handleChaincodeInstalled h) c

def freshCache (ledgers : Map Bytes ChannelState)
    (installed : List (Bytes × ChaincodePackageMetadata)) : Cache :=
  ledgers.toList.foldl (fun c l => c.initializeChannel h myOrgMSPID l.1 l.2.definitions.keys l.2)
    (newCache.initializeLocalChaincodes h installed)

def newPeer : Peer :=
  ⟨newCache.initializeLocalChaincodes h installed, ∅, installed⟩

inductive Step where
  | openChannel (channelID : Bytes) (history : List Request) (names : List Bytes)
  | install (packageID : Bytes) (metadata : ChaincodePackageMetadata)
  | commitBlock (channelID : Bytes) (requests : List Request) (dirtyChaincodes : List Bytes)

def Peer.step (p : Peer) : Step → Option Peer
  | .openChannel channelID history names =>
    if channelID ∈ p.ledgers then none
    else (applyRequests h .empty history).toOption.map fun su =>
      { p with
        cache := p.cache.initializeChannel h myOrgMSPID channelID names su.1
        ledgers := p.ledgers.insert channelID su.1 }
  | .install packageID metadata => some { p with
      cache := p.cache.handleChaincodeInstalled h (packageID, metadata)
      installed := p.installed ++ [(packageID, metadata)] }
  | .commitBlock channelID requests dirtyChaincodes =>
    p.ledgers[channelID]?.bind fun st => (applyRequests h st requests).toOption.map fun su =>
      { p with
        cache := p.cache.update h myOrgMSPID false channelID dirtyChaincodes su.1
        ledgers := p.ledgers.insert channelID su.1 }

end Fabric.Lifecycle
