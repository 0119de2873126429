import Fabric.Gossip.PvtdataProvider

/-! # Private data for other peers -/

namespace Fabric.Gossip.Privdata

open Lib Ledger

variable {C R : Type}

inductive CollectionConfig (C : Type) where
  | staticCollectionConfig (name : Bytes) (config : C)
  | other

def CollectionConfig.isStatic : CollectionConfig C → Bool
  | .staticCollectionConfig _ _ => true
  | .other => false

def CollectionConfig.hasName (collectionName : Bytes) : CollectionConfig C → Bool
  | .staticCollectionConfig name _ => name = collectionName
  | .other => false

/-- An entry of the transient store: a `TxPvtReadWriteSetWithConfigInfo`. -/
structure TransientEntry (C : Type) where
  endorsedAt : Nat
  pvtRwset : TxPvtReadWriteSet
  collectionConfigs : Map Bytes (List (CollectionConfig C))

structure PrivateRWSetWithConfig (C : Type) where
  rwSet : List Bytes
  collectionConfig : Option (CollectionConfig C)

structure DataRetriever (C : Type) where
  ledgerHeight : Result Nat
  getPvtDataByNum : Nat → List (Bytes × Bytes) → Result (List (Nat × Option TxPvtReadWriteSet))
  mostRecentCollectionConfigBelow : Nat → Bytes → Result (Option (List (CollectionConfig C)))
  store : Bytes → Result (List (TransientEntry C))

def extractCollectionConfig (collectionName : Bytes) : List (CollectionConfig C) → Option (CollectionConfig C)
  | [] => none
  | .staticCollectionConfig name config :: configs =>
    if name = collectionName then some (.staticCollectionConfig name config)
    else extractCollectionConfig collectionName configs
  | .other :: _ => none

def extractPvtRWsets (pvtRWSets : TxPvtReadWriteSet) (ns collectionName : Bytes) : List Bytes :=
  (pvtRWSets.filter (·.ns = ns)).flatMap fun nsws =>
    (nsws.collectionPvtRwset.filter (·.collectionName = collectionName)).map (·.rwset)

def trimNsPvtWSet (ns collection : Bytes) (nsws : NsPvtReadWriteSet) : Option NsPvtReadWriteSet :=
  match nsws.collectionPvtRwset.filter fun coll => nsws.ns = ns ∧ coll.collectionName = collection with
  | [] => none
  | filteredCollRwSet => some ⟨nsws.ns, filteredCollRwSet⟩

def trimPvtWSet (pvtWSet : TxPvtReadWriteSet) (ns collection : Bytes) : Option TxPvtReadWriteSet :=
  match pvtWSet.filterMap (trimNsPvtWSet ns collection) with
  | [] => none
  | filteredNsRwSet => some filteredNsRwSet

def trimPvtCollectionConfigs (configs : Map Bytes (List (CollectionConfig C))) (ns collection : Bytes) :
    Result (Map Bytes (List (CollectionConfig C))) :=
  if configs.toList.all fun e => e.2.all (·.isStatic) then
    .ok (configs.map fun pkgNs package => package.filter fun config => pkgNs = ns ∧ config.hasName collection)
  else .error (.error "unexpected collection type")

def fromTransientStore (dig : DigKey) : List (TransientEntry C) → Nat → PrivateRWSetWithConfig C →
    Result (PrivateRWSetWithConfig C)
  | [], _, results => .ok results
  | rws :: entries, maxEndorsedAt, results => do
    let collectionConfigs ← trimPvtCollectionConfigs rws.collectionConfigs dig.ns dig.collection
    match trimPvtWSet rws.pvtRwset dig.ns dig.collection,
      collectionConfigs[dig.ns]?.bind (extractCollectionConfig dig.collection) with
    | some txPvtRWSet, some configs =>
      let rwSet := results.rwSet ++ extractPvtRWsets txPvtRWSet dig.ns dig.collection
      if rws.endorsedAt ≥ maxEndorsedAt then fromTransientStore dig entries rws.endorsedAt ⟨rwSet, some configs⟩
      else fromTransientStore dig entries maxEndorsedAt { results with rwSet }
    | _, _ => fromTransientStore dig entries maxEndorsedAt results

namespace DataRetriever

variable (dr : DataRetriever C)

def retrieveTransient (dig : DigKey) : Option (PrivateRWSetWithConfig C) :=
  if dig.txID = [] then none
  else (do fromTransientStore dig (← dr.store dig.txID) 0 ⟨[], none⟩).toOption

def fromLedgerDigest (pvtData : List (Nat × Option TxPvtReadWriteSet)) (dig : DigKey) :
    Result (PrivateRWSetWithConfig C) := do
  let rwSet := pvtData.flatMap fun data =>
    if data.1 = dig.seqInBlock then extractPvtRWsets (data.2.getD []) dig.ns dig.collection else []
  match ← dr.mostRecentCollectionConfigBelow dig.blockSeq dig.ns with
  | none => .error (.error "no collection config update below block sequence")
  | some collectionConfig =>
    match extractCollectionConfig dig.collection collectionConfig with
    | none => .error (.error "no collection config was found for collection")
    | some configs => .ok ⟨rwSet, some configs⟩

def fromLedger (digests : List DigKey) (blockNum : Nat) : Result (List (DigKey × PrivateRWSetWithConfig C)) := do
  let pvtData ← dr.getPvtDataByNum blockNum (digests.map fun dig => (dig.ns, dig.collection))
  digests.mapM fun dig => do .ok (dig, ← dr.fromLedgerDigest pvtData dig)

def collectionRWSet (digests : List DigKey) (blockNum : Nat) : Result (List (DigKey × PrivateRWSetWithConfig C) × Bool) := do
  let height ← dr.ledgerHeight
  if height ≤ blockNum then .ok (digests.filterMap fun dig => (dr.retrieveTransient dig).map fun rwSets => (dig, rwSets), false)
  else .ok (← dr.fromLedger digests blockNum, true)

end DataRetriever

/-- The access filters of collection configs and of the latest committed config of a collection. -/
structure AccessFilters (C R : Type) where
  accessPolicy : CollectionConfig C → Result (Option (R → Bool))
  retrieveCollectionAccessPolicy : Bytes → Bytes → Result (R → Bool)

namespace AccessFilters

variable (p : AccessFilters C R) (signedData : R)

def isEligibleByLatestConfig (collection ns : Bytes) : Bool :=
  match p.retrieveCollectionAccessPolicy collection ns with
  | .error _ => false
  | .ok collectionFilter => collectionFilter signedData

def isEligibleByConfig (config : CollectionConfig C) : Bool :=
  match p.accessPolicy config with
  | .ok (some colFilter) => colFilter signedData
  | _ => false

def filterNotEligible (dig2rwSets : List (DigKey × PrivateRWSetWithConfig C)) (shouldCheckLatestConfig : Bool) :
    List PvtDataElement :=
  (dig2rwSets.filter fun d => d.2.rwSet ≠ [] ∧
    ((shouldCheckLatestConfig && p.isEligibleByLatestConfig signedData d.1.collection d.1.ns) ||
      d.2.collectionConfig.any (p.isEligibleByConfig signedData))).map fun d => ⟨d.1, d.2.rwSet⟩

def createResponse (dr : DataRetriever C) (digests : List DigKey) : List PvtDataElement :=
  ((digests.map (·.blockSeq)).eraseDups).flatMap fun blockNum =>
    match dr.collectionRWSet ((digests.filter (·.blockSeq = blockNum)).eraseDups) blockNum with
    | .error _ => []
    | .ok (dig2rwSets, wasFetchedFromLedger) => p.filterNotEligible signedData dig2rwSets wasFetchedFromLedger

end AccessFilters

end Fabric.Gossip.Privdata
