import Fabric.Ledger.RangeQueryResults

/-! # Building the read-write set of a simulation -/

namespace Fabric.Ledger

open Lib

structure RangeQueryKey where
  startKey : Bytes
  endKey : Bytes
  itrExhausted : Bool
  deriving DecidableEq

def RangeQueryInfo.key (rqi : RangeQueryInfo) : RangeQueryKey := ⟨rqi.startKey, rqi.endKey, rqi.itrExhausted⟩

structure CollHashRwBuilder where
  collName : Bytes
  readMap : Map Bytes KVReadHash
  writeMap : Map Bytes KVWriteHash
  metadataWriteMap : Map Bytes KVMetadataWriteHash
  pvtDataHash : Option Bytes

-- The source keeps the range queries in a map and their keys in the order of insertion.
structure NsPubRwBuilder where
  nameSpace : Bytes
  readMap : Map Bytes KVRead
  writeMap : Map Bytes KVWrite
  metadataWriteMap : Map Bytes KVMetadataWrite
  rangeQueries : List RangeQueryInfo
  collHashRwBuilders : Map Bytes CollHashRwBuilder

structure CollPvtRwBuilder where
  collectionName : Bytes
  writeMap : Map Bytes KVWrite
  metadataWriteMap : Map Bytes KVMetadataWrite

structure NsPvtRwBuilder where
  nameSpace : Bytes
  collPvtRwBuilders : Map Bytes CollPvtRwBuilder

structure RWSetBuilder where
  pubRwBuilderMap : Map Bytes NsPubRwBuilder
  pvtRwBuilderMap : Map Bytes NsPvtRwBuilder

def newNsPubRwBuilder (ns : Bytes) : NsPubRwBuilder := ⟨ns, ∅, ∅, ∅, [], ∅⟩

def newNsPvtRwBuilder (ns : Bytes) : NsPvtRwBuilder := ⟨ns, ∅⟩

def newCollHashRwBuilder (coll : Bytes) : CollHashRwBuilder := ⟨coll, ∅, ∅, ∅, none⟩

def newCollPvtRwBuilder (coll : Bytes) : CollPvtRwBuilder := ⟨coll, ∅, ∅⟩

def newRWSetBuilder : RWSetBuilder := ⟨∅, ∅⟩

def newKVRead (key : Bytes) (version : Option Height) : KVRead := ⟨key, version⟩

def newKVWrite (key value : Bytes) : KVWrite := ⟨key, value.isEmpty, value⟩

section

variable (codec : Codec)

def newPvtKVReadHash (key : Bytes) (version : Option Height) : KVReadHash := ⟨codec.computeHash key, version⟩

def newPvtKVWriteHash (key value : Bytes) : KVWriteHash where
  keyHash := codec.computeHash key
  isDelete := value.isEmpty
  valueHash := if value.isEmpty then [] else codec.computeHash value
  isPurge := false

def mapToMetadataWrite (key : Bytes) (metadata : Map Bytes Bytes) : KVMetadataWrite :=
  ⟨key, metadata.toList.map fun e => ⟨e.1, e.2⟩⟩

def mapToMetadataWriteHash (key : Bytes) (metadata : Map Bytes Bytes) : KVMetadataWriteHash :=
  ⟨codec.computeHash key, metadata.toList.map fun e => ⟨e.1, e.2⟩⟩

end

inductive BuilderOp where
  | addToReadSet (ns key : Bytes) (version : Option Height)
  | addToWriteSet (ns key value : Bytes)
  | addToMetadataWriteSet (ns key : Bytes) (metadata : Map Bytes Bytes)
  | addToRangeQuerySet (ns : Bytes) (rqi : RangeQueryInfo)
  | addToHashedReadSet (ns coll key : Bytes) (version : Option Height)
  | addToPvtAndHashedWriteSet (ns coll key value : Bytes)
  | addToPvtAndHashedWriteSetForPurge (ns coll key : Bytes)
  | addToHashedMetadataWriteSet (ns coll key : Bytes) (metadata : Map Bytes Bytes)

namespace RWSetBuilder

variable (b : RWSetBuilder)

def getOrCreateNsPubRwBuilder (ns : Bytes) : NsPubRwBuilder :=
  b.pubRwBuilderMap[ns]?.getD (newNsPubRwBuilder ns)

def getOrCreateNsPvtRwBuilder (ns : Bytes) : NsPvtRwBuilder :=
  b.pvtRwBuilderMap[ns]?.getD (newNsPvtRwBuilder ns)

def setNsPub (ns : Bytes) (nsBuilder : NsPubRwBuilder) : RWSetBuilder :=
  { b with pubRwBuilderMap := b.pubRwBuilderMap.insert ns nsBuilder }

def getOrCreateCollHashedRwBuilder (ns coll : Bytes) : CollHashRwBuilder :=
  (b.getOrCreateNsPubRwBuilder ns).collHashRwBuilders[coll]?.getD (newCollHashRwBuilder coll)

def setCollHashed (ns coll : Bytes) (collBuilder : CollHashRwBuilder) : RWSetBuilder :=
  let nsBuilder := b.getOrCreateNsPubRwBuilder ns
  b.setNsPub ns { nsBuilder with collHashRwBuilders := nsBuilder.collHashRwBuilders.insert coll collBuilder }

def getOrCreateCollPvtRwBuilder (ns coll : Bytes) : CollPvtRwBuilder :=
  (b.getOrCreateNsPvtRwBuilder ns).collPvtRwBuilders[coll]?.getD (newCollPvtRwBuilder coll)

def setCollPvt (ns coll : Bytes) (collBuilder : CollPvtRwBuilder) : RWSetBuilder :=
  let nsBuilder := b.getOrCreateNsPvtRwBuilder ns
  let nsBuilder := { nsBuilder with collPvtRwBuilders := nsBuilder.collPvtRwBuilders.insert coll collBuilder }
  { b with pvtRwBuilderMap := b.pvtRwBuilderMap.insert ns nsBuilder }

def addToReadSet (ns key : Bytes) (version : Option Height) : RWSetBuilder :=
  let nsBuilder := b.getOrCreateNsPubRwBuilder ns
  b.setNsPub ns { nsBuilder with readMap := nsBuilder.readMap.insert key (newKVRead key version) }

def addToWriteSet (ns key value : Bytes) : RWSetBuilder :=
  let nsBuilder := b.getOrCreateNsPubRwBuilder ns
  b.setNsPub ns { nsBuilder with writeMap := nsBuilder.writeMap.insert key (newKVWrite key value) }

def addToMetadataWriteSet (ns key : Bytes) (metadata : Map Bytes Bytes) : RWSetBuilder :=
  let nsBuilder := b.getOrCreateNsPubRwBuilder ns
  b.setNsPub ns { nsBuilder with
    metadataWriteMap := nsBuilder.metadataWriteMap.insert key (mapToMetadataWrite key metadata) }

def addToRangeQuerySet (ns : Bytes) (rqi : RangeQueryInfo) : RWSetBuilder :=
  let nsBuilder := b.getOrCreateNsPubRwBuilder ns
  b.setNsPub ns { nsBuilder with
    rangeQueries :=
      if rqi.key ∈ nsBuilder.rangeQueries.map RangeQueryInfo.key then nsBuilder.rangeQueries
      else nsBuilder.rangeQueries ++ [rqi] }

section

variable (codec : Codec) (b : RWSetBuilder)

def addToHashedReadSet (ns coll key : Bytes) (version : Option Height) : RWSetBuilder :=
  let collBuilder := b.getOrCreateCollHashedRwBuilder ns coll
  b.setCollHashed ns coll { collBuilder with
    readMap := collBuilder.readMap.insert key (newPvtKVReadHash codec key version) }

def addPvtAndHashedWrite (ns coll key : Bytes) (kvWrite : KVWrite) (kvWriteHash : KVWriteHash) :
    RWSetBuilder :=
  let pvtBuilder := b.getOrCreateCollPvtRwBuilder ns coll
  let b := b.setCollPvt ns coll { pvtBuilder with writeMap := pvtBuilder.writeMap.insert key kvWrite }
  let hashBuilder := b.getOrCreateCollHashedRwBuilder ns coll
  b.setCollHashed ns coll { hashBuilder with writeMap := hashBuilder.writeMap.insert key kvWriteHash }

def addToPvtAndHashedWriteSet (ns coll key value : Bytes) : RWSetBuilder :=
  b.addPvtAndHashedWrite ns coll key (newKVWrite key value) (newPvtKVWriteHash codec key value)

def addToPvtAndHashedWriteSetForPurge (ns coll key : Bytes) : RWSetBuilder :=
  b.addPvtAndHashedWrite ns coll key (newKVWrite key []) { newPvtKVWriteHash codec key [] with isPurge := true }

-- The private write-set names the key only; the metadata is stored under the hashed key.
def addToHashedMetadataWriteSet (ns coll key : Bytes) (metadata : Map Bytes Bytes) :
    RWSetBuilder :=
  let pvtBuilder := b.getOrCreateCollPvtRwBuilder ns coll
  let b := b.setCollPvt ns coll { pvtBuilder with
    metadataWriteMap := pvtBuilder.metadataWriteMap.insert key ⟨key, []⟩ }
  let hashBuilder := b.getOrCreateCollHashedRwBuilder ns coll
  b.setCollHashed ns coll { hashBuilder with
    metadataWriteMap := hashBuilder.metadataWriteMap.insert key (mapToMetadataWriteHash codec key metadata) }

def apply : BuilderOp → RWSetBuilder
  | .addToReadSet ns key version => b.addToReadSet ns key version
  | .addToWriteSet ns key value => b.addToWriteSet ns key value
  | .addToMetadataWriteSet ns key metadata => b.addToMetadataWriteSet ns key metadata
  | .addToRangeQuerySet ns rqi => b.addToRangeQuerySet ns rqi
  | .addToHashedReadSet ns coll key version => b.addToHashedReadSet codec ns coll key version
  | .addToPvtAndHashedWriteSet ns coll key value => b.addToPvtAndHashedWriteSet codec ns coll key value
  | .addToPvtAndHashedWriteSetForPurge ns coll key => b.addToPvtAndHashedWriteSetForPurge codec ns coll key
  | .addToHashedMetadataWriteSet ns coll key metadata => b.addToHashedMetadataWriteSet codec ns coll key metadata

def applyAll (ops : List BuilderOp) : RWSetBuilder := ops.foldl (apply codec) newRWSetBuilder

end

theorem getOrCreateNsPubRwBuilder_setNsPub (ns ns' : Bytes) (nsBuilder : NsPubRwBuilder) :
    (b.setNsPub ns nsBuilder).getOrCreateNsPubRwBuilder ns' = if ns = ns' then nsBuilder else b.getOrCreateNsPubRwBuilder ns' := by
  simp only [getOrCreateNsPubRwBuilder, setNsPub, get_insert]
  split <;> rfl

@[simp] theorem getOrCreateNsPubRwBuilder_setCollPvt (ns coll ns' : Bytes) (collBuilder : CollPvtRwBuilder) :
    (b.setCollPvt ns coll collBuilder).getOrCreateNsPubRwBuilder ns' = b.getOrCreateNsPubRwBuilder ns' := rfl

@[simp] theorem getOrCreateCollHashedRwBuilder_setCollPvt (ns coll ns' coll' : Bytes) (collBuilder : CollPvtRwBuilder) :
    (b.setCollPvt ns coll collBuilder).getOrCreateCollHashedRwBuilder ns' coll' = b.getOrCreateCollHashedRwBuilder ns' coll' := rfl

theorem getOrCreateCollHashedRwBuilder_setNsPub (ns ns' coll' : Bytes) (nsBuilder : NsPubRwBuilder)
    (kept : nsBuilder.collHashRwBuilders = (b.getOrCreateNsPubRwBuilder ns).collHashRwBuilders) :
    (b.setNsPub ns nsBuilder).getOrCreateCollHashedRwBuilder ns' coll' = b.getOrCreateCollHashedRwBuilder ns' coll' := by
  unfold getOrCreateCollHashedRwBuilder
  rw [getOrCreateNsPubRwBuilder_setNsPub]
  split
  · rename_i same
    rw [kept, same]
  · rfl

theorem getOrCreateCollHashedRwBuilder_setCollHashed (ns coll ns' coll' : Bytes)
    (collBuilder : CollHashRwBuilder) : (b.setCollHashed ns coll collBuilder).getOrCreateCollHashedRwBuilder ns' coll' =
      if ns = ns' ∧ coll = coll' then collBuilder else b.getOrCreateCollHashedRwBuilder ns' coll' := by
  unfold getOrCreateCollHashedRwBuilder setCollHashed
  rw [getOrCreateNsPubRwBuilder_setNsPub]
  by_cases sameNs : ns = ns'
  · subst sameNs
    simp only [if_true, true_and, get_insert]
    split <;> rfl
  · simp [sameNs]

theorem getOrCreateNsPubRwBuilder_setCollHashed (ns coll ns' : Bytes) (collBuilder : CollHashRwBuilder) :
    ∃ colls, (b.setCollHashed ns coll collBuilder).getOrCreateNsPubRwBuilder ns' =
      { b.getOrCreateNsPubRwBuilder ns' with collHashRwBuilders := colls } := by
  unfold setCollHashed
  rw [getOrCreateNsPubRwBuilder_setNsPub]
  split
  · rename_i same
    subst same
    exact ⟨_, rfl⟩
  · exact ⟨_, rfl⟩

end RWSetBuilder

def getValuesBySortedKeys {V : Type} (m : Map Bytes V) : List V := m.toList.map (·.2)

def CollHashRwBuilder.build (b : CollHashRwBuilder) : CollHashedRwSet where
  collectionName := b.collName
  hashedRwSet :=
    ⟨getValuesBySortedKeys b.readMap, getValuesBySortedKeys b.writeMap, getValuesBySortedKeys b.metadataWriteMap⟩
  pvtRwSetHash := b.pvtDataHash

def NsPubRwBuilder.build (b : NsPubRwBuilder) : NsRwSet where
  nameSpace := b.nameSpace
  kvRwSet :=
    { reads := getValuesBySortedKeys b.readMap
      writes := getValuesBySortedKeys b.writeMap
      metadataWrites := getValuesBySortedKeys b.metadataWriteMap
      rangeQueriesInfo := b.rangeQueries }
  collHashedRwSets := (getValuesBySortedKeys b.collHashRwBuilders).map CollHashRwBuilder.build

def CollPvtRwBuilder.build (b : CollPvtRwBuilder) : CollPvtRwSet where
  collectionName := b.collectionName
  kvRwSet := ⟨getValuesBySortedKeys b.writeMap, getValuesBySortedKeys b.metadataWriteMap⟩

def NsPvtRwBuilder.build (b : NsPvtRwBuilder) : NsPvtRwSet where
  nameSpace := b.nameSpace
  collPvtRwSets := (getValuesBySortedKeys b.collPvtRwBuilders).map CollPvtRwBuilder.build

structure TxSimulationResults where
  pubSimulationResults : TxRwSet
  pvtSimulationResults : Option TxPvtRwSet

theorem mem_getValuesBySortedKeys {V : Type} {m : Map Bytes V} {v : V} : v ∈ getValuesBySortedKeys m ↔ ∃ key : Bytes, m[key]? = some v := by
  simp [getValuesBySortedKeys, mem_toList_iff_getElem?_eq_some]

namespace RWSetBuilder

variable (b : RWSetBuilder)

def getTxReadWriteSet : TxRwSet :=
  ⟨(getValuesBySortedKeys b.pubRwBuilderMap).map NsPubRwBuilder.build⟩

def getTxPvtReadWriteSet : Option TxPvtRwSet :=
  let nsPvtRwSets := (getValuesBySortedKeys b.pvtRwBuilderMap).map NsPvtRwBuilder.build
  if nsPvtRwSets.isEmpty then none else some ⟨nsPvtRwSets⟩

def setPvtCollectionHash (codec : Codec) (ns : Bytes) (b : RWSetBuilder) (coll : CollPvtRwSet) : RWSetBuilder :=
  b.setCollHashed ns coll.collectionName { b.getOrCreateCollHashedRwBuilder ns coll.collectionName with
    pvtDataHash := some (codec.computeHash (codec.marshalKVRWSet coll.kvRwSet)) }

def setPvtCollectionHashes (codec : Codec) (pvtData : TxPvtRwSet) : RWSetBuilder :=
  pvtData.nsPvtRwSet.foldl (fun b ns => ns.collPvtRwSets.foldl (setPvtCollectionHash codec ns.nameSpace) b) b

def getTxSimulationResults (codec : Codec) : TxSimulationResults :=
  let pvtData := b.getTxPvtReadWriteSet
  let b := match pvtData with
    | none => b
    | some pvtData => b.setPvtCollectionHashes codec pvtData
  ⟨b.getTxReadWriteSet, pvtData⟩

end RWSetBuilder

end Fabric.Ledger
