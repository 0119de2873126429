import Fabric.Ledger.RwsetBuilder

/-! # What the operations of a builder add up to -/

namespace Fabric.Proof.TxMgr

open Lib Fabric.Ledger RWSetBuilder
open List hiding ext_getElem? getElem?_insert getElem?_map
open RWSetBuilder (applyAll)

variable {V W : Type}

theorem map_putAll (f : Bytes → V → W) (m : Map Bytes V) (entries : List (Bytes × V)) :
    (putAll m entries).map f = putAll (m.map f) (entries.map fun e => (e.1, f e.1 e.2)) := by
  induction entries generalizing m with
  | nil => rfl
  | cons e entries ih =>
    have inserted : (m.insert e.1 e.2).map f = (m.map f).insert e.1 (f e.1 e.2) := by
      refine ext_getElem? fun key => ?_
      simp only [getElem?_map, get_insert]
      split
      · rename_i same
        rw [same]
        rfl
      · rfl
    exact (ih _).trans (by rw [inserted]; rfl)

section

variable (ns coll : Bytes)

def readsOf : BuilderOp → List (Bytes × Option Height)
  | .addToReadSet ns' key version => if ns' = ns then [(key, version)] else []
  | _ => []

def writesOf : BuilderOp → List (Bytes × Bytes)
  | .addToWriteSet ns' key value => if ns' = ns then [(key, value)] else []
  | _ => []

def metadataOf : BuilderOp → List (Bytes × Map Bytes Bytes)
  | .addToMetadataWriteSet ns' key metadata => if ns' = ns then [(key, metadata)] else []
  | _ => []

def hashedReadsOf : BuilderOp → List (Bytes × Option Height)
  | .addToHashedReadSet ns' coll' key version => if ns' = ns ∧ coll' = coll then [(key, version)] else []
  | _ => []

def pvtWritesOf : BuilderOp → List (Bytes × Bytes × Bool)
  | .addToPvtAndHashedWriteSet ns' coll' key value => if ns' = ns ∧ coll' = coll then [(key, value, false)] else []
  | .addToPvtAndHashedWriteSetForPurge ns' coll' key => if ns' = ns ∧ coll' = coll then [(key, [], true)] else []
  | _ => []

def pvtMetadataOf : BuilderOp → List (Bytes × Map Bytes Bytes)
  | .addToHashedMetadataWriteSet ns' coll' key metadata => if ns' = ns ∧ coll' = coll then [(key, metadata)] else []
  | _ => []

end

variable (codec : Codec)

def hashedWriteOf (key : Bytes) (w : Bytes × Bool) : KVWriteHash := { newPvtKVWriteHash codec key w.1 with isPurge := w.2 }

section

variable (b : RWSetBuilder) (op : BuilderOp) (ns coll : Bytes)

theorem getOrCreateNsPubRwBuilder_apply :
    ∃ colls queries, (b.apply codec op).getOrCreateNsPubRwBuilder ns = { b.getOrCreateNsPubRwBuilder ns with
      readMap := putAll (b.getOrCreateNsPubRwBuilder ns).readMap
        ((readsOf ns op).map fun e => (e.1, newKVRead e.1 e.2))
      writeMap := putAll (b.getOrCreateNsPubRwBuilder ns).writeMap
        ((writesOf ns op).map fun e => (e.1, newKVWrite e.1 e.2))
      metadataWriteMap := putAll (b.getOrCreateNsPubRwBuilder ns).metadataWriteMap
        ((metadataOf ns op).map fun e => (e.1, mapToMetadataWrite e.1 e.2))
      rangeQueries := queries
      collHashRwBuilders := colls } ∧
    ((∀ ns rqi, op ≠ .addToRangeQuerySet ns rqi) → queries = (b.getOrCreateNsPubRwBuilder ns).rangeQueries) := by
  cases op with
  | addToReadSet ns' | addToWriteSet ns' | addToMetadataWriteSet ns' | addToRangeQuerySet ns' =>
    simp only [apply, addToReadSet, addToWriteSet, addToMetadataWriteSet, addToRangeQuerySet,
      getOrCreateNsPubRwBuilder_setNsPub, readsOf, writesOf, metadataOf]
    split
    · rename_i same
      subst same
      exact ⟨_, _, rfl, by simp⟩
    · exact ⟨_, _, rfl, fun _ => rfl⟩
  | _ =>
    obtain ⟨colls, changed⟩ := getOrCreateNsPubRwBuilder_setCollHashed _ _ _ ns _
    exact ⟨colls, _, changed, fun _ => rfl⟩

theorem getOrCreateCollHashedRwBuilder_apply : (b.apply codec op).getOrCreateCollHashedRwBuilder ns coll =
      { b.getOrCreateCollHashedRwBuilder ns coll with
        readMap := putAll (b.getOrCreateCollHashedRwBuilder ns coll).readMap
          ((hashedReadsOf ns coll op).map fun e => (e.1, newPvtKVReadHash codec e.1 e.2))
        writeMap := putAll (b.getOrCreateCollHashedRwBuilder ns coll).writeMap
          ((pvtWritesOf ns coll op).map fun e => (e.1, hashedWriteOf codec e.1 e.2))
        metadataWriteMap := putAll (b.getOrCreateCollHashedRwBuilder ns coll).metadataWriteMap
          ((pvtMetadataOf ns coll op).map fun e => (e.1, mapToMetadataWriteHash codec e.1 e.2)) } := by
  cases op with
  | addToReadSet | addToWriteSet | addToMetadataWriteSet | addToRangeQuerySet =>
    exact getOrCreateCollHashedRwBuilder_setNsPub _ _ _ _ _ rfl
  | _ =>
    refine (getOrCreateCollHashedRwBuilder_setCollHashed _ _ _ _ _ _).trans ?_
    simp only [hashedReadsOf, pvtWritesOf, pvtMetadataOf]
    split
    · rename_i same
      obtain ⟨rfl, rfl⟩ := same
      rfl
    · rfl

theorem getOrCreateNsPvtRwBuilder_setCollPvt (ns' coll' : Bytes) (pb : CollPvtRwBuilder) :
    (b.setCollPvt ns' coll' pb).getOrCreateNsPvtRwBuilder ns = if ns' = ns then
        { b.getOrCreateNsPvtRwBuilder ns' with
          collPvtRwBuilders := (b.getOrCreateNsPvtRwBuilder ns').collPvtRwBuilders.insert coll' pb }
      else b.getOrCreateNsPvtRwBuilder ns := by
  simp only [getOrCreateNsPvtRwBuilder, setCollPvt, getElem?_insert, Std.LawfulEqCmp.compare_eq_iff_eq]
  split <;> rfl

theorem getOrCreateCollPvtRwBuilder_setCollPvt (ns' coll' : Bytes) (pb : CollPvtRwBuilder) :
    (b.setCollPvt ns' coll' pb).getOrCreateCollPvtRwBuilder ns coll =
      if ns' = ns ∧ coll' = coll then pb else b.getOrCreateCollPvtRwBuilder ns coll := by
  unfold getOrCreateCollPvtRwBuilder
  rw [getOrCreateNsPvtRwBuilder_setCollPvt]
  by_cases sameNs : ns' = ns
  · subst sameNs
    simp only [if_true, true_and, get_insert]
    split <;> rfl
  · simp [sameNs]

theorem getOrCreateCollPvtRwBuilder_apply :
    (b.apply codec op).getOrCreateCollPvtRwBuilder ns coll = { b.getOrCreateCollPvtRwBuilder ns coll with
      writeMap := putAll (b.getOrCreateCollPvtRwBuilder ns coll).writeMap
        ((pvtWritesOf ns coll op).map fun e => (e.1, newKVWrite e.1 e.2.1))
      metadataWriteMap := putAll (b.getOrCreateCollPvtRwBuilder ns coll).metadataWriteMap
        ((pvtMetadataOf ns coll op).map fun e => (e.1, ⟨e.1, []⟩)) } := by
  cases op with
  | addToPvtAndHashedWriteSet | addToPvtAndHashedWriteSetForPurge | addToHashedMetadataWriteSet =>
    refine (getOrCreateCollPvtRwBuilder_setCollPvt _ _ _ _ _ _).trans ?_
    simp only [pvtWritesOf, pvtMetadataOf]
    split
    · rename_i same
      obtain ⟨rfl, rfl⟩ := same
      rfl
    · rfl
  | _ => rfl

end

section

variable (ns coll : Bytes) (ops : List BuilderOp)

def readsBy : Map Bytes (Option Height) := putAll ∅ (ops.flatMap (readsOf ns))

def hashedReadsBy : Map Bytes (Option Height) := putAll ∅ (ops.flatMap (hashedReadsOf ns coll))

def writesBy : Map Bytes Bytes := putAll ∅ (ops.flatMap (writesOf ns))

def metadataBy : Map Bytes (Map Bytes Bytes) := putAll ∅ (ops.flatMap (metadataOf ns))

def pvtWritesBy : Map Bytes (Bytes × Bool) := putAll ∅ (ops.flatMap (pvtWritesOf ns coll))

def pvtMetadataBy : Map Bytes (Map Bytes Bytes) := putAll ∅ (ops.flatMap (pvtMetadataOf ns coll))

def writesColl : BuilderOp → Bool
  | .addToPvtAndHashedWriteSet ns' coll' _ _ => ns' = ns ∧ coll' = coll
  | .addToPvtAndHashedWriteSetForPurge ns' coll' _ => ns' = ns ∧ coll' = coll
  | .addToHashedMetadataWriteSet ns' coll' _ _ => ns' = ns ∧ coll' = coll
  | _ => false

def usesColl : BuilderOp → Bool
  | .addToHashedReadSet ns' coll' _ _ => ns' = ns ∧ coll' = coll
  | op => writesColl ns coll op

theorem applyAll_concat (op : BuilderOp) : applyAll codec (ops ++ [op]) = (applyAll codec ops).apply codec op := by
  rw [applyAll, foldl_append]
  rfl

theorem map_putAll_concat (f : BuilderOp → List (Bytes × V)) (g : Bytes → V → W) (op : BuilderOp) :
    (putAll ∅ ((ops ++ [op]).flatMap f)).map g = putAll ((putAll ∅ (ops.flatMap f)).map g) ((f op).map fun e => (e.1, g e.1 e.2)) := by
  rw [flatMap_append, putAll_append, map_putAll]
  simp

theorem getOrCreateNsPubRwBuilder_applyAll : ∃ queries colls, (applyAll codec ops).getOrCreateNsPubRwBuilder ns =
      ⟨ns, (readsBy ns ops).map newKVRead, (writesBy ns ops).map newKVWrite, (metadataBy ns ops).map mapToMetadataWrite, queries, colls⟩ := by
  induction ops using reverseRecOn with
  | nil => exact ⟨[], ∅, rfl⟩
  | append_singleton ops op ih =>
    obtain ⟨queries, colls, before⟩ := ih
    obtain ⟨colls', queries', changed, _⟩ :=
      getOrCreateNsPubRwBuilder_apply codec (applyAll codec ops) op ns
    rw [applyAll_concat, changed, before]
    exact ⟨_, _, by simp only [readsBy, writesBy, metadataBy, map_putAll_concat]; rfl⟩

theorem getOrCreateCollHashedRwBuilder_applyAll : (applyAll codec ops).getOrCreateCollHashedRwBuilder ns coll =
      ⟨coll, (hashedReadsBy ns coll ops).map (newPvtKVReadHash codec), (pvtWritesBy ns coll ops).map (hashedWriteOf codec),
        (pvtMetadataBy ns coll ops).map (mapToMetadataWriteHash codec), none⟩ := by
  induction ops using reverseRecOn with
  | nil => rfl
  | append_singleton ops op ih =>
    rw [applyAll_concat, getOrCreateCollHashedRwBuilder_apply, ih]
    simp only [hashedReadsBy, pvtWritesBy, pvtMetadataBy, map_putAll_concat]

theorem getOrCreateCollPvtRwBuilder_applyAll : (applyAll codec ops).getOrCreateCollPvtRwBuilder ns coll =
      ⟨coll, (pvtWritesBy ns coll ops).map fun key w => newKVWrite key w.1, (pvtMetadataBy ns coll ops).map fun key _ => ⟨key, []⟩⟩ := by
  induction ops using reverseRecOn with
  | nil => rfl
  | append_singleton ops op ih =>
    rw [applyAll_concat, getOrCreateCollPvtRwBuilder_apply, ih]
    simp only [pvtWritesBy, pvtMetadataBy, map_putAll_concat]

theorem nameSpace_getOrCreateNsPvtRwBuilder : ((applyAll codec ops).getOrCreateNsPvtRwBuilder ns).nameSpace = ns := by
  induction ops using reverseRecOn with
  | nil => rfl
  | append_singleton ops op ih =>
    rw [applyAll_concat]
    cases op with
    | addToPvtAndHashedWriteSet | addToPvtAndHashedWriteSetForPurge | addToHashedMetadataWriteSet =>
      refine (congrArg NsPvtRwBuilder.nameSpace (getOrCreateNsPvtRwBuilder_setCollPvt _ _ _ _ _)).trans ?_
      split
      · rename_i same
        rw [same]
        exact ih
      · exact ih
    | _ => exact ih

theorem isSome_collPvtRwBuilders : ((applyAll codec ops).getOrCreateNsPvtRwBuilder ns).collPvtRwBuilders[coll]?.isSome =
      ops.any (writesColl ns coll) := by
  induction ops using reverseRecOn with
  | nil => rfl
  | append_singleton ops op ih =>
    rw [applyAll_concat, any_append, ← ih]
    cases op with
    | addToPvtAndHashedWriteSet ns' coll' | addToPvtAndHashedWriteSetForPurge ns' coll'
    | addToHashedMetadataWriteSet ns' coll' =>
      refine (congrArg (fun nb : NsPvtRwBuilder => nb.collPvtRwBuilders[coll]?.isSome)
        (getOrCreateNsPvtRwBuilder_setCollPvt _ _ _ _ _)).trans ?_
      by_cases sameNs : ns' = ns
      · subst sameNs
        by_cases sameColl : coll' = coll <;> simp [writesColl, sameColl, getElem?_insert]
      · simp [writesColl, sameNs]
    | _ =>
      simp [writesColl, apply]
      rfl

theorem isSome_collHashRwBuilders : ((applyAll codec ops).getOrCreateNsPubRwBuilder ns).collHashRwBuilders[coll]?.isSome =
      ops.any (usesColl ns coll) := by
  induction ops using reverseRecOn with
  | nil => rfl
  | append_singleton ops op ih =>
    rw [applyAll_concat, any_append, ← ih]
    cases op with
    | addToReadSet ns' | addToWriteSet ns' | addToMetadataWriteSet ns' | addToRangeQuerySet ns' =>
      refine (congrArg (fun nb : NsPubRwBuilder => nb.collHashRwBuilders[coll]?.isSome)
        (getOrCreateNsPubRwBuilder_setNsPub _ _ _ _)).trans ?_
      by_cases sameNs : ns' = ns <;> simp [usesColl, writesColl, sameNs]
    | addToHashedReadSet ns' coll' | addToPvtAndHashedWriteSet ns' coll' | addToPvtAndHashedWriteSetForPurge ns' coll'
    | addToHashedMetadataWriteSet ns' coll' =>
      refine (congrArg (fun nb : NsPubRwBuilder => nb.collHashRwBuilders[coll]?.isSome)
        (getOrCreateNsPubRwBuilder_setNsPub _ _ _ _)).trans ?_
      by_cases sameNs : ns' = ns
      · subst sameNs
        by_cases sameColl : coll' = coll <;> simp [usesColl, writesColl, sameColl, getElem?_insert]
      · simp [usesColl, writesColl, sameNs]

end

def collSets (data : TxPvtRwSet) : List (Bytes × CollPvtRwSet) :=
  data.nsPvtRwSet.flatMap fun ns => ns.collPvtRwSets.map fun c => (ns.nameSpace, c)

theorem setPvtCollectionHashes_eq (b : RWSetBuilder) (data : TxPvtRwSet) : b.setPvtCollectionHashes codec data =
      (collSets data).foldl (fun b e => b.setPvtCollectionHash codec e.1 e.2) b := by
  simp [setPvtCollectionHashes, collSets, foldl_flatMap, foldl_map]

structure Hashed (b b' : RWSetBuilder) (sets : List (Bytes × CollPvtRwSet)) : Prop where
  ns : ∀ ns, ∃ colls, b'.getOrCreateNsPubRwBuilder ns =
    { b.getOrCreateNsPubRwBuilder ns with collHashRwBuilders := colls }
  colls : ∀ ns coll, b'.getOrCreateCollHashedRwBuilder ns coll = { b.getOrCreateCollHashedRwBuilder ns coll with
    pvtDataHash := if (ns, coll) ∈ sets.map (fun e => (e.1, e.2.collectionName)) then
        some (codec.computeHash (codec.marshalKVRWSet (b.getOrCreateCollPvtRwBuilder ns coll).build.kvRwSet))
      else none }
  stored : ∀ (ns coll : Bytes), (b'.getOrCreateNsPubRwBuilder ns).collHashRwBuilders[coll]?.isSome ↔
    (b.getOrCreateNsPubRwBuilder ns).collHashRwBuilders[coll]?.isSome ∨
      (ns, coll) ∈ sets.map fun e => (e.1, e.2.collectionName)

theorem hashed_setPvtCollectionHash {b : RWSetBuilder} {sets : List (Bytes × CollPvtRwSet)}
    (unhashed : ∀ ns coll, (b.getOrCreateCollHashedRwBuilder ns coll).pvtDataHash = none)
    (genuine : ∀ e ∈ sets, e.2.kvRwSet = (b.getOrCreateCollPvtRwBuilder e.1 e.2.collectionName).build.kvRwSet) :
    Hashed codec b (sets.foldl (fun b e => b.setPvtCollectionHash codec e.1 e.2) b) sets := by
  induction sets using reverseRecOn with
  | nil => exact ⟨fun ns => ⟨_, rfl⟩, fun ns coll => by simp [← unhashed ns coll], by simp⟩
  | append_singleton sets e ih =>
    have before := ih fun e mem => genuine e (mem_append_left _ mem)
    have isSet := genuine e (by simp)
    rw [foldl_append, foldl_cons, foldl_nil]
    generalize sets.foldl (fun b e => b.setPvtCollectionHash codec e.1 e.2) b = b' at before
    obtain ⟨ns, c⟩ := e
    have listed : ∀ {ns' coll}, (ns', coll) ∈ (sets ++ [(ns, c)]).map (fun e => (e.1, e.2.collectionName)) ↔
        (ns', coll) ∈ sets.map (fun e => (e.1, e.2.collectionName)) ∨ ns = ns' ∧ c.collectionName = coll := by
      intro ns' coll
      rw [map_append, mem_append]
      simp [eq_comm]
    constructor
    · intro ns'
      obtain ⟨colls, same⟩ := before.ns ns'
      obtain ⟨colls', changed⟩ := getOrCreateNsPubRwBuilder_setCollHashed b' ns c.collectionName ns' _
      exact ⟨colls', by rw [setPvtCollectionHash, changed, same]⟩
    · intro ns' coll
      rw [setPvtCollectionHash, getOrCreateCollHashedRwBuilder_setCollHashed]
      by_cases same : ns = ns' ∧ c.collectionName = coll
      · obtain ⟨rfl, rfl⟩ := same
        simp [before.colls, ← isSet]
      · rw [if_neg same, before.colls]
        simp only [listed, same, or_false]
    · intro ns' coll
      rw [listed, ← or_assoc, ← before.stored, setPvtCollectionHash, setCollHashed, getOrCreateNsPubRwBuilder_setNsPub]
      by_cases sameNs : ns = ns'
      · subst sameNs
        by_cases sameColl : c.collectionName = coll <;> simp [sameColl, getElem?_insert]
      · simp [sameNs]

variable (ops : List BuilderOp) {ns : Bytes}

def pvtSetBy (ns coll : Bytes) : PvtKVRWSet :=
  ⟨(pvtWritesBy ns coll ops).toList.map fun e => newKVWrite e.1 e.2.1,
    (pvtMetadataBy ns coll ops).toList.map fun e => ⟨e.1, []⟩⟩

theorem getValuesBySortedKeys_map (m : Map Bytes V) (f : Bytes → V → W) :
    getValuesBySortedKeys (m.map f) = m.toList.map fun e => f e.1 e.2 := by
  simp [getValuesBySortedKeys, Std.ExtTreeMap.toList_map, Function.comp_def]

theorem build_collPvtRwBuilder (ns coll : Bytes) :
    ((applyAll codec ops).getOrCreateCollPvtRwBuilder ns coll).build = ⟨coll, pvtSetBy ops ns coll⟩ := by
  simp [getOrCreateCollPvtRwBuilder_applyAll, CollPvtRwBuilder.build, getValuesBySortedKeys_map, pvtSetBy]

theorem mem_collSets {data : TxPvtRwSet} (pvtData : (applyAll codec ops).getTxPvtReadWriteSet = some data) {c : CollPvtRwSet} :
    (ns, c) ∈ collSets data ↔ ops.any (writesColl ns c.collectionName) ∧ c.kvRwSet = pvtSetBy ops ns c.collectionName := by
  generalize built : applyAll codec ops = b at pvtData
  have sets : data = ⟨(getValuesBySortedKeys b.pvtRwBuilderMap).map NsPvtRwBuilder.build⟩ := by
    unfold getTxPvtReadWriteSet at pvtData
    simp only [Option.ite_none_left_eq_some, Option.some.injEq] at pvtData
    exact pvtData.2.symm
  have named : ∀ (ns : Bytes) nb, b.pvtRwBuilderMap[ns]? = some nb → nb.nameSpace = ns ∧ b.getOrCreateNsPvtRwBuilder ns = nb := by
    intro ns nb found
    have stored : b.getOrCreateNsPvtRwBuilder ns = nb := by simp [getOrCreateNsPvtRwBuilder, found]
    refine ⟨?_, stored⟩
    rw [← stored, ← built]
    exact nameSpace_getOrCreateNsPvtRwBuilder codec ns ops
  have collBuilt : ∀ {ns coll : Bytes} {pb}, (b.getOrCreateNsPvtRwBuilder ns).collPvtRwBuilders[coll]? = some pb →
      pb.build = ⟨coll, pvtSetBy ops ns coll⟩ := by
    intro ns coll pb stored
    rw [← build_collPvtRwBuilder codec, built]
    simp [getOrCreateCollPvtRwBuilder, stored]
  rw [← isSome_collPvtRwBuilders codec, built]
  simp only [sets, collSets, mem_flatMap, mem_map, mem_getValuesBySortedKeys]
  constructor
  · rintro ⟨_, ⟨nb, ⟨ns', found⟩, rfl⟩, c', mem, same⟩
    obtain ⟨rfl, rfl⟩ := Prod.mk.inj same
    obtain ⟨pb, ofNs, rfl⟩ := mem_map.mp mem
    obtain ⟨coll, stored⟩ := mem_getValuesBySortedKeys.mp ofNs
    obtain ⟨rfl, isNs⟩ := named ns' nb found
    rw [← isNs] at stored
    rw [show nb.build.nameSpace = nb.nameSpace from rfl, collBuilt stored]
    exact ⟨by rw [stored]; rfl, rfl⟩
  · rintro ⟨isStored, isSet⟩
    obtain ⟨pb, stored⟩ := Option.isSome_iff_exists.mp isStored
    cases found : b.pvtRwBuilderMap[ns]? with
    | none => simp [getOrCreateNsPvtRwBuilder, found, newNsPvtRwBuilder] at stored
    | some nb =>
      obtain ⟨rfl, isNs⟩ := named ns nb found
      refine ⟨nb.build, ⟨nb, ⟨_, found⟩, rfl⟩, c, ?_, rfl⟩
      refine mem_map.mpr ⟨pb, mem_getValuesBySortedKeys.mpr ⟨c.collectionName, isNs ▸ stored⟩, ?_⟩
      rw [collBuilt stored, ← isSet]

theorem unwritten_of_none (pvtData : (applyAll codec ops).getTxPvtReadWriteSet = none) (ns coll : Bytes) :
    ops.any (writesColl ns coll) = false := by
  have empty : (applyAll codec ops).pvtRwBuilderMap[ns]? = none := by
    refine Option.eq_none_iff_forall_ne_some.mpr fun nb found => ?_
    have mem := mem_getValuesBySortedKeys.mpr ⟨ns, found⟩
    simp only [getTxPvtReadWriteSet, isEmpty_map, ite_eq_left_iff, reduceCtorEq, imp_false, not_not, List.isEmpty_iff] at pvtData
    simp [pvtData] at mem
  rw [← isSome_collPvtRwBuilders codec, getOrCreateNsPvtRwBuilder, empty]
  simp [newNsPvtRwBuilder]

theorem hashed_of_results : ∃ b' sets, ((applyAll codec ops).getTxSimulationResults codec).pubSimulationResults = b'.getTxReadWriteSet ∧
      Hashed codec (applyAll codec ops) b' sets ∧
      ∀ (ns coll : Bytes), (ns, coll) ∈ sets.map (fun e => (e.1, e.2.collectionName)) ↔ ops.any (writesColl ns coll) := by
  have unhashed : ∀ ns coll, ((applyAll codec ops).getOrCreateCollHashedRwBuilder ns coll).pvtDataHash = none := by
    intro ns coll
    rw [getOrCreateCollHashedRwBuilder_applyAll]
  cases pvtData : (applyAll codec ops).getTxPvtReadWriteSet with
  | none =>
    exact ⟨_, [], by rw [getTxSimulationResults, pvtData]; rfl,
      hashed_setPvtCollectionHash codec unhashed (by simp), fun ns coll => by simp [unwritten_of_none codec ops pvtData]⟩
  | some data =>
    refine ⟨(applyAll codec ops).setPvtCollectionHashes codec data, collSets data,
      by rw [getTxSimulationResults, pvtData], ?_, fun ns coll => ?_⟩
    · rw [setPvtCollectionHashes_eq]
      refine hashed_setPvtCollectionHash codec unhashed fun e mem => ?_
      rw [build_collPvtRwBuilder]
      exact ((mem_collSets codec ops pvtData).mp mem).2
    · rw [mem_map]
      constructor
      · rintro ⟨⟨ns, c⟩, mem, same⟩
        cases same
        exact ((mem_collSets codec ops pvtData).mp mem).1
      · intro written
        exact ⟨(ns, ⟨coll, pvtSetBy ops ns coll⟩), (mem_collSets codec ops pvtData).mpr ⟨written, rfl⟩, rfl⟩

structure CollResult (ns : Bytes) (c : CollHashedRwSet) : Prop where
  used : ops.any (usesColl ns c.collectionName)
  reads : c.hashedRwSet.hashedReads =
    (hashedReadsBy ns c.collectionName ops).toList.map fun e => newPvtKVReadHash codec e.1 e.2
  writes : c.hashedRwSet.hashedWrites =
    (pvtWritesBy ns c.collectionName ops).toList.map fun e => hashedWriteOf codec e.1 e.2
  metadataWrites : c.hashedRwSet.metadataWrites =
    (pvtMetadataBy ns c.collectionName ops).toList.map fun e => mapToMetadataWriteHash codec e.1 e.2
  hash : c.pvtRwSetHash = if ops.any (writesColl ns c.collectionName) then
      some (codec.computeHash (codec.marshalKVRWSet (pvtSetBy ops ns c.collectionName)))
    else none

variable {codec ops} in
theorem CollResult.unwritten {c : CollHashedRwSet} (result : CollResult codec ops ns c)
    (unused : ¬ ops.any (writesColl ns c.collectionName)) : c.hashedRwSet.hashedWrites = [] ∧ c.hashedRwSet.metadataWrites = [] := by
  have nothing : ∀ op ∈ ops, pvtWritesOf ns c.collectionName op = [] ∧ pvtMetadataOf ns c.collectionName op = [] := by
    intro op mem
    have other := fun writes => unused (any_eq_true.mpr ⟨op, mem, writes⟩)
    cases op <;> simp_all [writesColl, pvtWritesOf, pvtMetadataOf]
  constructor
  · rw [result.writes, pvtWritesBy, flatMap_eq_nil_iff.mpr fun op mem => (nothing op mem).1]
    simp [putAll]
  · rw [result.metadataWrites, pvtMetadataBy, flatMap_eq_nil_iff.mpr fun op mem => (nothing op mem).2]
    simp [putAll]

structure NsResult (n : NsRwSet) : Prop where
  reads : n.kvRwSet.reads = (readsBy n.nameSpace ops).toList.map fun e => newKVRead e.1 e.2
  writes : n.kvRwSet.writes = (writesBy n.nameSpace ops).toList.map fun e => newKVWrite e.1 e.2
  metadataWrites : n.kvRwSet.metadataWrites =
    (metadataBy n.nameSpace ops).toList.map fun e => mapToMetadataWrite e.1 e.2
  sorted : (n.collHashedRwSets.map (·.collectionName)).Pairwise fun a b => compare a b = .lt
  colls : ∀ c ∈ n.collHashedRwSets, CollResult codec ops n.nameSpace c

theorem map_values_eq_keys {m : Map Bytes V} {f : V → Bytes}
    (named : ∀ (key : Bytes) (v : V), m[key]? = some v → f v = key) : (getValuesBySortedKeys m).map f = m.toList.map (·.1) := by
  rw [getValuesBySortedKeys, map_map]
  refine map_congr_left fun e mem => ?_
  exact named e.1 e.2 (mem_toList_iff_getElem?_eq_some.mp mem)

theorem sorted_of_named {m : Map Bytes V} {f : V → Bytes} (named : ∀ (key : Bytes) (v : V), m[key]? = some v → f v = key) :
    ((getValuesBySortedKeys m).map f).Pairwise fun a b => compare a b = .lt := by
  rw [map_values_eq_keys named]
  exact pairwise_map.mpr (KeySorted.toList m)

theorem usesColl_of_writesColl {coll : Bytes} {ops : List BuilderOp} (written : ops.any (writesColl ns coll)) :
    ops.any (usesColl ns coll) := by
  obtain ⟨op, mem, writes⟩ := any_eq_true.mp written
  refine any_eq_true.mpr ⟨op, mem, ?_⟩
  cases op <;> first | exact writes | cases writes

theorem nsResults : (((applyAll codec ops).getTxSimulationResults codec).pubSimulationResults.nsRwSets.map
        (·.nameSpace)).Pairwise (fun a b => compare a b = .lt) ∧
      (∀ n ∈ ((applyAll codec ops).getTxSimulationResults codec).pubSimulationResults.nsRwSets, NsResult codec ops n) ∧
      ∀ ns coll, ops.any (usesColl ns coll) → ∃ n ∈ ((applyAll codec ops).getTxSimulationResults codec).pubSimulationResults.nsRwSets,
          n.nameSpace = ns ∧ ∃ c ∈ n.collHashedRwSets, c.collectionName = coll := by
  obtain ⟨b', sets, results, hashed, listed⟩ := hashed_of_results codec ops
  rw [results]
  have stored : ∀ (ns coll : Bytes), (b'.getOrCreateNsPubRwBuilder ns).collHashRwBuilders[coll]?.isSome ↔ ops.any (usesColl ns coll) := by
    intro ns coll
    rw [hashed.stored, isSome_collHashRwBuilders, listed, or_iff_left_iff_imp]
    exact usesColl_of_writesColl
  have collBuilt : ∀ {ns coll : Bytes} {cb}, (b'.getOrCreateNsPubRwBuilder ns).collHashRwBuilders[coll]? = some cb →
        cb.collName = coll ∧ CollResult codec ops ns cb.build := by
    intro ns coll cb found
    have isColl : cb = b'.getOrCreateCollHashedRwBuilder ns coll := by
      simp [getOrCreateCollHashedRwBuilder, found]
    rw [hashed.colls, getOrCreateCollHashedRwBuilder_applyAll, build_collPvtRwBuilder] at isColl
    subst isColl
    exact ⟨rfl, (stored ns coll).mp (by rw [found]; rfl), getValuesBySortedKeys_map _ _, getValuesBySortedKeys_map _ _,
      getValuesBySortedKeys_map _ _, by simp [CollHashRwBuilder.build, listed]⟩
  have nsBuilt : ∀ (ns : Bytes) nb, b'.pubRwBuilderMap[ns]? = some nb →
      nb.nameSpace = ns ∧ b'.getOrCreateNsPubRwBuilder ns = nb ∧ NsResult codec ops nb.build := by
    intro ns nb found
    obtain ⟨colls, kept⟩ := hashed.ns ns
    obtain ⟨queries, colls', built⟩ := getOrCreateNsPubRwBuilder_applyAll codec ns ops
    have isNs : b'.getOrCreateNsPubRwBuilder ns = nb := by simp [getOrCreateNsPubRwBuilder, found]
    have named : nb.nameSpace = ns := by rw [← isNs, kept, built]
    refine ⟨named, isNs, ?_, ?_, ?_, ?_, ?_⟩
    iterate 3
      · rw [← isNs, kept, built]
        exact getValuesBySortedKeys_map _ _
    · rw [NsPubRwBuilder.build, map_map, ← isNs]
      exact sorted_of_named fun coll cb ofColl => (collBuilt ofColl).1
    · intro c mem
      obtain ⟨cb, ofMap, rfl⟩ := mem_map.mp mem
      obtain ⟨coll, ofColl⟩ := mem_getValuesBySortedKeys.mp ofMap
      rw [show nb.build.nameSpace = ns from named]
      exact (collBuilt (isNs ▸ ofColl)).2
  refine ⟨?_, ?_, ?_⟩
  · rw [getTxReadWriteSet, map_map]
    exact sorted_of_named fun ns nb found => (nsBuilt ns nb found).1
  · intro n mem
    obtain ⟨nb, ofMap, rfl⟩ := mem_map.mp mem
    obtain ⟨ns, found⟩ := mem_getValuesBySortedKeys.mp ofMap
    exact (nsBuilt ns nb found).2.2
  · intro ns coll used
    obtain ⟨cb, ofColl⟩ := Option.isSome_iff_exists.mp ((stored ns coll).mpr used)
    cases found : b'.pubRwBuilderMap[ns]? with
    | none => simp [getOrCreateNsPubRwBuilder, found, newNsPubRwBuilder] at ofColl
    | some nb =>
      obtain ⟨named, isNs, _⟩ := nsBuilt ns nb found
      refine ⟨nb.build, mem_map_of_mem (mem_getValuesBySortedKeys.mpr ⟨ns, found⟩), named, cb.build, ?_, (collBuilt ofColl).1⟩
      exact mem_map_of_mem (mem_getValuesBySortedKeys.mpr ⟨coll, isNs ▸ ofColl⟩)

end Fabric.Proof.TxMgr
