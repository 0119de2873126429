import Fabric.Gossip.DataRetriever

/-! # Who receives private data -/

namespace Fabric.Proof.Gossip

open Lib Fabric.Ledger Fabric.Gossip.Privdata Option
open List hiding getElem?_map

variable {C R : Type} {dig : DigKey} {entries : List (TransientEntry C)} {configs : Map Bytes (List (CollectionConfig C))}
  {entry : TransientEntry C} {lastAt height : Nat} {results rwSets : PrivateRWSetWithConfig C}
  {digests : List DigKey} {rwset : Bytes}

def StaticEntry (entry : TransientEntry C) : Prop :=
  entry.collectionConfigs.toList.all fun e => e.2.all (·.isStatic)

def configOf (dig : DigKey) (entry : TransientEntry C) : Option (CollectionConfig C) :=
  entry.collectionConfigs[dig.ns]?.bind (extractCollectionConfig dig.collection)

def writesOf (dig : DigKey) (entry : TransientEntry C) : List Bytes :=
  extractPvtRWsets entry.pvtRwset dig.ns dig.collection

theorem extractCollectionConfig_filter {name : Bytes} {package : List (CollectionConfig C)} (static : ∀ config ∈ package, config.isStatic) :
    extractCollectionConfig name (package.filter (·.hasName name)) = extractCollectionConfig name package := by
  induction package with
  | nil => rfl
  | cons config package ih =>
    cases config with
    | other => exact absurd (static .other mem_cons_self) (by simp [CollectionConfig.isStatic])
    | staticCollectionConfig other config =>
      have rest := ih fun config mem => static config (mem_cons_of_mem _ mem)
      by_cases here : other = name
      · simp [CollectionConfig.hasName, extractCollectionConfig, here]
      · simpa [CollectionConfig.hasName, extractCollectionConfig, here] using rest

theorem configOf_trimmed (static : StaticEntry entry) : (entry.collectionConfigs.map fun ns package =>
      package.filter fun config => ns = dig.ns ∧ config.hasName dig.collection)[dig.ns]?.bind
        (extractCollectionConfig dig.collection) = configOf dig entry := by
  rw [configOf, getElem?_map]
  cases found : entry.collectionConfigs[dig.ns]? with
  | none => rfl
  | some package =>
    have mem := mem_toList_iff_getElem?_eq_some.mpr found
    have isStatic := List.all_eq_true.mp (List.all_eq_true.mp static _ mem)
    simpa using extractCollectionConfig_filter isStatic

theorem extractPvtRWsets_cons (ns collection : Bytes) (nsws : NsPvtReadWriteSet) (rest : TxPvtReadWriteSet) :
    extractPvtRWsets (nsws :: rest) ns collection =
      ((nsws.collectionPvtRwset.filter fun coll => nsws.ns = ns ∧ coll.collectionName = collection).map (·.rwset)) ++
        extractPvtRWsets rest ns collection := by
  by_cases here : nsws.ns = ns <;> simp [extractPvtRWsets, here]

theorem trimmed_spec (ns collection : Bytes) (pvtWSet : TxPvtReadWriteSet) :
    extractPvtRWsets (pvtWSet.filterMap (trimNsPvtWSet ns collection)) ns collection = extractPvtRWsets pvtWSet ns collection ∧
    (extractPvtRWsets pvtWSet ns collection = [] → pvtWSet.filterMap (trimNsPvtWSet ns collection) = []) := by
  induction pvtWSet with
  | nil => exact ⟨rfl, fun _ => rfl⟩
  | cons nsws rest ih =>
    rw [filterMap_cons, extractPvtRWsets_cons]
    cases kept : nsws.collectionPvtRwset.filter fun coll => nsws.ns = ns ∧ coll.collectionName = collection with
    | nil =>
      simp only [trimNsPvtWSet, kept, map_nil, nil_append]
      exact ih
    | cons coll colls =>
      have again : (coll :: colls).filter (fun coll => nsws.ns = ns ∧ coll.collectionName = collection) = coll :: colls := by
        rw [← kept, List.filter_filter]
        simp
      simp only [trimNsPvtWSet, kept, extractPvtRWsets_cons, again]
      exact ⟨congrArg _ ih.1, by simp⟩

theorem trimPvtWSet_cases (pvtWSet : TxPvtReadWriteSet) (ns collection : Bytes) :
    trimPvtWSet pvtWSet ns collection = none ∧ extractPvtRWsets pvtWSet ns collection = [] ∨
    ∃ trimmed, trimPvtWSet pvtWSet ns collection = some trimmed ∧ extractPvtRWsets pvtWSet ns collection ≠ [] ∧
      extractPvtRWsets trimmed ns collection = extractPvtRWsets pvtWSet ns collection := by
  obtain ⟨same, none⟩ := trimmed_spec ns collection pvtWSet
  unfold trimPvtWSet
  split
  · rename_i empty
    rw [empty] at same
    exact .inl ⟨rfl, same.symm⟩
  · rename_i nonempty
    exact .inr ⟨_, rfl, fun empty => nonempty (none empty), same⟩

structure Offer (C : Type) where
  endorsedAt : Nat
  writes : List Bytes
  config : CollectionConfig C

def offerOf (dig : DigKey) (entry : TransientEntry C) : Option (Offer C) :=
  if writesOf dig entry = [] then none
  else (configOf dig entry).map fun config => ⟨entry.endorsedAt, writesOf dig entry, config⟩

def offers (dig : DigKey) (entries : List (TransientEntry C)) : List (Offer C) := entries.filterMap (offerOf dig)

theorem fromTransientStore_static (static : StaticEntry entry) (lastAt : Nat)
    (results : PrivateRWSetWithConfig C) : fromTransientStore dig (entry :: entries) lastAt results =
    match offerOf dig entry with
    | none => fromTransientStore dig entries lastAt results
    | some offer =>
      if offer.endorsedAt ≥ lastAt then
        fromTransientStore dig entries offer.endorsedAt ⟨results.rwSet ++ offer.writes, some offer.config⟩
      else fromTransientStore dig entries lastAt { results with rwSet := results.rwSet ++ offer.writes } := by
  rw [fromTransientStore, trimPvtCollectionConfigs, if_pos (show _ = true from static)]
  simp only [bind, Except.bind, configOf_trimmed static]
  rcases trimPvtWSet_cases entry.pvtRwset dig.ns dig.collection with ⟨trimmed, empty⟩ | ⟨_, trimmed, nonempty, same⟩
  · simp [trimmed, offerOf, writesOf, empty]
  · cases found : configOf dig entry with
    | none => simp [trimmed, offerOf, found]
    | some config => simp [trimmed, offerOf, writesOf, found, nonempty, same]

def Leading (offered : List (Offer C)) (offer : Offer C) : Prop :=
  ∃ before after, offered = before ++ offer :: after ∧ (∀ other ∈ before, other.endorsedAt ≤ offer.endorsedAt) ∧
    ∀ other ∈ after, other.endorsedAt < offer.endorsedAt

variable {offered : List (Offer C)} {offer : Offer C}

theorem Leading.unique {other : Offer C} (leading : Leading offered offer) (also : Leading offered other) : offer = other := by
  obtain ⟨before, after, rfl, earlier, later⟩ := leading
  obtain ⟨before', after', same, earlier', later'⟩ := also
  rcases append_eq_append_iff.mp same with ⟨middle, rfl, rest⟩ | ⟨middle, rfl, rest⟩
  · cases middle with
    | nil => exact (List.cons.inj rest).1
    | cons first middle =>
      obtain ⟨rfl, rfl⟩ := List.cons.inj rest
      exact absurd (earlier' offer (by simp)) (Nat.not_le.mpr (later other (by simp)))
  · cases middle with
    | nil => exact (List.cons.inj rest).1.symm
    | cons first middle =>
      obtain ⟨rfl, rfl⟩ := List.cons.inj rest
      exact absurd (earlier other (by simp)) (Nat.not_le.mpr (later' offer (by simp)))

structure Collected (offered : List (Offer C)) (lastAt : Nat) (results : PrivateRWSetWithConfig C) : Prop where
  rwSet : results.rwSet = offered.flatMap (·.writes)
  config : offered = [] ∧ lastAt = 0 ∨
    ∃ offer, Leading offered offer ∧ lastAt = offer.endorsedAt ∧ results.collectionConfig = some offer.config

theorem collected_nothing : Collected ([] : List (Offer C)) 0 ⟨[], none⟩ := ⟨rfl, .inl ⟨rfl, rfl⟩⟩

theorem Collected.add (collected : Collected offered lastAt results) (offer : Offer C) : (offer.endorsedAt ≥ lastAt →
      Collected (offered ++ [offer]) offer.endorsedAt ⟨results.rwSet ++ offer.writes, some offer.config⟩) ∧
    (¬ offer.endorsedAt ≥ lastAt → Collected (offered ++ [offer]) lastAt { results with rwSet := results.rwSet ++ offer.writes }) := by
  have rwSet : results.rwSet ++ offer.writes = (offered ++ [offer]).flatMap (·.writes) := by simp [collected.rwSet]
  refine ⟨fun higher => ⟨rwSet, .inr ⟨offer, ⟨offered, [], rfl, ?_, nofun⟩, rfl, rfl⟩⟩, fun lower => ⟨rwSet, .inr ?_⟩⟩
  · rcases collected.config with ⟨rfl, _⟩ | ⟨leader, ⟨before, after, rfl, earlier, later⟩, rfl, _⟩
    · exact nofun
    · intro other mem
      rcases mem_append.mp mem with mem | mem
      · exact (earlier other mem).trans higher
      · rcases mem_cons.mp mem with rfl | mem
        · exact higher
        · exact (later other mem).le.trans higher
  · rcases collected.config with ⟨_, rfl⟩ | ⟨leader, ⟨before, after, rfl, earlier, later⟩, rfl, isConfig⟩
    · exact absurd (Nat.zero_le _) lower
    · refine ⟨leader, ⟨before, after ++ [offer], by simp, earlier, fun other mem => ?_⟩, rfl, isConfig⟩
      rcases mem_append.mp mem with mem | mem
      · exact later other mem
      · obtain rfl := mem_singleton.mp mem
        exact Nat.lt_of_not_le lower

theorem fromTransientStore_spec (dig : DigKey) (collected : Collected offered lastAt results) :
    (∃ after lastAt', fromTransientStore dig entries lastAt results = .ok after ∧
      Collected (offered ++ offers dig entries) lastAt' after ∧ ∀ entry ∈ entries, StaticEntry entry) ∨
    (fromTransientStore dig entries lastAt results).toOption = none ∧ ¬ ∀ entry ∈ entries, StaticEntry entry := by
  induction entries generalizing offered lastAt results with
  | nil => exact .inl ⟨results, lastAt, rfl, by simpa [offers] using collected, nofun⟩
  | cons entry entries ih =>
    by_cases static : StaticEntry entry
    · rw [fromTransientStore_static static]
      simp only [offers, filterMap_cons, forall_mem_cons, static, true_and]
      cases offerOf dig entry with
      | none => exact ih collected
      | some offer =>
        dsimp only
        rw [append_cons]
        split
        · exact ih ((collected.add offer).1 ‹_›)
        · exact ih ((collected.add offer).2 ‹_›)
    · rw [fromTransientStore, trimPvtCollectionConfigs, if_neg (show ¬ _ = true from static)]
      exact .inr ⟨rfl, fun all => static (all entry mem_cons_self)⟩

theorem mem_offers : offer ∈ offers dig entries ↔ ∃ entry ∈ entries, writesOf dig entry ≠ [] ∧
    offer.endorsedAt = entry.endorsedAt ∧ offer.writes = writesOf dig entry ∧ configOf dig entry = some offer.config := by
  unfold offers offerOf
  rw [mem_filterMap]
  apply exists_congr
  intro entry
  apply and_congr_right
  intro _
  rw [ite_none_left_eq_some, map_eq_some_iff]
  apply and_congr_right
  intro _
  constructor
  · intro ⟨config, isConfig, isOffer⟩
    subst isOffer
    exact ⟨rfl, rfl, isConfig⟩
  · intro ⟨height, writes, isConfig⟩
    exact ⟨offer.config, isConfig, by rw [← height, ← writes]⟩

variable (p : AccessFilters C R) (signed : R) (dr : DataRetriever C)

/-- The requester satisfies a config that came with the write-set, that it was committed under, or the latest one. -/
inductive Authorised (dig : DigKey) (rwset : Bytes) : Prop
  | accompanied {entries : List (TransientEntry C)} {entry : TransientEntry C} {config : CollectionConfig C}
    (stored : dr.store dig.txID = .ok entries) (mem : entry ∈ entries) (holds : rwset ∈ writesOf dig entry)
    (isConfig : configOf dig entry = some config) (elig : p.isEligibleByConfig signed config)
  | committed {height : Nat} {filter : List (Bytes × Bytes)} {pvtData : List (Nat × Option TxPvtReadWriteSet)}
    {package : List (CollectionConfig C)} {config : CollectionConfig C} (isHeight : dr.ledgerHeight = .ok height)
    (below : dig.blockSeq < height) (isData : dr.getPvtDataByNum dig.blockSeq filter = .ok pvtData)
    (holds : ∃ data ∈ pvtData, data.1 = dig.seqInBlock ∧ rwset ∈ extractPvtRWsets (data.2.getD []) dig.ns dig.collection)
    (isPackage : dr.mostRecentCollectionConfigBelow dig.blockSeq dig.ns = .ok (some package))
    (isConfig : extractCollectionConfig dig.collection package = some config)
    (elig : p.isEligibleByConfig signed config)
  | latest (elig : p.isEligibleByLatestConfig signed dig.collection dig.ns)

/-- A requester that satisfies the leading config of a transaction in the transient store satisfies the latest
config of the collection, or for each write-set some config that is stored with it. -/
def Guarded (dig : DigKey) : Prop :=
  ∀ height entries leader, dr.ledgerHeight = .ok height → height ≤ dig.blockSeq → dig.txID ≠ [] →
    dr.store dig.txID = .ok entries → (∀ entry ∈ entries, StaticEntry entry) → Leading (offers dig entries) leader →
    p.isEligibleByConfig signed leader.config →
    p.isEligibleByLatestConfig signed dig.collection dig.ns ∨ ∀ offer ∈ offers dig entries, ∀ rwset ∈ offer.writes,
      ∃ other ∈ offers dig entries, rwset ∈ other.writes ∧ p.isEligibleByConfig signed other.config

variable {p signed dr}

theorem mem_createResponse {element : PvtDataElement} :
    element ∈ p.createResponse signed dr digests ↔ ∃ blockNum ∈ digests.map (·.blockSeq), ∃ dig2rwSets fromLedger rwSets,
      dr.collectionRWSet ((digests.filter (·.blockSeq = blockNum)).eraseDups) blockNum = .ok (dig2rwSets, fromLedger) ∧
      (element.digest, rwSets) ∈ dig2rwSets ∧ element.payload = rwSets.rwSet ∧ rwSets.rwSet ≠ [] ∧
      ((fromLedger && p.isEligibleByLatestConfig signed element.digest.collection element.digest.ns) ||
        rwSets.collectionConfig.any (p.isEligibleByConfig signed)) := by
  unfold AccessFilters.createResponse
  rw [mem_flatMap]
  apply exists_congr
  intro blockNum
  rw [mem_eraseDups]
  apply and_congr_right
  intro _
  cases dr.collectionRWSet ((digests.filter (·.blockSeq = blockNum)).eraseDups) blockNum with
  | error e => simp
  | ok results =>
    obtain ⟨dig2rwSets, fromLedger⟩ := results
    simp only [AccessFilters.filterNotEligible, List.mem_map, mem_filter, decide_eq_true_eq]
    constructor
    · intro ⟨⟨dig, rwSets⟩, ⟨mem, nonempty, elig⟩, isElement⟩
      subst isElement
      exact ⟨dig2rwSets, fromLedger, rwSets, rfl, mem, rfl, nonempty, elig⟩
    · intro ⟨_, _, rwSets, same, mem, payload, nonempty, elig⟩
      cases same
      exact ⟨(element.digest, rwSets), ⟨mem, nonempty, elig⟩, by rw [← payload]⟩

theorem collectionRWSet_eq_ok {blockNum : Nat} {dig2rwSets : List (DigKey × PrivateRWSetWithConfig C)}
    {fromLedger : Bool} (run : dr.collectionRWSet digests blockNum = .ok (dig2rwSets, fromLedger))
    (mem : (dig, rwSets) ∈ dig2rwSets) : dig ∈ digests ∧ ∃ height, dr.ledgerHeight = .ok height ∧
      (height ≤ blockNum ∧ fromLedger = false ∧ dr.retrieveTransient dig = some rwSets ∨
        blockNum < height ∧ ∃ filter pvtData, dr.getPvtDataByNum blockNum filter = .ok pvtData ∧
          dr.fromLedgerDigest pvtData dig = .ok rwSets) := by
  obtain ⟨height, isHeight, run⟩ := bind_eq_ok.mp run
  split at run
  · cases run
    obtain ⟨other, listed, found⟩ := mem_filterMap.mp mem
    obtain ⟨_, found, same⟩ := map_eq_some_iff.mp found
    cases same
    exact ⟨listed, height, isHeight, .inl ⟨‹_›, rfl, found⟩⟩
  · obtain ⟨results, fetched, result⟩ := bind_eq_ok.mp run
    cases result
    obtain ⟨pvtData, isData, made⟩ := bind_eq_ok.mp fetched
    obtain ⟨other, listed, found⟩ := exists_left_of_mem (mapM_eq_ok.mp made) mem
    obtain ⟨_, found, same⟩ := bind_eq_ok.mp found
    cases same
    exact ⟨listed, height, isHeight, .inr ⟨by omega, _, pvtData, isData, found⟩⟩

theorem retrieveTransient_eq_some (found : dr.retrieveTransient dig = some rwSets) :
    dig.txID ≠ [] ∧ ∃ entries lastAt, dr.store dig.txID = .ok entries ∧ (∀ entry ∈ entries, StaticEntry entry) ∧
      Collected (offers dig entries) lastAt rwSets := by
  obtain ⟨isTx, found⟩ := ite_none_left_eq_some.mp found
  cases stored : dr.store dig.txID with
  | error e => simp [stored, bind, Except.bind, Except.toOption] at found
  | ok entries =>
    simp only [stored, bind, Except.bind] at found
    rcases fromTransientStore_spec dig collected_nothing with ⟨after, height, run, collected, static⟩ | ⟨none, _⟩
    · rw [run] at found
      cases found
      exact ⟨isTx, entries, height, rfl, static, collected⟩
    · simp [none] at found

theorem authorised_of_guarded (guarded : Guarded p signed dr dig) (isHeight : dr.ledgerHeight = .ok height)
    (uncommitted : height ≤ dig.blockSeq) (found : dr.retrieveTransient dig = some rwSets)
    (elig : rwSets.collectionConfig.any (p.isEligibleByConfig signed)) (mem : rwset ∈ rwSets.rwSet) : Authorised p signed dr dig rwset := by
  obtain ⟨isTx, entries, _, stored, static, collected⟩ := retrieveTransient_eq_some found
  rw [collected.rwSet] at mem
  rcases collected.config with ⟨none, _⟩ | ⟨leader, leading, _, isConfig⟩
  · simp [none] at mem
  · rw [isConfig] at elig
    rcases guarded height entries leader isHeight uncommitted isTx stored static leading elig with latest | each
    · exact .latest latest
    · obtain ⟨offer, offered, mem⟩ := mem_flatMap.mp mem
      obtain ⟨other, isOffer, holds, elig⟩ := each offer offered rwset mem
      obtain ⟨entry, isEntry, _, _, writes, isConfig⟩ := mem_offers.mp isOffer
      exact .accompanied stored isEntry (writes ▸ holds) isConfig elig

theorem authorised_of_ledger (isHeight : dr.ledgerHeight = .ok height) (below : dig.blockSeq < height)
    {filter : List (Bytes × Bytes)} {pvtData : List (Nat × Option TxPvtReadWriteSet)}
    (isData : dr.getPvtDataByNum dig.blockSeq filter = .ok pvtData) (found : dr.fromLedgerDigest pvtData dig = .ok rwSets)
    (elig : rwSets.collectionConfig.any (p.isEligibleByConfig signed)) (mem : rwset ∈ rwSets.rwSet) : Authorised p signed dr dig rwset := by
  obtain ⟨package, isPackage, found⟩ := bind_eq_ok.mp found
  cases package with
  | none => cases found
  | some package =>
    cases isConfig : extractCollectionConfig dig.collection package with
    | none => simp [isConfig] at found
    | some config =>
      simp only [isConfig] at found
      cases found
      obtain ⟨data, listed, mem⟩ := mem_flatMap.mp mem
      refine .committed isHeight below isData ⟨data, listed, ?_⟩ isPackage isConfig (by simpa using elig)
      split at mem
      · exact ⟨‹_›, mem⟩
      · cases mem

theorem retrieveTransient_leading {entries : List (TransientEntry C)} {leader : Offer C} (isTx : dig.txID ≠ [])
    (stored : dr.store dig.txID = .ok entries) (static : ∀ entry ∈ entries, StaticEntry entry)
    (leading : Leading (offers dig entries) leader) :
    dr.retrieveTransient dig = some ⟨(offers dig entries).flatMap (·.writes), some leader.config⟩ := by
  rcases fromTransientStore_spec dig collected_nothing with ⟨after, _, run, collected, _⟩ | ⟨_, mixed⟩
  · rw [nil_append] at collected
    have config : after.collectionConfig = some leader.config := by
      rcases collected.config with ⟨nothing, _⟩ | ⟨other, also, _, isConfig⟩
      · obtain ⟨before, later, offered, _⟩ := leading
        exact absurd (offered.symm.trans nothing) (by simp)
      · rw [isConfig, leading.unique also]
    rw [DataRetriever.retrieveTransient, if_neg isTx, stored]
    simp [bind, Except.bind, run, Except.toOption, ← collected.rwSet, ← config]
  · exact absurd static mixed

theorem disclosed_authorised_iff (digests : List DigKey) :
    (∀ element ∈ p.createResponse signed dr digests, ∀ rwset ∈ element.payload,
      Authorised p signed dr element.digest rwset) ↔ ∀ dig ∈ digests, Guarded p signed dr dig := by
  constructor
  · intro authorised dig isDig height entries leader isHeight uncommitted isTx stored static leading elig
    by_cases latest : p.isEligibleByLatestConfig signed dig.collection dig.ns
    · exact .inl latest
    · right
      have found := retrieveTransient_leading isTx stored static leading
      intro offer offered rwset mem
      have isElement : ⟨dig, (offers dig entries).flatMap (·.writes)⟩ ∈ p.createResponse signed dr digests := by
        have group : dig ∈ ((digests.filter (·.blockSeq = dig.blockSeq)).eraseDups) :=
          mem_eraseDups.mpr (mem_filter.mpr ⟨isDig, by simp⟩)
        refine mem_createResponse.mpr ⟨dig.blockSeq, List.mem_map_of_mem isDig, _, false, _,
          bind_eq_ok.mpr ⟨height, isHeight, if_pos uncommitted⟩,
          mem_filterMap.mpr ⟨dig, group, map_eq_some_iff.mpr ⟨_, found, rfl⟩⟩, rfl, ?_, by simpa using elig⟩
        exact ne_nil_of_mem (mem_flatMap.mpr ⟨offer, offered, mem⟩)
      have authorised := authorised _ isElement rwset (mem_flatMap.mpr ⟨offer, offered, mem⟩)
      cases authorised with
      | latest elig => exact absurd elig latest
      | committed isHeight' below =>
        rw [isHeight] at isHeight'
        cases isHeight'
        exact absurd uncommitted (by simpa using below)
      | @accompanied _ entry config stored' isEntry holds isConfig elig =>
        rw [stored] at stored'
        cases stored'
        exact ⟨⟨entry.endorsedAt, writesOf dig entry, config⟩,
          mem_offers.mpr ⟨entry, isEntry, ne_nil_of_mem holds, rfl, rfl, isConfig⟩, holds, elig⟩
  · intro guarded element isElement rwset mem
    obtain ⟨blockNum, _, dig2rwSets, fromLedger, rwSets, run, listed, payload, _, elig⟩ := mem_createResponse.mp isElement
    obtain ⟨inGroup, height, isHeight, source⟩ := collectionRWSet_eq_ok run listed
    obtain ⟨isDig, isBlock⟩ := mem_filter.mp (mem_eraseDups.mp inGroup)
    obtain rfl : element.digest.blockSeq = blockNum := by simpa using isBlock
    rw [payload] at mem
    rcases source with ⟨uncommitted, rfl, found⟩ | ⟨below, filter, pvtData, isData, found⟩
    · exact authorised_of_guarded (guarded _ isDig) isHeight uncommitted found (by simpa using elig) mem
    · rcases Bool.or_eq_true _ _ ▸ elig with latest | elig
      · exact .latest (Bool.and_eq_true _ _ ▸ latest).2
      · exact authorised_of_ledger isHeight below isData found elig mem

def admitOne : AccessFilters Nat Nat where
  accessPolicy
    | .staticCollectionConfig _ admitted => .ok (some (· = admitted))
    | .other => .error (.error "unknown config")
  retrieveCollectionAccessPolicy _ _ := .error (.error "no such collection")

def entryFor (endorsedAt admitted : Nat) (rwset : Bytes) : TransientEntry Nat where
  endorsedAt := endorsedAt
  pvtRwset := [⟨[1], [⟨[2], rwset⟩]⟩]
  collectionConfigs := (∅ : Map Bytes (List (CollectionConfig Nat))).insert [1] [.staticCollectionConfig [2] admitted]

def uncommitted (entries : List (TransientEntry Nat)) : DataRetriever Nat where
  ledgerHeight := .ok 5
  getPvtDataByNum _ _ := .ok []
  mostRecentCollectionConfigBelow _ _ := .ok none
  store _ := .ok entries

-- The second entry, pushed later with a config of its own, discloses the first.
theorem stricterEntry_disclosed :
    admitOne.createResponse 9 (uncommitted [entryFor 0 8 [70], entryFor 0 9 [71]]) [⟨[3], [1], [2], 5, 0⟩] =
      [⟨⟨[3], [1], [2], 5, 0⟩, [[70], [71]]⟩] ∧
    ¬ Authorised admitOne 9 (uncommitted [entryFor 0 8 [70], entryFor 0 9 [71]]) ⟨[3], [1], [2], 5, 0⟩ [70] := by
  refine ⟨by decide +kernel, fun authorised => ?_⟩
  cases authorised with
  | latest elig => cases elig
  | committed isHeight below =>
    cases isHeight
    exact absurd below (by decide)
  | accompanied stored mem holds isConfig elig =>
    cases stored
    rcases mem_pair.mp mem with rfl | rfl
    · obtain rfl : CollectionConfig.staticCollectionConfig [2] 8 = _ := by
        simpa [configOf, entryFor, extractCollectionConfig] using isConfig
      cases elig
    · exact absurd holds (by decide)

end Fabric.Proof.Gossip
