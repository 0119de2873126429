import Fabric.Statecouchdb.VersionedDB

/-! # The cache does not show -/

namespace Fabric.Proof.Statecouchdb

open Lib Fabric.Ledger Fabric.Statecouchdb Option
open List hiding ext_getElem? getElem?_insert getElem?_map

variable {V W : Type} {json : Json V W} {config : CacheConfig}
  {kv : KeyValue} {s : State V} {committers : List (BatchableDocument V)}
  {label : String} {value : Bytes} {entries : List (DocKey × VersionedValue)} {ledger : Updates DocKey}

/-- A JSON object is written as the database's answer is marshalled again, and a value that only looks like one up
to a number out of range has no field that marks the document as deleted. -/
def comesBack (json : Json V W) (value : Bytes) : Bool :=
  match json.unmarshal value with
  | (true, some jsonMap) => json.marshal (JsonValue.readBack json jsonMap) == value
  | (_, jsonMap) => !marksDeleted (jsonMap.getD ∅)

def visible (vv : VersionedValue) : VersionedValue := { vv with metadata := nilIfEmpty (vv.metadata.getD []) }

def Holds (json : Json V W) (key : String) (vv : VersionedValue) (doc : Document V) : Prop :=
  couchDocToKeyValue json (doc.read json key) = .ok ⟨key, doc.rev, visible vv⟩

theorem not_reserved_of_check {v : JsonValue V} (passed : checkReservedFieldsNotPresent v = .ok ())
    (reserved : isReservedField label = true) : v[label]? = none := by
  unfold checkReservedFieldsNotPresent at passed
  split at passed
  case h_1 => cases passed
  case h_2 none =>
    rw [find?_eq_none] at none
    cases found : v[label]? with
    | none => rfl
    | some field =>
      have listed : label ∈ v.toList.map (·.1) :=
        List.mem_map_of_mem (f := (·.1)) (mem_toList_iff_getElem?_eq_some.mpr found)
      exact absurd reserved (none label listed)

theorem getElem?_readBack (m : JsonValue V) (label : String) :
    (JsonValue.readBack json m)[label]? = m[label]?.map (Field.map json.readBack) :=
  getElem?_map

def valueFields (m : JsonValue V) : JsonValue V := ((m.erase idField).erase revField).erase versionField

theorem getElem?_valueFields (m : JsonValue V) (label : String) : (valueFields m)[label]? =
      if label = idField ∨ label = revField ∨ label = versionField then none else m[label]? := by
  simp only [valueFields, get_erase]
  grind

theorem valueFields_readBack (json : Json V W) (m : JsonValue V) (key rev : String) :
    valueFields (JsonValue.readBack json ((((m.erase idField).erase revField).insert idField (.text key)).insert
      revField (.text rev))) = JsonValue.readBack json (valueFields m) := by
  apply ext_getElem?
  intro label
  rw [getElem?_valueFields, getElem?_readBack, getElem?_readBack, getElem?_valueFields]
  simp only [getElem?_insert, get_erase]
  split <;> grind

structure Describes (json : Json V W) (vv : VersionedValue) (doc : CouchDoc V) : Prop where
  alive : marksDeleted doc.jsonValue = false
  version : doc.jsonValue[versionField]? = some (.versionAndMetadata vv.version (vv.metadata.getD []))
  value : vv.value = some (match doc.attachments with
    | none => json.marshal (JsonValue.readBack json (valueFields doc.jsonValue))
    | some attachments => attachedValue attachments)

theorem Describes.holds {vv : VersionedValue} {doc : CouchDoc V} (describes : Describes json vv doc) (key rev : String) :
    Holds json key vv ⟨rev, (doc.jsonValue.erase idField).erase revField, doc.attachments⟩ := by
  have rest := valueFields_readBack json doc.jsonValue key rev
  generalize sent : (((doc.jsonValue.erase idField).erase revField).insert idField (.text key)).insert
    revField (.text rev) = fields at rest
  have lookup (label : String) : fields[label]? = if label = revField then some (.text rev) else if label = idField then some (.text key)
      else doc.jsonValue[label]? := by
    simp only [← sent, getElem?_insert, getElem?_erase, Std.LawfulEqCmp.compare_eq_iff_eq]
    grind
  have id : fields[idField]? = some (.text key) := by simp [lookup, idField, revField]
  have revision : fields[revField]? = some (.text rev) := by simp [lookup]
  have version : fields[versionField]? = some (.versionAndMetadata vv.version (vv.metadata.getD [])) := by
    simpa [lookup, idField, revField, versionField] using describes.version
  unfold Holds couchDocToKeyValue validateAndRetrieveFields Document.read
  simp only [sent, getElem?_readBack, id, revision, version, map_some, Field.map, retrieveRevision,
    retrieveVersion, bind, Except.bind, Except.map, visible]
  rw [show vv.value = _ from describes.value]
  cases doc.attachments with
  | none =>
    unfold valueFields at rest ⊢
    simp only [rest]
  | some attachments => rfl

theorem getElem?_addReservedFields (kv : KeyValue) (m : JsonValue V) (id : label ≠ idField)
    (rev : label ≠ revField) (version : label ≠ versionField) : (addReservedFields kv m)[label]? = m[label]? := by
  unfold addReservedFields
  split <;> simp only [get_insert] <;> grind

theorem valueFields_addReservedFields (kv : KeyValue) (m : JsonValue V) : valueFields (addReservedFields kv m) = valueFields m := by
  apply ext_getElem?
  intro label
  rw [getElem?_valueFields, getElem?_valueFields]
  split_ifs with taken
  · rfl
  · push Not at taken
    exact getElem?_addReservedFields kv m taken.1 taken.2.1 taken.2.2

theorem valueFields_of_check {m : JsonValue V} (passed : checkReservedFieldsNotPresent m = .ok ()) : valueFields m = m := by
  apply ext_getElem?
  intro label
  rw [getElem?_valueFields]
  split_ifs with taken
  · symm
    apply not_reserved_of_check passed
    rcases taken with rfl | rfl | rfl <;> decide +kernel
  · rfl

theorem marksDeleted_addReservedFields (kv : KeyValue) (m : JsonValue V) : marksDeleted (addReservedFields kv m) = marksDeleted m := by
  unfold marksDeleted
  rw [getElem?_addReservedFields kv m (by decide) (by decide) (by decide)]

theorem version_addReservedFields (kv : KeyValue) (m : JsonValue V) : (addReservedFields kv m)[versionField]? =
      some (.versionAndMetadata kv.versionedValue.version (kv.versionedValue.metadata.getD [])) := by
  have notId : idField ≠ versionField := by decide
  have notRev : revField ≠ versionField := by decide
  unfold addReservedFields
  split <;> simp only [get_insert, notId, notRev, if_false, if_true]

theorem Describes.removeJSONRevision {vv : VersionedValue} {doc : CouchDoc V} (describes : Describes json vv doc) :
    Describes json vv (removeJSONRevision doc) := by
  have elsewhere {label : String} (other : label ≠ revField) :
      (doc.jsonValue.erase revField)[label]? = doc.jsonValue[label]? := by
    simp [getElem?_erase, other.symm]
  have fields : valueFields (doc.jsonValue.erase revField) = valueFields doc.jsonValue := by
    apply ext_getElem?
    intro label
    rw [getElem?_valueFields, getElem?_valueFields]
    split_ifs with taken
    · rfl
    · push Not at taken
      exact elsewhere taken.2.1
  constructor
  case alive =>
    have alive := describes.alive
    unfold marksDeleted at alive ⊢
    rw [Fabric.Statecouchdb.removeJSONRevision, elsewhere (by decide)]
    exact alive
  case version => exact (elsewhere (by decide)).trans describes.version
  case value =>
    rw [describes.value]
    simp only [Fabric.Statecouchdb.removeJSONRevision, fields]

theorem describes_of_built {doc : CouchDoc V} (built : keyValToCouchDoc json kv = .ok doc)
    (written : kv.versionedValue.value = some value) (back : comesBack json value = true) : Describes json kv.versionedValue doc := by
  unfold keyValToCouchDoc at built
  simp only [written] at built
  unfold comesBack at back
  split at built
  case h_1 m unmarshalled =>
    rw [unmarshalled] at back
    obtain ⟨⟨⟩, passed, made⟩ := map_eq_ok.mp built
    subst made
    have notReserved : m[deletedField]? = none := not_reserved_of_check passed (by decide +kernel)
    constructor
    case alive =>
      rw [marksDeleted_addReservedFields]
      simp [marksDeleted, notReserved]
    case version => exact version_addReservedFields kv m
    case value =>
      rw [written, valueFields_addReservedFields, valueFields_of_check passed]
      exact congrArg some (eq_of_beq back).symm
  case h_2 notObject unmarshalled =>
    obtain rfl := ok.inj built
    constructor
    case alive =>
      rw [marksDeleted_addReservedFields]
      rw [unmarshalled] at back
      split at back
      case h_1 m object =>
        obtain ⟨rfl, rfl⟩ := Prod.mk.inj object
        exact absurd rfl (notObject m rfl)
      case h_2 same =>
        obtain ⟨-, rfl⟩ := Prod.mk.inj same
        simpa using back
    case version => exact version_addReservedFields kv _
    case value => simp [written, attachedValue]

theorem marksDeleted_of_delete {doc : CouchDoc V} (built : keyValToCouchDoc json kv = .ok doc)
    (deleted : kv.versionedValue.value = none) : marksDeleted doc.jsonValue = true := by
  unfold keyValToCouchDoc at built
  simp only [deleted, ok.injEq] at built
  simp [← built, marksDeleted]

def Represents (json : Json V W) (docs : Documents V) (ledger : Updates DocKey) : Prop :=
  ∀ k : DocKey, Option.Rel (fun doc vv => Holds json k.key vv doc) docs[k]? ledger[k]?

structure Faithful (json : Json V W) (config : CacheConfig) (docs : Documents V) (k : DocKey) (cv : CacheValue) : Prop where
  enabled : config.enabled k.ns = true
  valid : validateKey k.key = .ok ()
  current : ∃ doc, docs[k]? = some doc ∧ cv.additionalInfo = doc.rev ∧
    couchDocToKeyValue json (doc.read json k.key) = .ok ⟨k.key, doc.rev, constructVersionedValue cv⟩

structure Consistent (json : Json V W) (config : CacheConfig) (ledger : Updates DocKey) (s : State V) : Prop where
  docs : Represents json s.docs ledger
  cache : ∀ k cv, s.cache[k]? = some cv → Faithful json config s.docs k cv

def writeEntry (ledger : Updates DocKey) (entry : DocKey × VersionedValue) : Updates DocKey :=
  if entry.2.isDelete then ledger.erase entry.1 else ledger.insert entry.1 entry.2

def BuiltFrom (json : Json V W) (config : CacheConfig) (entry : DocKey × VersionedValue) (doc : BatchableDocument V) :
    Prop :=
  ∃ revision, doc.key = entry.1 ∧ doc.deleted = entry.2.value.isNone ∧
    keyValToCouchDoc json ⟨entry.1.key, revision, entry.2⟩ = .ok doc.couchDoc ∧
    doc.cacheUpdate = if config.enabled entry.1.ns then some (addToCacheUpdate ⟨entry.1.key, revision, entry.2⟩) else none

theorem builtFrom_of_buildCommitters {loaded : Map DocKey String} {updates : List (DocKey × VersionedValue)}
    (built : buildCommitters json config s loaded updates = .ok committers) : List.Forall₂ (BuiltFrom json config) updates committers := by
  apply List.Forall₂.imp _ (mapM_eq_ok.mp built)
  intro entry doc made
  obtain ⟨couchDoc, converted, rfl⟩ := map_eq_ok.mp made
  exact ⟨_, rfl, rfl, converted, rfl⟩

section

variable {docs : Documents V} {cache : Cache} {ledger : Updates DocKey} {k : DocKey} {vv : VersionedValue}
  {doc : BatchableDocument V}

theorem commit_delete (docs : Documents V) (built : BuiltFrom json config (k, vv) doc) (deleted : vv.value = none)
    (answer : Answer) : (commitDocument docs doc answer).1 = docs.erase k ∧
      (commitDocument docs doc answer).2.cacheUpdate = if config.enabled k.ns then some none else none := by
  obtain ⟨revision, key, flag, converted, update⟩ := built
  have marked := marksDeleted_of_delete converted deleted
  rw [deleted] at flag
  simp only [addToCacheUpdate, deleted] at update
  cases answer with
  | ok rev =>
    simp only [commitDocument, Documents.put, marked, if_true, key, BatchableDocument.updateRevisionInCacheUpdate, update, true_and]
    split <;> rfl
  | conflict rev => simp [commitDocument, flag, key, update]

theorem commit_write (docs : Documents V) (built : BuiltFrom json config (k, vv) doc)
    (written : vv.value = some value) (back : comesBack json value = true) (answer : Answer) :
    ∃ stored, (commitDocument docs doc answer).1 = docs.insert k stored ∧ Holds json k.key vv stored ∧
      (commitDocument docs doc answer).2.cacheUpdate =
        if config.enabled k.ns then some (some ⟨vv.version, value, vv.metadata.getD [], stored.rev⟩) else none := by
  obtain ⟨revision, key, flag, converted, update⟩ := built
  have describes : Describes json vv doc.couchDoc := describes_of_built converted written back
  have retried := describes.removeJSONRevision
  rw [written] at flag
  simp only [addToCacheUpdate, written] at update
  cases answer with
  | ok rev =>
    refine ⟨_, ?_, describes.holds k.key rev, ?_⟩
    · simp [commitDocument, Documents.put, describes.alive, key]
    · simp only [commitDocument, BatchableDocument.updateRevisionInCacheUpdate, update]
      split <;> rfl
  | conflict rev =>
    refine ⟨_, ?_, retried.holds k.key rev, ?_⟩
    · simp [commitDocument, Documents.put, retried.alive, key, flag]
    · simp only [commitDocument, flag, isNone_some, Bool.false_eq_true, if_false, BatchableDocument.updateRevisionInCacheUpdate, update]
      split <;> rfl

theorem Represents.entry (before : Represents json docs ledger) (built : BuiltFrom json config (k, vv) doc)
    (back : ∀ value, vv.value = some value → comesBack json value = true) (answer : Answer) :
    Represents json (commitDocument docs doc answer).1 (writeEntry ledger (k, vv)) := by
  intro k'
  unfold writeEntry VersionedValue.isDelete
  cases written : vv.value with
  | none =>
    rw [(commit_delete docs built written answer).1]
    simp only [isNone_none, if_true, get_erase]
    split
    · exact .none
    · exact before k'
  | some value =>
    obtain ⟨stored, put, holds, -⟩ := commit_write docs built written (back value written) answer
    simp only [put, isNone_some, Bool.false_eq_true, if_false, getElem?_insert, Std.LawfulEqCmp.compare_eq_iff_eq]
    split
    case isTrue same =>
      subst same
      exact .some holds
    case isFalse => exact before k'

theorem Faithful.other {docs' : Documents V} {k' : DocKey} {cv : CacheValue} (before : Faithful json config docs k' cv)
    (same : docs'[k']? = docs[k']?) : Faithful json config docs' k' cv :=
  ⟨before.enabled, before.valid, same ▸ before.current⟩

theorem Consistent.entry (before : Consistent json config ledger ⟨docs, cache⟩) (built : BuiltFrom json config (k, vv) doc)
    (back : ∀ value, vv.value = some value → comesBack json value = true) (answer : Answer) :
    Consistent json config (writeEntry ledger (k, vv)) ⟨(commitDocument docs doc answer).1,
      cache.updateStates ((commitDocument docs doc answer).2.cacheUpdate.map (doc.key, ·)).toList⟩ := by
  refine ⟨before.docs.entry built back answer, ?_⟩
  obtain ⟨_, rfl, -⟩ := id built
  intro k' cv cached
  simp only at cached ⊢
  have untouched (docs' : Documents V) (off : config.enabled doc.key.ns = false)
      (others : k' ≠ doc.key → docs'[k']? = docs[k']?) (cached : cache[k']? = some cv) :
      Faithful json config docs' k' cv := by
    have faithful := before.cache k' cv cached
    apply faithful.other
    apply others
    intro same
    rw [← same, faithful.enabled] at off
    cases off
  cases written : vv.value with
  | none =>
    obtain ⟨erased, update⟩ := commit_delete docs built written answer
    have others (other : k' ≠ doc.key) : (docs.erase doc.key)[k']? = docs[k']? := by
      simp [getElem?_erase, other.symm]
    simp only [erased, update] at cached ⊢
    cases enabled : config.enabled doc.key.ns with
    | false =>
      simp only [enabled, Bool.false_eq_true, if_false] at cached
      exact untouched _ enabled others cached
    | true =>
      simp only [enabled, if_true] at cached
      change (cache.erase doc.key)[k']? = some cv at cached
      simp only [get_erase, ite_none_left_eq_some] at cached
      exact (before.cache k' cv cached.2).other (others (Ne.symm cached.1))
  | some value =>
    obtain ⟨stored, put, holds, update⟩ := commit_write docs built written (back value written) answer
    have others (other : k' ≠ doc.key) : (docs.insert doc.key stored)[k']? = docs[k']? := by
      simp [getElem?_insert, other.symm]
    simp only [put, update] at cached ⊢
    cases enabled : config.enabled doc.key.ns with
    | false =>
      simp only [enabled, Bool.false_eq_true, if_false] at cached
      exact untouched _ enabled others cached
    | true =>
      simp only [enabled, if_true] at cached
      change (if doc.key ∈ cache then cache.insert doc.key _ else cache)[k']? = some cv at cached
      by_cases other : k' = doc.key
      · subst other
        split at cached
        case isTrue present =>
          obtain ⟨old, found⟩ := mem_iff_get.mp present
          simp only [Std.ExtTreeMap.getElem?_insert_self, some.injEq] at cached
          subst cached
          refine ⟨enabled, (before.cache _ _ found).valid, stored, by simp, rfl, ?_⟩
          rw [holds]
          simp [visible, constructVersionedValue, written]
        case isFalse absent =>
          exact absurd (mem_of_get cached) absent
      · have kept : cache[k']? = some cv := by
          split at cached
          · simpa [getElem?_insert, Ne.symm other] using cached
          · exact cached
        exact (before.cache k' cv kept).other (others other)

end

theorem updateStates_append (cache : Cache) (first second : List (DocKey × Option CacheValue)) :
    cache.updateStates (first ++ second) = (cache.updateStates first).updateStates second :=
  foldl_append

theorem Consistent.commitUpdates (built : List.Forall₂ (BuiltFrom json config) entries committers)
    (back : ∀ e ∈ entries, e.2.value.all (comesBack json) = true) (answers : DocKey → Answer)
    {ledger : Updates DocKey} {docs : Documents V} {cache : Cache} (before : Consistent json config ledger ⟨docs, cache⟩) :
    Consistent json config (entries.foldl writeEntry ledger)
      ⟨(commitUpdates answers docs committers).1, cache.updateStates (commitUpdates answers docs committers).2⟩ := by
  induction built generalizing ledger docs cache with
  | nil => exact before
  | @cons entry doc entries committers here _ ih =>
    have comes (value : Bytes) (written : entry.2.value = some value) : comesBack json value = true := by
      simpa [written] using back entry mem_cons_self
    have first := Consistent.entry (k := entry.1) before here comes (answers doc.key)
    have rest := ih (fun e listed => back e (mem_cons_of_mem _ listed)) first
    rw [foldl_cons]
    simpa only [Fabric.Statecouchdb.commitUpdates, updateStates_append] using rest

theorem forall₂_filter (built : List.Forall₂ (BuiltFrom json config) entries committers) (reached : DocKey → Bool) :
    List.Forall₂ (BuiltFrom json config) (entries.filter fun e => reached e.1) (committers.filter fun doc => reached doc.key) := by
  induction built with
  | nil => exact .nil
  | @cons entry doc entries committers here _ ih =>
    obtain ⟨_, key, -⟩ := id here
    simp only [filter_cons, key]
    split
    · exact .cons here ih
    · exact ih

def answer (ledger : Updates DocKey) (k : DocKey) : Result (Option VersionedValue) :=
  (validateKey k.key).map fun _ => ledger[k]?.map visible

theorem Represents.readFromDB {docs : Documents V} (represents : Represents json docs ledger)
    (k : DocKey) : (readFromDB json docs k).map (Option.map KeyValue.versionedValue) = answer ledger k ∧
      ∀ kv, readFromDB json docs k = .ok (some kv) → ∃ doc, docs[k]? = some doc ∧ validateKey k.key = .ok () ∧
        couchDocToKeyValue json (doc.read json k.key) = .ok kv ∧ kv.key = k.key ∧ kv.revision = doc.rev := by
  have entry := represents k
  unfold Fabric.Statecouchdb.readFromDB answer Documents.readDoc
  cases validateKey k.key with
  | error e => exact ⟨rfl, fun _ read => by cases read⟩
  | ok =>
    generalize docs[k]? = stored, ledger[k]? = written at entry
    cases entry with
    | none => exact ⟨rfl, fun _ read => by cases read⟩
    | @some doc vv holds =>
      simp only [map_some, bind, Except.bind, show couchDocToKeyValue json (doc.read json k.key) = _ from holds,
        Functor.map, Except.map, true_and]
      intro kv read
      cases read
      exact ⟨doc, rfl, holds, rfl, rfl⟩

theorem constructVersionedValue_constructCacheValue {doc : CouchDoc W} (read : couchDocToKeyValue json doc = .ok kv) :
    constructVersionedValue (constructCacheValue kv) = kv.versionedValue := by
  obtain ⟨fields, -, rfl⟩ := map_eq_ok.mp read
  by_cases empty : fields.versionAndMetadata.2 = [] <;>
    simp [constructVersionedValue, constructCacheValue, nilIfEmpty, empty]

theorem Consistent.getState (consistent : Consistent json config ledger s) (k : DocKey)
    : (getState json config s k).1 = answer ledger k ∧ Consistent json config ledger (getState json config s k).2 := by
  obtain ⟨answers, found⟩ := consistent.docs.readFromDB k
  unfold Fabric.Statecouchdb.getState
  cases lookup : s.cache.getState config k with
  | some cv =>
    have cached : s.cache[k]? = some cv := by
      unfold Cache.getState at lookup
      split at lookup
      · exact lookup
      · cases lookup
    obtain ⟨_, valid, doc, stored, -, reads⟩ := consistent.cache k cv cached
    have entry := consistent.docs k
    rw [stored] at entry
    unfold answer
    generalize ledger[k]? = written at entry
    cases entry with
    | @some _ vv holds =>
      have same := holds.symm.trans reads
      simp only [ok.injEq, KeyValue.mk.injEq, true_and] at same
      simp only [valid, Except.map, map_some, same, true_and]
      exact consistent
  | none =>
    simp only
    cases read : readFromDB json s.docs k with
    | error e =>
      rw [read] at answers
      exact ⟨answers, consistent⟩
    | ok result =>
      rw [read] at answers
      cases result with
      | none => exact ⟨answers, consistent⟩
      | some kv =>
        refine ⟨answers, ?_⟩
        obtain ⟨doc, stored, valid, reads, key, revision⟩ := found kv read
        simp only
        split
        case isFalse => exact consistent
        case isTrue enabled =>
          refine ⟨consistent.docs, ?_⟩
          intro k' cv cached
          simp only [get_insert] at cached
          split at cached
          case isFalse => exact consistent.cache k' cv cached
          case isTrue same =>
            subst same
            obtain rfl := some.inj cached
            refine ⟨enabled, valid, doc, stored, revision, ?_⟩
            rw [reads, constructVersionedValue_constructCacheValue reads, ← key, ← revision]

def recordStep (ledger : Updates DocKey) : Step → Updates DocKey
  | .commit updates _ _ => updates.toList.foldl writeEntry ledger
  | .crash updates _ _ reached => (updates.toList.filter fun e => reached e.1).foldl writeEntry ledger
  | .read _ | .evict _ | .restart => ledger

def recorded (steps : List Step) : Updates DocKey := steps.foldl recordStep ∅

/-- Every value that a step commits comes back from the database as it was. -/
def ValuesComeBack (json : Json V W) (_ : State V) : Step → Prop
  | .commit updates _ _ | .crash updates _ _ _ => ∀ e ∈ updates.toList, e.2.value.all (comesBack json) = true
  | .read _ | .evict _ | .restart => True

theorem Consistent.step {t : State V} {l : Step} (before : Consistent json config ledger s)
    (back : ValuesComeBack json s l) (taken : s.step json config l = some t) : Consistent json config (recordStep ledger l) t := by
  cases l with
  | read k =>
    obtain rfl := some.inj taken
    exact (before.getState k).2
  | commit updates loaded answers =>
    obtain ⟨committers, built, rfl⟩ := map_eq_ok.mp (toOption_eq_some.mp taken)
    exact Consistent.commitUpdates (builtFrom_of_buildCommitters built) back answers before
  | crash updates loaded answers reached =>
    obtain ⟨committers, built, rfl⟩ := map_eq_ok.mp (toOption_eq_some.mp taken)
    have emptied : Consistent json config ledger ⟨s.docs, ∅⟩ := ⟨before.docs, fun _ _ cached => by simp at cached⟩
    have partly := Consistent.commitUpdates (forall₂_filter (builtFrom_of_buildCommitters built) reached)
      (fun e listed => back e (mem_filter.mp listed).1) answers emptied
    exact ⟨partly.docs, fun _ _ cached => by simp at cached⟩
  | evict k =>
    obtain rfl := some.inj taken
    refine ⟨before.docs, ?_⟩
    intro k' cv cached
    simp only [getElem?_erase, ite_none_left_eq_some] at cached
    exact before.cache k' cv cached.2
  | restart =>
    obtain rfl := some.inj taken
    exact ⟨before.docs, fun _ _ cached => by simp at cached⟩

theorem consistent_of_reaches {steps : List Step} (run : Reaches (State.step json config) (ValuesComeBack json) ⟨∅, ∅⟩ steps s) :
    Consistent json config (recorded steps) s := by
  apply run.invariant (fun steps s => Consistent json config (recorded steps) s)
  · exact ⟨fun _ => by simp [recorded], fun _ _ cached => by simp at cached⟩
  · intro steps t l u before back taken
    rw [recorded, foldl_append]
    exact before.step back taken

/-- Reads do not depend on the cache, every cached revision is the current one, and two peers that have committed
the same to their ledgers give the same answers. -/
theorem cache_transparent (json : Json V W) (config config' : CacheConfig) (steps steps' : List Step) (s s' : State V)
    (run : Reaches (State.step json config) (ValuesComeBack json) ⟨∅, ∅⟩ steps s)
    (run' : Reaches (State.step json config') (ValuesComeBack json) ⟨∅, ∅⟩ steps' s') :
    (∀ k, (getState json config s k).1 = (getState json config { s with cache := ∅ } k).1) ∧
      (∀ (k : DocKey) (cv : CacheValue), s.cache[k]? = some cv →
        ∃ doc : Document V, s.docs[k]? = some doc ∧ cv.additionalInfo = doc.rev) ∧
      (recorded steps = recorded steps' → ∀ k, (getState json config s k).1 = (getState json config' s' k).1) := by
  have here := consistent_of_reaches run
  have there := consistent_of_reaches run'
  have emptied : Consistent json config (recorded steps) { s with cache := ∅ } :=
    ⟨here.docs, fun _ _ cached => by simp at cached⟩
  refine ⟨?_, ?_, ?_⟩
  · intro k
    rw [(here.getState k).1, (emptied.getState k).1]
  · intro k cv cached
    obtain ⟨doc, stored, revision, -⟩ := (here.cache k cv cached).current
    exact ⟨doc, stored, revision⟩
  · intro same k
    rw [(here.getState k).1, (there.getState k).1, same]

/-- A number rounded to the 53 bits of a float, ties to even. -/
def roundToFloat (n : Nat) : Nat :=
  let unit := 2 ^ (n.log2 - 52)
  let units := n / unit
  let roundUp := unit < 2 * (n % unit) ∨ (unit = 2 * (n % unit) ∧ units % 2 = 1)
  (if roundUp then units + 1 else units) * unit

def amountObject (n : Nat) : Bytes :=
  [123, 34, 97, 34, 58] ++ (Nat.toDigits 10 n).map (fun c => c.toNat.toUInt8) ++ [125]

def amounts : Json Nat Nat where
  unmarshal bytes := let n := ((bytes.drop 5).dropLast).foldl (fun n digit => 10 * n + (digit.toNat - 48)) 0
    if bytes = amountObject n then (true, some ((∅ : JsonValue Nat).insert "a" (.other (roundToFloat n))))
    else (false, some ∅)
  marshal fields :=
    match fields["a"]? with
    | some (.other n) => amountObject n
    | _ => [123, 125]
  readBack := id

def account : DocKey := ⟨"mycc", "account"⟩

def writeAmount (n blockNum : Nat) (rev : String) : Step :=
  .commit ((∅ : Updates DocKey).insert account ⟨some (amountObject n), none, ⟨blockNum, 0⟩⟩) ∅ fun _ => .ok rev

instance (s : State V) : (l : Step) → Decidable (ValuesComeBack json s l)
  | .commit updates _ _ | .crash updates _ _ _ =>
    inferInstanceAs (Decidable (∀ e ∈ updates.toList, e.2.value.all (comesBack json) = true))
  | .read _ | .evict _ | .restart => .isTrue trivial

theorem smallAmounts_transparent : ∃ s s', Reaches (State.step amounts ⟨[], true⟩) (ValuesComeBack amounts) ⟨∅, ∅⟩
        [writeAmount 1 1 "1-a", .read account, writeAmount 7 2 "2-b"] s ∧
      Reaches (State.step amounts ⟨[], false⟩) (ValuesComeBack amounts) ⟨∅, ∅⟩
        [writeAmount 1 1 "1-c", writeAmount 7 2 "2-d"] s' ∧
      (∀ k, (getState amounts ⟨[], true⟩ s k).1 = (getState amounts ⟨[], true⟩ { s with cache := ∅ } k).1) ∧
      ∀ k, (getState amounts ⟨[], true⟩ s k).1 = (getState amounts ⟨[], false⟩ s' k).1 := by
  obtain ⟨s, here⟩ := isSome_iff_exists.mp (show (checkRun (State.step amounts ⟨[], true⟩)
    (ValuesComeBack amounts) ⟨∅, ∅⟩ [writeAmount 1 1 "1-a", .read account, writeAmount 7 2 "2-b"]).isSome = true by
      decide +kernel)
  obtain ⟨s', there⟩ := isSome_iff_exists.mp (show (checkRun (State.step amounts ⟨[], false⟩)
    (ValuesComeBack amounts) ⟨∅, ∅⟩ [writeAmount 1 1 "1-c", writeAmount 7 2 "2-d"]).isSome = true by
      decide +kernel)
  have transparent := cache_transparent amounts _ _ _ _ s s' (reaches_of_checkRun here) (reaches_of_checkRun there)
  exact ⟨s, s', reaches_of_checkRun here, reaches_of_checkRun there, transparent.1, transparent.2.2 rfl⟩

/-- An amount that is not a float: the cached value has it as it was written, the database has it rounded. -/
theorem largeAmount_cachedDiffers : ∃ s, Reaches (State.step amounts ⟨[], true⟩) (fun _ _ => True) ⟨∅, ∅⟩
        [writeAmount 1 1 "1-a", .read account, writeAmount 9007199254740993 2 "2-b"] s ∧
      (getState amounts ⟨[], true⟩ s account).1 = .ok (some ⟨some (amountObject 9007199254740993), none, ⟨2, 0⟩⟩) ∧
      (getState amounts ⟨[], true⟩ { s with cache := ∅ } account).1 =
        .ok (some ⟨some (amountObject 9007199254740992), none, ⟨2, 0⟩⟩) := by
  refine exists_reaches (fun s => (getState amounts ⟨[], true⟩ s account).1.toOption =
      some (some ⟨some (amountObject 9007199254740993), none, ⟨2, 0⟩⟩) ∧
    (getState amounts ⟨[], true⟩ { s with cache := ∅ } account).1.toOption =
      some (some ⟨some (amountObject 9007199254740992), none, ⟨2, 0⟩⟩)) (by decide +kernel) fun s _ shown => ?_
  simpa only [toOption_eq_some] using shown

end Fabric.Proof.Statecouchdb
