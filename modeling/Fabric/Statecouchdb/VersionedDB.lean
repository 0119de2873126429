import Fabric.Lib.Transition
import Fabric.Ledger.Statedb

/-! # The CouchDB state database and its cache -/

namespace Fabric.Statecouchdb

open Lib Ledger

structure DocKey where
  ns : String
  key : String
  deriving DecidableEq

def DocKey.fields (k : DocKey) : List String := [k.ns, k.key]

instance : Ord DocKey := ⟨compareOn DocKey.fields⟩

instance : Std.TransOrd DocKey := inferInstanceAs (Std.TransCmp (compareOn DocKey.fields))

instance : Std.LawfulEqOrd DocKey :=
  lawfulEqOrd_of_injective (f := DocKey.fields) (by rintro ⟨_, _⟩ ⟨_, _⟩ same; simpa [DocKey.fields] using same)

/-- A field of a decoded JSON object.  Numbers, arrays and nested objects are values of `V`. -/
inductive Field (V : Type) where
  | null
  | bool (b : Bool)
  | text (s : String)
  | versionAndMetadata (version : Height) (metadata : Bytes)
  | other (v : V)

abbrev JsonValue (V : Type) := Map String (Field V)

def binaryWrapper : String := "valueBytes"
def idField : String := "_id"
def revField : String := "_rev"
def versionField : String := "~version"
def deletedField : String := "_deleted"

/-- `encoding/json` as the state database uses it.  `V` has the numbers as floats, `W` as they were written. -/
structure Json (V W : Type) where
  -- `json.Unmarshal` into an empty map: whether it succeeds, and the map, which is also filled as far as
  -- possible when a number is out of range, and nil for `null`.
  unmarshal : Bytes → Bool × Option (JsonValue V)
  marshal : JsonValue W → Bytes
  -- What comes back for a value that was marshalled, sent to the database, and read from it with `UseNumber`.
  readBack : V → W

def Field.map {V W : Type} (f : V → W) : Field V → Field W
  | .null => .null
  | .bool b => .bool b
  | .text s => .text s
  | .versionAndMetadata version metadata => .versionAndMetadata version metadata
  | .other v => .other (f v)

def JsonValue.readBack {V W : Type} (json : Json V W) (v : JsonValue V) : JsonValue W :=
  Std.ExtTreeMap.map (fun _ field => field.map json.readBack) v

structure Attachment where
  name : String
  attachmentBytes : Bytes

/-- A document as it is sent to the database or read from it, with its JSON text decoded. -/
structure CouchDoc (V : Type) where
  jsonValue : JsonValue V
  attachments : Option (List Attachment)

structure Document (V : Type) where
  rev : String
  fields : JsonValue V
  attachments : Option (List Attachment)

abbrev Documents (V : Type) := Map DocKey (Document V)

section

variable {V W : Type} (json : Json V W)

structure KeyValue where
  key : String
  revision : String
  versionedValue : VersionedValue

def isReservedField (fieldName : String) : Bool :=
  fieldName == versionField || fieldName.toList.head? == some '_'

def checkReservedFieldsNotPresent (v : JsonValue V) : Result Unit :=
  match (v.toList.map (·.1)).find? isReservedField with
  | some fieldName => .error (.error ("field [" ++ fieldName ++ "] is not valid for the CouchDB state database"))
  | none => .ok ()

/-- The version with the metadata, the id and the revision of a key added to the fields of its document. -/
def addReservedFields (kv : KeyValue) (jsonMap : JsonValue V) : JsonValue V :=
  let vv := kv.versionedValue
  let identified := (jsonMap.insert versionField (.versionAndMetadata vv.version (vv.metadata.getD []))).insert
    idField (.text kv.key)
  if kv.revision = "" then identified else identified.insert revField (.text kv.revision)

def keyValToCouchDoc (kv : KeyValue) : Result (CouchDoc V) :=
  match kv.versionedValue.value with
  | none => .ok ⟨(addReservedFields kv ∅).insert deletedField (.bool true), none⟩
  | some value =>
    match json.unmarshal value with
    | (true, some jsonMap) =>
      (checkReservedFieldsNotPresent jsonMap).map fun _ => ⟨addReservedFields kv jsonMap, none⟩
    | (_, jsonMap) => .ok ⟨addReservedFields kv (jsonMap.getD ∅), some [⟨binaryWrapper, value⟩]⟩

def removeJSONRevision (doc : CouchDoc V) : CouchDoc V := { doc with jsonValue := doc.jsonValue.erase revField }

structure CouchDocFields where
  id : String
  revision : String
  value : Bytes
  versionAndMetadata : Height × Bytes

def attachedValue (attachments : List Attachment) : Bytes :=
  attachments.foldl (fun value attachment =>
    if attachment.name = binaryWrapper then attachment.attachmentBytes else value) []

def retrieveRevision : Option (Field W) → Result String
  | none | some .null => .ok ""
  | some (.text revision) => .ok revision
  | some _ => .error (.panic "interface conversion: the revision is not a string")

def retrieveVersion : Option (Field W) → Result (Height × Bytes)
  | none | some .null => .error (.error ("version field " ++ versionField ++ " was not found"))
  | some (.versionAndMetadata version metadata) => .ok (version, metadata)
  | some (.text _) => .error (.error "the version and metadata cannot be decoded")
  | some _ => .error (.panic "interface conversion: the version is not a string")

def validateAndRetrieveFields (doc : CouchDoc W) : Result CouchDocFields :=
  let jsonDoc := doc.jsonValue
  match jsonDoc[idField]? with
  | some (.text id) => do
    let revision ← retrieveRevision jsonDoc[revField]?
    let versionAndMetadata ← retrieveVersion jsonDoc[versionField]?
    let fields := ((jsonDoc.erase idField).erase revField).erase versionField
    let value := match doc.attachments with
      | none => json.marshal fields
      | some attachments => attachedValue attachments
    .ok ⟨id, revision, value, versionAndMetadata⟩
  | _ => .error (.panic "interface conversion: the id is not a string")

/-- A byte field of a message: one without bytes is read as nil. -/
def nilIfEmpty (bytes : Bytes) : Option Bytes := if bytes = [] then none else some bytes

def couchDocToKeyValue (doc : CouchDoc W) : Result KeyValue :=
  (validateAndRetrieveFields json doc).map fun fields =>
    ⟨fields.id, fields.revision,
      ⟨some fields.value, nilIfEmpty fields.versionAndMetadata.2, fields.versionAndMetadata.1⟩⟩

def marksDeleted (v : JsonValue V) : Bool :=
  match v[deletedField]? with
  | some (.bool b) => b
  | _ => false

variable (docs : Documents V)

def Documents.put (k : DocKey) (doc : CouchDoc V) (rev : String) : Documents V :=
  if marksDeleted doc.jsonValue then docs.erase k
  else docs.insert k ⟨rev, (doc.jsonValue.erase idField).erase revField, doc.attachments⟩

def Document.read (doc : Document V) (key : String) : CouchDoc W :=
  ⟨JsonValue.readBack json ((doc.fields.insert idField (.text key)).insert revField (.text doc.rev)), doc.attachments⟩

def Documents.readDoc (k : DocKey) : Option (CouchDoc W) :=
  docs[k]?.map fun doc => doc.read json k.key

/-- Lean strings are valid UTF-8, so that the check for it has no counterpart here. -/
def validateKey (key : String) : Result Unit :=
  if key.toList.head? == some '_' then .error (.error ("invalid key [" ++ key ++ "], cannot begin with \"_\""))
  else if key = "" then .error (.error "invalid key. Empty string is not supported as a key by couchdb")
  else .ok ()

def readFromDB (k : DocKey) : Result (Option KeyValue) := do
  validateKey k.key
  match docs.readDoc json k with
  | none => .ok none
  | some couchDoc => some <$> couchDocToKeyValue json couchDoc

end

structure CacheValue where
  version : Height
  value : Bytes
  metadata : Bytes
  additionalInfo : String

structure CacheConfig where
  sysNamespaces : List String
  usrCache : Bool

def CacheConfig.enabled (config : CacheConfig) (ns : String) : Bool :=
  config.sysNamespaces.contains ns || config.usrCache

abbrev Cache := Map DocKey CacheValue

def Cache.getState (config : CacheConfig) (cache : Cache) (k : DocKey) : Option CacheValue :=
  if config.enabled k.ns then cache[k]? else none

def Cache.updateStates (cache : Cache) (updates : List (DocKey × Option CacheValue)) : Cache :=
  updates.foldl (fun cache update =>
    match update.2 with
    | none => cache.erase update.1
    | some newVal => if update.1 ∈ cache then cache.insert update.1 newVal else cache) cache

def constructCacheValue (kv : KeyValue) : CacheValue :=
  ⟨kv.versionedValue.version, kv.versionedValue.value.getD [], kv.versionedValue.metadata.getD [], kv.revision⟩

def constructVersionedValue (cv : CacheValue) : VersionedValue :=
  ⟨some cv.value, nilIfEmpty cv.metadata, cv.version⟩

structure State (V : Type) where
  docs : Documents V
  cache : Cache

variable {V W : Type} (json : Json V W) (config : CacheConfig)

def getState (s : State V) (k : DocKey) : Result (Option VersionedValue) × State V :=
  match s.cache.getState config k with
  | some cv => (.ok (some (constructVersionedValue cv)), s)
  | none =>
    match readFromDB json s.docs k with
    | .error e => (.error e, s)
    | .ok none => (.ok none, s)
    | .ok (some kv) =>
      (.ok (some kv.versionedValue),
        if config.enabled k.ns then { s with cache := s.cache.insert k (constructCacheValue kv) } else s)

/-- What a committer holds for a key. The cache update is there if the cache is enabled for the namespace. -/
structure BatchableDocument (V : Type) where
  key : DocKey
  couchDoc : CouchDoc V
  deleted : Bool
  cacheUpdate : Option (Option CacheValue)

def addToCacheUpdate (kv : KeyValue) : Option CacheValue :=
  match kv.versionedValue.value with
  | none => none
  | some value =>
    some ⟨kv.versionedValue.version, value, kv.versionedValue.metadata.getD [], kv.revision⟩

def BatchableDocument.updateRevisionInCacheUpdate (doc : BatchableDocument V) (rev : String) : BatchableDocument V :=
  { doc with cacheUpdate := doc.cacheUpdate.map fun update => update.map fun cv => { cv with additionalInfo := rev } }

variable (s : State V)

/-- The revision from the versions loaded for the block, else from the cache, else from the database. -/
def getRevision (loaded : Map DocKey String) (k : DocKey) : String :=
  match loaded[k]? with
  | some rev => rev
  | none =>
    match s.cache.getState config k with
    | some cv => cv.additionalInfo
    | none => (s.docs[k]?.map (·.rev)).getD ""

def buildCommitters (loaded : Map DocKey String) (updates : List (DocKey × VersionedValue)) :
    Result (List (BatchableDocument V)) :=
  updates.mapM fun (k, vv) =>
    let kv : KeyValue := ⟨k.key, getRevision config s loaded k, vv⟩
    (keyValToCouchDoc json kv).map fun couchDoc =>
      ⟨k, couchDoc, vv.value.isNone, if config.enabled k.ns then some (addToCacheUpdate kv) else none⟩

/-- The answer to a document of a bulk update, with the revision that the document gets at last. -/
inductive Answer where
  | ok (rev : String)
  | conflict (rev : String)

def commitDocument (docs : Documents V) (doc : BatchableDocument V) : Answer → Documents V × BatchableDocument V
  | .ok rev => (docs.put doc.key doc.couchDoc rev, doc.updateRevisionInCacheUpdate rev)
  | .conflict rev =>
    if doc.deleted then (docs.erase doc.key, doc)
    else (docs.put doc.key (removeJSONRevision doc.couchDoc) rev, doc.updateRevisionInCacheUpdate rev)

/-- The documents after a bulk update with retries, and the cache updates with their final revisions. -/
def commitUpdates (answers : DocKey → Answer) :
    Documents V → List (BatchableDocument V) → Documents V × List (DocKey × Option CacheValue)
  | docs, [] => (docs, [])
  | docs, doc :: rest =>
    let committed := commitDocument docs doc (answers doc.key)
    let later := commitUpdates answers committed.1 rest
    (later.1, (committed.2.cacheUpdate.map (doc.key, ·)).toList ++ later.2)

def applyUpdates (updates : Updates DocKey) (loaded : Map DocKey String) (answers : DocKey → Answer) :
    Result (State V) :=
  (buildCommitters json config s loaded updates.toList).map fun committers =>
    let committed := commitUpdates answers s.docs committers
    ⟨committed.1, s.cache.updateStates committed.2⟩

/-- What a commit that ends part-way and takes the process down leaves: some documents, and no cache. -/
def crashInCommit (updates : Updates DocKey) (loaded : Map DocKey String) (answers : DocKey → Answer)
    (reached : DocKey → Bool) : Result (State V) :=
  (buildCommitters json config s loaded updates.toList).map fun committers =>
    ⟨(commitUpdates answers s.docs (committers.filter fun doc => reached doc.key)).1, ∅⟩

inductive Step where
  | read (k : DocKey)
  | commit (updates : Updates DocKey) (loaded : Map DocKey String) (answers : DocKey → Answer)
  | crash (updates : Updates DocKey) (loaded : Map DocKey String) (answers : DocKey → Answer) (reached : DocKey → Bool)
  | evict (k : DocKey)
  | restart

def State.step : Step → Option (State V)
  | .read k => some (getState json config s k).2
  | .commit updates loaded answers => (applyUpdates json config s updates loaded answers).toOption
  | .crash updates loaded answers reached => (crashInCommit json config s updates loaded answers reached).toOption
  | .evict k => some { s with cache := s.cache.erase k }
  | .restart => some { s with cache := ∅ }

end Fabric.Statecouchdb
