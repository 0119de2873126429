import Fabric.Lib.PrefixCode
import Fabric.Ledger.PrivacyState

/-! # Read-write sets of transactions -/

namespace Fabric.Ledger

open Lib

structure KVRead where
  key : Bytes
  version : Option Height
  deriving DecidableEq

structure QueryReadsMerkleSummary where
  maxDegree : Nat
  maxLevel : Nat
  maxLevelHashes : List Bytes
  deriving DecidableEq

inductive ReadsInfo where
  | unset
  | rawReads (kvReads : List KVRead)
  | readsMerkleHashes (summary : QueryReadsMerkleSummary)
  deriving DecidableEq

structure RangeQueryInfo where
  startKey : Bytes
  endKey : Bytes
  itrExhausted : Bool
  readsInfo : ReadsInfo
  deriving DecidableEq

structure KVWrite where
  key : Bytes
  isDelete : Bool
  value : Bytes
  deriving DecidableEq

structure KVMetadataEntry where
  name : Bytes
  value : Bytes
  deriving DecidableEq

structure KVMetadataWrite where
  key : Bytes
  entries : List KVMetadataEntry
  deriving DecidableEq

structure KVRWSet where
  reads : List KVRead
  rangeQueriesInfo : List RangeQueryInfo
  writes : List KVWrite
  metadataWrites : List KVMetadataWrite
  deriving DecidableEq

structure KVReadHash where
  keyHash : Bytes
  version : Option Height
  deriving DecidableEq

structure KVWriteHash where
  keyHash : Bytes
  isDelete : Bool
  valueHash : Bytes
  isPurge : Bool
  deriving DecidableEq

structure KVMetadataWriteHash where
  keyHash : Bytes
  entries : List KVMetadataEntry
  deriving DecidableEq

structure HashedRWSet where
  hashedReads : List KVReadHash
  hashedWrites : List KVWriteHash
  metadataWrites : List KVMetadataWriteHash
  deriving DecidableEq

structure CollHashedRwSet where
  collectionName : Bytes
  hashedRwSet : HashedRWSet
  pvtRwSetHash : Option Bytes
  deriving DecidableEq

structure NsRwSet where
  nameSpace : Bytes
  kvRwSet : KVRWSet
  collHashedRwSets : List CollHashedRwSet
  deriving DecidableEq

structure TxRwSet where
  nsRwSets : List NsRwSet
  deriving DecidableEq

structure PvtKVRWSet where
  writes : List KVWrite
  metadataWrites : List KVMetadataWrite
  deriving DecidableEq

structure CollPvtRwSet where
  collectionName : Bytes
  kvRwSet : PvtKVRWSet

structure NsPvtRwSet where
  nameSpace : Bytes
  collPvtRwSets : List CollPvtRwSet

structure TxPvtRwSet where
  nsPvtRwSet : List NsPvtRwSet

structure UpdateKVWrite where
  nameSpace : Bytes
  collection : Bytes
  key : Bytes
  isDelete : Bool
  value : Bytes
  versionBytes : Bytes

/-- The hash function and the message encodings that the ledger takes from its libraries. -/
structure Codec where
  computeHash : Bytes → Bytes
  hashFunc : Bytes → Result Bytes
  serializeKVReads : List KVRead → Result Bytes
  serializeMetadata : List KVMetadataEntry → Bytes
  marshalKVRWSet : PvtKVRWSet → Bytes
  marshalUpdates : List UpdateKVWrite → Bytes

structure Codec.Total (codec : Codec) : Prop where
  hashes : ∀ b, ∃ h, codec.hashFunc b = .ok h
  serializes : ∀ kvReads, ∃ b, codec.serializeKVReads kvReads = .ok b

-- SHA-256 taken as free of collisions, and an encoding from which the write-set can be read back.
structure Codec.CollisionFree (codec : Codec) : Prop where
  hash_injective : Function.Injective codec.computeHash
  hash_nonempty : ∀ b, codec.computeHash b ≠ []
  marshal_injective : Function.Injective codec.marshalKVRWSet

section

open PrefixCode

def encodeKVWrite : KVWrite → Bytes :=
  encodeVia (fun w => (w.key, w.isDelete, w.value)) (encodePair encodeBytes (encodePair encodeBool encodeBytes))

def encodeKVMetadataWrite : KVMetadataWrite → Bytes :=
  encodeVia (fun w => (w.key, w.entries)) <| encodePair encodeBytes <| encodeList <|
    encodeVia (fun e => (e.name, e.value)) (encodePair encodeBytes encodeBytes)

def encodeKVRWSet : PvtKVRWSet → Bytes :=
  encodeVia (fun s => (s.writes, s.metadataWrites))
    (encodePair (encodeList encodeKVWrite) (encodeList encodeKVMetadataWrite))

/-- Encodings without hashing, to evaluate the model with. -/
def Codec.plain : Codec where
  computeHash b := 104 :: b
  hashFunc b := .ok (104 :: b)
  serializeKVReads kvReads := .ok (kvReads.flatMap (·.key))
  serializeMetadata entries := entries.flatMap fun e => 61 :: e.name ++ e.value
  marshalKVRWSet := encodeKVRWSet
  marshalUpdates kvWrites := kvWrites.flatMap fun w => w.nameSpace ++ w.collection ++ w.key ++ w.value

theorem Codec.plain_total : Codec.plain.Total := by
  constructor
  · intro b
    exact ⟨_, rfl⟩
  · intro kvReads
    exact ⟨_, rfl⟩

theorem encodeKVRWSet_injective : Function.Injective encodeKVRWSet := by
  have write : PrefixFree encodeKVWrite := by
    apply prefixFree_via (prefixFree_pair prefixFree_bytes (prefixFree_pair prefixFree_bool prefixFree_bytes))
    rintro ⟨_, _, _⟩ ⟨_, _, _⟩ same
    simpa using same
  have entry : PrefixFree (encodeVia (fun e : KVMetadataEntry => (e.name, e.value)) (encodePair encodeBytes encodeBytes)) := by
    apply prefixFree_via (prefixFree_pair prefixFree_bytes prefixFree_bytes)
    rintro ⟨_, _⟩ ⟨_, _⟩ same
    simpa using same
  have metadataWrite : PrefixFree encodeKVMetadataWrite := by
    apply prefixFree_via (prefixFree_pair prefixFree_bytes (prefixFree_list entry))
    rintro ⟨_, _⟩ ⟨_, _⟩ same
    simpa using same
  have set : PrefixFree encodeKVRWSet := by
    apply prefixFree_via (prefixFree_pair (prefixFree_list write) (prefixFree_list metadataWrite))
    rintro ⟨_, _⟩ ⟨_, _⟩ same
    simpa using same
  exact set.injective

theorem Codec.plain_collisionFree : Codec.plain.CollisionFree := by
  constructor
  · intro a b same
    simpa [Codec.plain] using same
  · intro b
    exact List.cons_ne_nil _ _
  · exact encodeKVRWSet_injective

end

def KVWrite.isKVWriteDelete (kvWrite : KVWrite) : Bool :=
  kvWrite.isDelete || kvWrite.value.isEmpty

def KVWriteHash.isKVWriteHashDelete (codec : Codec) (kvWriteHash : KVWriteHash) : Bool :=
  kvWriteHash.isDelete || kvWriteHash.valueHash.isEmpty || codec.computeHash [] == kvWriteHash.valueHash

end Fabric.Ledger
