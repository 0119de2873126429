import Fabric.Ledger.Validation.PvtBatch

/-! # Expiry of private data

At the commit of a block the purge manager writes down which keys expire with which later block, and deletes them then
unless they were written again. -/

namespace Fabric.Ledger

open Lib

def maxUint64 : Nat := 2 ^ 64 - 1

structure BTLPolicy where
  blockToLive : Bytes → Bytes → Nat
  bounded : ∀ ns coll, blockToLive ns coll ≤ maxUint64

def BTLPolicy.getBTL (p : BTLPolicy) (ns coll : Bytes) : Nat :=
  if 0 < p.blockToLive ns coll then p.blockToLive ns coll else maxUint64

def computeExpiringBlock (committingBlock btl : Nat) : Nat :=
  let expiryBlk := (committingBlock + btl + 1) % 2 ^ 64
  if expiryBlk ≤ committingBlock then maxUint64 else expiryBlk

def BTLPolicy.getExpiringBlock (p : BTLPolicy) (ns coll : Bytes) (committingBlock : Nat) : Nat :=
  computeExpiringBlock committingBlock (p.getBTL ns coll)

def neverExpires (expiryBlk : Nat) : Bool := expiryBlk == maxUint64

namespace PurgeMgmt

structure ExpiryInfoKey where
  expiryBlk : Nat
  committingBlk : Nat
  deriving DecidableEq

def ExpiryInfoKey.fields (k : ExpiryInfoKey) : List Nat := [k.expiryBlk, k.committingBlk]

instance : Ord ExpiryInfoKey := ⟨compareOn ExpiryInfoKey.fields⟩

instance : Std.TransOrd ExpiryInfoKey := inferInstanceAs (Std.TransCmp (compareOn ExpiryInfoKey.fields))

instance : Std.LawfulEqOrd ExpiryInfoKey :=
  lawfulEqOrd_of_injective (f := ExpiryInfoKey.fields)
    (by rintro ⟨_, _⟩ ⟨_, _⟩ same; simpa [ExpiryInfoKey.fields] using same)

structure KeyAndHash where
  ns : Bytes
  coll : Bytes
  key : Bytes
  hash : Bytes

def KeyAndHash.hashedKey (k : KeyAndHash) : CollKey := ⟨k.ns, k.coll, k.hash⟩

abbrev PvtdataKeys := List KeyAndHash

abbrev ExpirySchedule := Map ExpiryInfoKey PvtdataKeys

def expiryInfoKey (btlPolicy : BTLPolicy) (ns coll : Bytes) (committingBlk : Nat) : ExpiryInfoKey :=
  ⟨btlPolicy.getExpiringBlock ns coll committingBlk, committingBlk⟩

def addToSchedule (btlPolicy : BTLPolicy) (entries : ExpirySchedule) (e : KeyAndHash × VersionedValue) : ExpirySchedule :=
  let key := expiryInfoKey btlPolicy e.1.ns e.1.coll e.2.version.blockNum
  if e.2.isDelete || neverExpires key.expiryBlk then entries
  else entries.insert key (entries[key]?.getD [] ++ [e.1])

variable (codec : Codec)

def pvtKeyAndHash (k : CollKey) : KeyAndHash := ⟨k.ns, k.coll, k.key, codec.computeHash k.key⟩

def leftoverKeyAndHash (k : CollKey) : KeyAndHash := ⟨k.ns, k.coll, [], k.key⟩

variable (pvtUpdates hashedUpdates : Updates CollKey)

-- Every private update takes its key hash off the list of hashed keys, a delete too.
def leftoverHashes : Updates CollKey :=
  eraseAll hashedUpdates (pvtUpdates.keys.map (hashedCompositeKey codec))

def scheduledUpdates : List (KeyAndHash × VersionedValue) :=
  pvtUpdates.toList.map (fun e => (pvtKeyAndHash codec e.1, e.2)) ++
    (leftoverHashes codec pvtUpdates hashedUpdates).toList.map fun e => (leftoverKeyAndHash e.1, e.2)

variable (btlPolicy : BTLPolicy)

def buildExpirySchedule (pvtUpdates hashedUpdates : Updates CollKey) :
    ExpirySchedule :=
  (scheduledUpdates codec pvtUpdates hashedUpdates).foldl (addToSchedule btlPolicy) ∅

def ExpirySchedule.update (schedule toTrack : ExpirySchedule) (toClear : List ExpiryInfoKey) : ExpirySchedule :=
  eraseAll (schedule ∪ toTrack) toClear

structure KeyAndVersion where
  key : Bytes
  committingBlock : Nat
  purgeKeyOnly : Bool

abbrev ExpiryInfoMap := Map CollKey KeyAndVersion

structure WorkingSet where
  toPurge : ExpiryInfoMap
  toClearFromSchedule : List ExpiryInfoKey
  expiringBlk : Nat

-- The entry of the committing block is expected to be there; a missing one is decoded to a nil map.
def appendToEntry (schedule updates : ExpirySchedule) (toAdd : ExpiryInfoKey × PvtdataKeys) : Result ExpirySchedule :=
  match schedule[toAdd.1]? with
  | none => .error (.panic "assignment to entry in nil map")
  | some pvtdataKeys => .ok (updates.insert toAdd.1 (pvtdataKeys ++ toAdd.2))

def addMissingKey (toPurge : ExpiryInfoMap) (k : CollKey) : ExpiryInfoMap :=
  let hashedKey := hashedCompositeKey codec k
  match toPurge[hashedKey]? with
  | none => toPurge
  | some toPurgeKey =>
    if toPurgeKey.purgeKeyOnly then toPurge.erase hashedKey
    else toPurge.insert hashedKey { toPurgeKey with key := k.key }

def addMissingPvtDataToWorkingSet (pvtKeys : List CollKey) (workingset : WorkingSet) : WorkingSet :=
  { workingset with toPurge := pvtKeys.foldl (addMissingKey codec) workingset.toPurge }

-- The background routine first reads the schedule and then looks at the versions in the state.
structure Preparation where
  expiringAtBlk : Nat
  toPurge : Option ExpiryInfoMap

structure PurgeMgr where
  schedule : ExpirySchedule
  workingset : Option WorkingSet
  preparation : Option Preparation
  usedOnce : Bool

def PurgeMgr.updateExpiryInfoOfPvtDataOfOldBlocks (p : PurgeMgr)
    (pvtUpdates : Updates CollKey) : Result PurgeMgr := do
  let toAdd := (pvtUpdates.toList.map fun e => (pvtKeyAndHash codec e.1, e.2)).foldl (addToSchedule btlPolicy) ∅
  let expiryInfoUpdates ← toAdd.toList.foldlM (appendToEntry p.schedule) ∅
  .ok { p with
    schedule := p.schedule.update expiryInfoUpdates []
    workingset := p.workingset.map (addMissingPvtDataToWorkingSet codec pvtUpdates.keys) }

def PurgeMgr.updateExpiryInfo (pvtUpdates hashUpdates : Updates CollKey)
    (p : PurgeMgr) : PurgeMgr :=
  { p with schedule := p.schedule.update (buildExpirySchedule codec btlPolicy pvtUpdates hashUpdates) [] }

def PurgeMgr.blockCommitDone (workingset : WorkingSet) (p : PurgeMgr) : PurgeMgr :=
  { p with
    schedule := p.schedule.update ∅ workingset.toClearFromSchedule
    workingset := none }

end PurgeMgmt

end Fabric.Ledger
