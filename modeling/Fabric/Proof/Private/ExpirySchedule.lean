import Fabric.Ledger.PurgeMgmt
import Fabric.Lib.Transition

/-! # The expiry schedule of a block -/

namespace Fabric.Proof.Private

open Lib Fabric.Ledger Fabric.Ledger.PurgeMgmt Option
open List hiding getElem?_eq_none getElem?_insert mem_keys

variable {key : ExpiryInfoKey} {vv : VersionedValue}
  {updates : List (KeyAndHash × VersionedValue)} {keys : PvtdataKeys} {schedule : ExpirySchedule}
  {toAdd : List (ExpiryInfoKey × PvtdataKeys)}

section

variable (btl : BTLPolicy)

def scheduledAt (e : KeyAndHash × VersionedValue) : Option ExpiryInfoKey :=
  let key := expiryInfoKey btl e.1.ns e.1.coll e.2.version.blockNum
  if e.2.isDelete || neverExpires key.expiryBlk then none else some key

variable {btl}

theorem get_addToSchedule (entries : ExpirySchedule) (e : KeyAndHash × VersionedValue) (key : ExpiryInfoKey) :
    (addToSchedule btl entries e)[key]?.getD [] = entries[key]?.getD [] ++ if scheduledAt btl e = some key then [e.1] else [] := by
  unfold addToSchedule scheduledAt
  simp only
  split
  · simp
  · rw [getElem?_insert]
    simp only [Std.LawfulEqCmp.compare_eq_iff_eq, some.injEq]
    split
    · rename_i same
      simp [same]
    · simp

theorem get_foldl_addToSchedule (updates : List (KeyAndHash × VersionedValue)) (entries : ExpirySchedule)
    (key : ExpiryInfoKey) : (updates.foldl (addToSchedule btl) entries)[key]?.getD [] =
      entries[key]?.getD [] ++ (updates.filter fun e => scheduledAt btl e = some key).map (·.1) := by
  induction updates generalizing entries with
  | nil => simp
  | cons e updates ih =>
    rw [foldl_cons, ih, get_addToSchedule, append_assoc, filter_cons]
    by_cases here : scheduledAt btl e = some key <;> simp [here]

theorem exists_of_get_foldl_addToSchedule
    (found : (updates.foldl (addToSchedule btl) (∅ : ExpirySchedule))[key]? = some keys) {e : KeyAndHash}
    (mem : e ∈ keys) : ∃ vv, (e, vv) ∈ updates ∧ scheduledAt btl (e, vv) = some key := by
  have listed : (updates.foldl (addToSchedule btl) (∅ : ExpirySchedule))[key]?.getD [] = _ :=
    get_foldl_addToSchedule updates ∅ key
  rw [found] at listed
  simp only [getD_some, getElem?_empty, getD_none, nil_append] at listed
  rw [listed] at mem
  obtain ⟨⟨_, vv⟩, inUpdates, rfl⟩ := List.mem_map.mp mem
  obtain ⟨inUpdates, here⟩ := mem_filter.mp inUpdates
  exact ⟨vv, inUpdates, by simpa using here⟩

theorem exists_of_mem_foldl_addToSchedule {entries : ExpirySchedule} (mem : key ∈ updates.foldl (addToSchedule btl) entries) :
    key ∈ entries ∨ ∃ e ∈ updates, scheduledAt btl e = some key := by
  induction updates generalizing entries with
  | nil => exact .inl mem
  | cons e updates ih =>
    rcases ih mem with before | ⟨e', later, place⟩
    · unfold addToSchedule at before
      simp only at before
      split at before
      · exact .inl before
      · rename_i expires
        rcases mem_insert.mp before with same | before
        · refine .inr ⟨e, mem_cons_self, ?_⟩
          rw [scheduledAt]
          simp only [expires, Bool.false_eq_true, if_false, some.injEq]
          exact Std.LawfulEqCmp.eq_of_compare same
        · exact .inl before
    · exact .inr ⟨e', mem_cons_of_mem _ later, place⟩

end

section

variable {codec : Codec} (free : codec.CollisionFree) {pUps hUps : Updates CollKey}

include free in
theorem hashedCompositeKey_injective : Function.Injective (hashedCompositeKey codec) := by
  intro ⟨ns, coll, key⟩ ⟨ns', coll', key'⟩ same
  simp only [hashedCompositeKey, CollKey.mk.injEq] at same
  rw [same.1, same.2.1, free.hash_injective same.2.2]

theorem mem_leftoverHashes {k : CollKey} : (k, vv) ∈ (leftoverHashes codec pUps hUps).toList ↔
      hUps[k]? = some vv ∧ ∀ k' ∈ pUps, hashedCompositeKey codec k' ≠ k := by
  rw [mem_toList_iff_getElem?_eq_some, leftoverHashes, get_eraseAll]
  split
  · rename_i erased
    obtain ⟨k', mem, same⟩ := List.mem_map.mp erased
    constructor
    · simp
    · intro ⟨_, others⟩
      exact absurd same (others k' (mem_keys.mp mem))
  · rename_i kept
    constructor
    · intro found
      exact ⟨found, fun k' mem same => kept (List.mem_map.mpr ⟨k', mem_keys.mpr mem, same⟩)⟩
    · exact And.left

include free in
theorem nodup_scheduledUpdates : ((scheduledUpdates codec pUps hUps).map fun e => e.1.hashedKey).Nodup := by
  unfold scheduledUpdates
  rw [map_append, List.map_map, List.map_map]
  apply List.Nodup.append
  · have keys := (nodup_keys pUps).map (hashedCompositeKey_injective free)
    rwa [List.map_map] at keys
  · exact nodup_keys (leftoverHashes codec pUps hUps)
  · intro k inPvt inLeftover
    obtain ⟨⟨k', _⟩, mem', rfl⟩ := List.mem_map.mp inPvt
    obtain ⟨⟨k, vv⟩, mem, same⟩ := List.mem_map.mp inLeftover
    apply (mem_leftoverHashes.mp mem).2 k'
    · exact mem_of_mem_toList mem'
    · exact same.symm

def OfBlock (blkNum : Nat) (updates : Updates CollKey) : Prop :=
  ∀ (k : CollKey) (vv : VersionedValue), updates[k]? = some vv → vv.version.blockNum = blkNum

/-- The hashed key is the last write of the block to a key that is going to expire. -/
structure ExpiringPut (btl : BTLPolicy) (hUps : Updates CollKey) (k : CollKey) (vv : VersionedValue) :
    Prop where
  final : hUps[k]? = some vv
  put : vv.isDelete = false
  expires : neverExpires (btl.getExpiringBlock k.ns k.coll vv.version.blockNum) = false

structure ScheduledOnce (btl : BTLPolicy) (schedule : ExpirySchedule) (blkNum : Nat) (k : CollKey) : Prop where
  once : ((schedule[expiryInfoKey btl k.ns k.coll blkNum]?.getD []).map KeyAndHash.hashedKey).count k = 1
  nowhereElse : ∀ key keys, schedule[key]? = some keys → (∃ e ∈ keys, e.hashedKey = k) →
    key = expiryInfoKey btl k.ns k.coll blkNum

/-- A private delete does not hide the hashed put of a later transaction. -/
def NoHiddenPut (codec : Codec) (btl : BTLPolicy) (pUps hUps : Updates CollKey) : Prop :=
  ∀ k pvt, pUps[k]? = some pvt → pvt.isDelete → ∀ vv, ¬ ExpiringPut btl hUps (hashedCompositeKey codec k) vv

variable {btl : BTLPolicy} {blkNum : Nat}

theorem exists_scheduledUpdate (pvtOfBlock : OfBlock blkNum pUps) (visible : NoHiddenPut codec btl pUps hUps) {k : CollKey}
    (put : ExpiringPut btl hUps k vv) (ofBlock : vv.version.blockNum = blkNum) :
    ∃ e ∈ scheduledUpdates codec pUps hUps, e.1.hashedKey = k ∧ scheduledAt btl e = some (expiryInfoKey btl k.ns k.coll blkNum) := by
  have expires := put.expires
  rw [ofBlock] at expires
  by_cases known : ∃ k' ∈ pUps, hashedCompositeKey codec k' = k
  · obtain ⟨k', mem, rfl⟩ := known
    obtain ⟨pvt, found⟩ := mem_iff_get.mp mem
    have pvtPut : pvt.isDelete = false := by
      by_contra deleted
      exact visible k' pvt found (by simpa using deleted) vv put
    refine ⟨(pvtKeyAndHash codec k', pvt), mem_append_left _ (List.mem_map.mpr ⟨(k', pvt), ?_, rfl⟩), rfl, ?_⟩
    · exact mem_toList_iff_getElem?_eq_some.mpr found
    · have place : neverExpires (expiryInfoKey btl k'.ns k'.coll blkNum).expiryBlk = false := expires
      simp [scheduledAt, pvtKeyAndHash, pvtOfBlock k' pvt found, pvtPut, place, hashedCompositeKey]
  · refine ⟨(leftoverKeyAndHash k, vv), mem_append_right _ (List.mem_map.mpr ⟨(k, vv), ?_, rfl⟩), rfl, ?_⟩
    · exact mem_leftoverHashes.mpr ⟨put.final, fun k' mem same => known ⟨k', mem, same⟩⟩
    · have place : neverExpires (expiryInfoKey btl k.ns k.coll blkNum).expiryBlk = false := expires
      simp [scheduledAt, leftoverKeyAndHash, ofBlock, put.put, place]

theorem version_of_scheduledUpdate (pvtOfBlock : OfBlock blkNum pUps) (hashOfBlock : OfBlock blkNum hUps)
    {e : KeyAndHash × VersionedValue} (mem : e ∈ scheduledUpdates codec pUps hUps) : e.2.version.blockNum = blkNum := by
  rcases mem_append.mp mem with inPvt | inLeftover
  · obtain ⟨⟨k, vv⟩, found, rfl⟩ := List.mem_map.mp inPvt
    exact pvtOfBlock k vv (mem_toList_iff_getElem?_eq_some.mp found)
  · obtain ⟨⟨k, vv⟩, found, rfl⟩ := List.mem_map.mp inLeftover
    exact hashOfBlock k vv (mem_leftoverHashes.mp found).1

include free in
theorem scheduledOnce_of_visible (pvtOfBlock : OfBlock blkNum pUps) (hashOfBlock : OfBlock blkNum hUps)
    (visible : NoHiddenPut codec btl pUps hUps) {k : CollKey} (put : ExpiringPut btl hUps k vv) :
    ScheduledOnce btl (buildExpirySchedule codec btl pUps hUps) blkNum k where
  once := by
    obtain ⟨e, mem, same, place⟩ := exists_scheduledUpdate pvtOfBlock visible put (hashOfBlock k vv put.final)
    rw [buildExpirySchedule, get_foldl_addToSchedule]
    simp only [getElem?_empty, getD_none, nil_append, List.map_map]
    apply count_eq_one_of_mem
    · exact (nodup_scheduledUpdates free).sublist (filter_sublist.map _)
    · exact List.mem_map.mpr ⟨e, mem_filter.mpr ⟨mem, by simpa using place⟩, same⟩
  nowhereElse := by
    intro key keys found ⟨e, mem, same⟩
    obtain ⟨vv', listed, place⟩ := exists_of_get_foldl_addToSchedule found mem
    have ofBlock : vv'.version.blockNum = blkNum := version_of_scheduledUpdate pvtOfBlock hashOfBlock listed
    simp only [scheduledAt] at place
    split at place
    · simp at place
    · rw [← some.inj place, ofBlock, ← same]
      rfl

include free in
theorem not_scheduled_of_hidden {k : CollKey} {pvt : VersionedValue} (found : pUps[k]? = some pvt)
    (deleted : pvt.isDelete) (key : ExpiryInfoKey) : hashedCompositeKey codec k ∉
      ((buildExpirySchedule codec btl pUps hUps)[key]?.getD []).map KeyAndHash.hashedKey := by
  intro listed
  rw [buildExpirySchedule, get_foldl_addToSchedule] at listed
  simp only [getElem?_empty, getD_none, nil_append, List.map_map] at listed
  obtain ⟨⟨e, vv⟩, mem, same⟩ := List.mem_map.mp listed
  obtain ⟨mem, place⟩ := mem_filter.mp mem
  rcases mem_append.mp mem with inPvt | inLeftover
  · obtain ⟨⟨k', pvt'⟩, found', isEntry⟩ := List.mem_map.mp inPvt
    obtain ⟨rfl, rfl⟩ := Prod.mk.inj isEntry
    obtain rfl : k' = k := hashedCompositeKey_injective free same
    have isPvt := mem_toList_iff_getElem?_eq_some.mp found'
    obtain rfl : pvt' = pvt := some.inj (isPvt.symm.trans found)
    simp [scheduledAt, deleted] at place
  · obtain ⟨⟨k', vv'⟩, found', isEntry⟩ := List.mem_map.mp inLeftover
    obtain ⟨rfl, rfl⟩ := Prod.mk.inj isEntry
    apply (mem_leftoverHashes.mp found').2 k
    · exact mem_of_get found
    · exact same.symm

end

inductive ScheduleOp where
  | commit (pUps hUps : Updates CollKey)
  | blockCommitDone (workingset : WorkingSet)
  | ofOldBlocks (pUps : Updates CollKey)

def scheduleOp (codec : Codec) (btl : BTLPolicy) (p : PurgeMgr) : ScheduleOp → Option PurgeMgr
  | .commit pUps hUps => some (p.updateExpiryInfo codec btl pUps hUps)
  | .blockCommitDone workingset => some (p.blockCommitDone workingset)
  | .ofOldBlocks pUps => (p.updateExpiryInfoOfPvtDataOfOldBlocks codec btl pUps).toOption

/-- Commits of other blocks than `blkNum`, clearing what has expired with a block up to `last`. -/
def LaterOp (blkNum last : Nat) (_ : PurgeMgr) : ScheduleOp → Prop
  | .commit pUps hUps => ∃ n, n ≠ blkNum ∧ OfBlock n pUps ∧ OfBlock n hUps
  | .blockCommitDone workingset => ∀ key ∈ workingset.toClearFromSchedule, key.expiryBlk ≤ last
  | .ofOldBlocks _ => True

def Listed (btl : BTLPolicy) (schedule : ExpirySchedule) (blkNum : Nat) (k : CollKey) : Prop :=
  k ∈ (schedule[expiryInfoKey btl k.ns k.coll blkNum]?.getD []).map KeyAndHash.hashedKey

/-- The puts among the updates are those of the block, to keys that have not expired with the blocks up to `last`. -/
def ReconcilesBlock (codec : Codec) (btl : BTLPolicy) (hUps : Updates CollKey) (blkNum last : Nat)
    (pUps : Updates CollKey) : Prop :=
  ∀ (k : CollKey) (vv : VersionedValue), pUps[k]? = some vv → vv.isDelete = false →
    vv.version.blockNum = blkNum ∧ last < btl.getExpiringBlock k.ns k.coll blkNum ∧
      ∃ hashed, hUps[hashedCompositeKey codec k]? = some hashed ∧ hashed.isDelete = false

section

variable {codec : Codec} {btl : BTLPolicy} {blkNum last : Nat} {p p' : PurgeMgr} {k : CollKey}

theorem get_update (schedule toTrack : ExpirySchedule) (toClear : List ExpiryInfoKey) (key : ExpiryInfoKey) :
    (schedule.update toTrack toClear)[key]? = if key ∈ toClear then none else toTrack[key]?.or schedule[key]? := by
  rw [ExpirySchedule.update, get_eraseAll, getElem?_union]

theorem get_of_foldlM_appendToEntry {updates : ExpirySchedule}
    (run : toAdd.foldlM (appendToEntry schedule) ∅ = .ok updates) (found : updates[key]? = some keys)
    : ∃ old added, schedule[key]? = some old ∧ keys = old ++ added := by
  have general := foldlM_invariant (fun _ (updates : ExpirySchedule) =>
    ∀ (key : ExpiryInfoKey) (keys : PvtdataKeys), updates[key]? = some keys →
      ∃ old added, schedule[key]? = some old ∧ keys = old ++ added) run (by simp) ?_
  · exact general key keys found
  · intro _ entry _ _ _ ih step key keys found
    unfold appendToEntry at step
    split at step
    · simp at step
    · rename_i old isOld
      obtain rfl := ok.inj step
      rw [getElem?_insert] at found
      split at found
      · rename_i same
        obtain rfl := Std.LawfulEqCmp.eq_of_compare same
        exact ⟨old, entry.2, isOld, (some.inj found).symm⟩
      · exact ih key keys found

theorem foldlM_appendToEntry_ok (present : ∀ entry ∈ toAdd, entry.1 ∈ schedule) (updates : ExpirySchedule) :
    ∃ result, toAdd.foldlM (appendToEntry schedule) updates = .ok result := by
  induction toAdd generalizing updates with
  | nil => exact ⟨updates, rfl⟩
  | cons entry toAdd ih =>
    obtain ⟨here, later⟩ := forall_mem_cons.mp present
    obtain ⟨old, isOld⟩ := mem_iff_get.mp here
    obtain ⟨result, run⟩ := ih later (updates.insert entry.1 (old ++ entry.2))
    refine ⟨result, ?_⟩
    rw [foldlM_cons, appendToEntry, isOld]
    exact run

theorem Listed.scheduleOp {op : ScheduleOp} (listed : Listed btl p.schedule blkNum k)
    (unexpired : last < btl.getExpiringBlock k.ns k.coll blkNum) (later : LaterOp blkNum last p op)
    (step : scheduleOp codec btl p op = some p') : Listed btl p'.schedule blkNum k := by
  cases op with
  | commit pUps hUps =>
    obtain ⟨n, other, pvtOfBlock, hashOfBlock⟩ := later
    obtain rfl := some.inj step
    have absent : (buildExpirySchedule codec btl pUps hUps)[expiryInfoKey btl k.ns k.coll blkNum]? = none := by
      apply getElem?_eq_none
      intro mem
      rcases exists_of_mem_foldl_addToSchedule mem with empty | ⟨e, mem, place⟩
      · simp at empty
      · have ofBlock := version_of_scheduledUpdate pvtOfBlock hashOfBlock mem
        simp only [scheduledAt] at place
        split at place
        · simp at place
        · have committing := congrArg ExpiryInfoKey.committingBlk (some.inj place)
          exact other (ofBlock.symm.trans committing)
    simpa [Listed, PurgeMgr.updateExpiryInfo, get_update, absent] using listed
  | blockCommitDone workingset =>
    obtain rfl := some.inj step
    have kept : expiryInfoKey btl k.ns k.coll blkNum ∉ workingset.toClearFromSchedule := by
      intro cleared
      exact absurd (later _ cleared) (Nat.not_le.mpr unexpired)
    simpa [Listed, PurgeMgr.blockCommitDone, get_update, kept] using listed
  | ofOldBlocks pUps =>
    have run := toOption_eq_some.mp step
    simp only [PurgeMgr.updateExpiryInfoOfPvtDataOfOldBlocks, bind_eq_ok] at run
    obtain ⟨updates, appended, result⟩ := run
    obtain rfl := ok.inj result
    simp only [Listed, get_update, not_mem_nil, if_false]
    cases found : updates[expiryInfoKey btl k.ns k.coll blkNum]? with
    | none => exact listed
    | some keys =>
      obtain ⟨old, added, isOld, rfl⟩ := get_of_foldlM_appendToEntry appended found
      rw [Listed, isOld] at listed
      simp only [some_or, getD_some, map_append] at listed ⊢
      exact mem_append_left _ listed

theorem updateExpiryInfoOfPvtDataOfOldBlocks_ok {pUps : Updates CollKey}
    (found : ∀ (k : CollKey) (vv : VersionedValue), pUps[k]? = some vv → vv.isDelete = false →
      neverExpires (btl.getExpiringBlock k.ns k.coll vv.version.blockNum) = false →
        Listed btl p.schedule vv.version.blockNum (hashedCompositeKey codec k)) :
    ∃ p', p.updateExpiryInfoOfPvtDataOfOldBlocks codec btl pUps = .ok p' := by
  have present : ∀ entry ∈ ((pUps.toList.map fun e => (pvtKeyAndHash codec e.1, e.2)).foldl
      (addToSchedule btl) (∅ : ExpirySchedule)).toList, entry.1 ∈ p.schedule := by
    intro entry mem
    have isKey : entry.1 ∈ (pUps.toList.map fun e => (pvtKeyAndHash codec e.1, e.2)).foldl
        (addToSchedule btl) (∅ : ExpirySchedule) := mem_of_mem_toList mem
    rcases exists_of_mem_foldl_addToSchedule isKey with empty | ⟨e, inUpdates, place⟩
    · simp at empty
    · obtain ⟨⟨k, vv⟩, isUpdate, rfl⟩ := List.mem_map.mp inUpdates
      simp only [scheduledAt] at place
      split at place
      · simp at place
      · rename_i expires
        rw [Bool.or_eq_true, not_or, Bool.not_eq_true, Bool.not_eq_true] at expires
        have listed := found k vv (mem_toList_iff_getElem?_eq_some.mp isUpdate) expires.1 expires.2
        rw [← some.inj place]
        by_contra absent
        have none : p.schedule[expiryInfoKey btl k.ns k.coll vv.version.blockNum]? = none := getElem?_eq_none absent
        simp [Listed, hashedCompositeKey, none] at listed
  obtain ⟨updates, run⟩ := foldlM_appendToEntry_ok present ∅
  exact ⟨_, bind_eq_ok.mpr ⟨updates, run, rfl⟩⟩

end

section

variable {codec : Codec} (free : codec.CollisionFree) {btl : BTLPolicy} {pUps hUps : Updates CollKey}
  {blkNum : Nat}

/-- Every put of the block to an expiring key has its entry, and every later reconciliation of the block finds the
entries that it updates. -/
def SchedulesExpiring (codec : Codec) (btl : BTLPolicy) (pUps hUps : Updates CollKey) (blkNum : Nat) :
    Prop :=
  (∀ k vv, ExpiringPut btl hUps k vv → ScheduledOnce btl (buildExpirySchedule codec btl pUps hUps) blkNum k) ∧
    ∀ (p : PurgeMgr) last ops p', Reaches (scheduleOp codec btl) (LaterOp blkNum last)
        (p.updateExpiryInfo codec btl pUps hUps) ops p' →
      ∀ reconciled, ReconcilesBlock codec btl hUps blkNum last reconciled →
        ∃ p'', p'.updateExpiryInfoOfPvtDataOfOldBlocks codec btl reconciled = .ok p''

theorem ScheduledOnce.listed {p : PurgeMgr} {k : CollKey} (scheduled : ScheduledOnce btl (buildExpirySchedule codec btl pUps hUps) blkNum k) :
    Listed btl (p.updateExpiryInfo codec btl pUps hUps).schedule blkNum k := by
  have mem := count_pos_iff.mp (Nat.lt_of_lt_of_eq Nat.zero_lt_one scheduled.once.symm)
  simp only [Listed, PurgeMgr.updateExpiryInfo, get_update, not_mem_nil, if_false]
  cases found : (buildExpirySchedule codec btl pUps hUps)[expiryInfoKey btl k.ns k.coll blkNum]? with
  | none => simp [found] at mem
  | some keys => simpa [found] using mem

include free

theorem schedulesExpiring_iff (pvtOfBlock : OfBlock blkNum pUps) (hashOfBlock : OfBlock blkNum hUps) :
    SchedulesExpiring codec btl pUps hUps blkNum ↔ NoHiddenPut codec btl pUps hUps := by
  constructor
  · intro ⟨scheduled, _⟩ k pvt found deleted vv put
    have once := (scheduled _ vv put).once
    rw [count_eq_zero.mpr (not_scheduled_of_hidden free found deleted _)] at once
    exact absurd once Nat.zero_ne_one
  · intro visible
    have scheduled : ∀ k vv, ExpiringPut btl hUps k vv → ScheduledOnce btl _ blkNum k :=
      fun k vv put => scheduledOnce_of_visible free pvtOfBlock hashOfBlock visible put
    refine ⟨scheduled, ?_⟩
    intro p last ops p' run reconciled ofBlock
    apply updateExpiryInfoOfPvtDataOfOldBlocks_ok
    intro k vv found isPut expires
    obtain ⟨version, unexpired, hashed, final, put⟩ := ofBlock k vv found isPut
    rw [version] at expires ⊢
    have hashVersion := hashOfBlock _ hashed final
    have entry := scheduled _ hashed ⟨final, put, by rw [hashVersion]; exact expires⟩
    apply run.invariant fun _ p' => Listed btl p'.schedule blkNum (hashedCompositeKey codec k)
    · exact entry.listed
    · intro _ _ _ _ listed later step
      exact listed.scheduleOp unexpired later step

end

def threeBlocks : BTLPolicy := ⟨fun _ _ => 3, by simp [maxUint64]⟩

def keyOne : CollKey := ⟨[110], [99], [1]⟩

def updateOf (k : CollKey) (value : Option Bytes) (txNum : Nat) : Updates CollKey :=
  (∅ : Updates CollKey).insert k ⟨value, none, ⟨5, txNum⟩⟩

-- The first transaction of block 5 deletes the key and the second, whose private data is missing, writes it.
def hiddenPut : Updates CollKey × Updates CollKey :=
  (updateOf keyOne none 0, updateOf (hashedCompositeKey Codec.plain keyOne) (some [8]) 1)

theorem hiddenPut_unscheduled :
    ExpiringPut threeBlocks hiddenPut.2 (hashedCompositeKey Codec.plain keyOne) ⟨some [8], none, ⟨5, 1⟩⟩ ∧
      buildExpirySchedule Codec.plain threeBlocks hiddenPut.1 hiddenPut.2 = ∅ ∧
      (PurgeMgr.updateExpiryInfoOfPvtDataOfOldBlocks Codec.plain threeBlocks
        (PurgeMgr.updateExpiryInfo Codec.plain threeBlocks hiddenPut.1 hiddenPut.2 ⟨∅, none, none, true⟩)
        (updateOf keyOne (some [7]) 1)).toOption.isNone := by
  refine ⟨⟨by decide +kernel, by decide, by decide⟩, ?_, by decide +kernel⟩
  apply Std.ExtTreeMap.isEmpty_iff.mp
  decide +kernel

theorem missingPut_scheduled : SchedulesExpiring Codec.plain threeBlocks ∅ hiddenPut.2 5 := by
  apply (schedulesExpiring_iff Codec.plain_collisionFree ?_ ?_).mpr
  · intro k pvt found
    simp at found
  · intro k vv found
    simp at found
  · intro k vv found
    simp only [hiddenPut, updateOf, getElem?_insert] at found
    split at found
    · rw [← some.inj found]
    · simp at found

end Fabric.Proof.Private
