import Fabric.Lifecycle.Cache

/-! # What an update of the cache leaves behind -/

namespace Fabric.Proof.Lifecycle

open Lib Fabric.Ledger Fabric.Lifecycle Option
open List hiding getElem?_map

variable {h : Hashing} {org chan name : Bytes} {st : ChannelState} {c : Cache} {starting : Bool}
  {cd : ChaincodeDefinition} {hash : Bytes}

def cached (c : Cache) (chan name : Bytes) : Option CachedChaincodeDefinition :=
  c.definedChaincodes[chan]?.bind (·.chaincodes[name]?)

def interesting (c : Cache) (chan keyHash : Bytes) : Option Bytes :=
  c.definedChaincodes[chan]?.bind (·.interestingHashes[keyHash]?)

def localReferences (m : Map Bytes LocalChaincode) (hash : Bytes) : Finset (Bytes × Bytes) :=
  m[hash]?.elim ∅ (·.references)

def localInfo (m : Map Bytes LocalChaincode) (hash : Bytes) : Option ChaincodeInstallInfo := m[hash]?.bind (·.info)

structure Wanted where
  definition : ChaincodeDefinition
  approved : Bool
  source : Option Bytes

def wantedFor (h : Hashing) (orgState : OrgState) (name : Bytes) (cd : ChaincodeDefinition) : Wanted where
  definition := cd
  approved := isSerialized h orgState name cd
  source := if isSerialized h orgState name cd && isLocalPackage h orgState name cd then
    some (hashOfCCHash orgState name cd) else none

def wanted (h : Hashing) (org : Bytes) (st : ChannelState) (name : Bytes) : Option Wanted :=
  st.definitions[name]?.map (wantedFor h (st.orgStates org) name)

def updatedInfo (c : Cache) (chan name : Bytes) (w : Wanted) : Option ChaincodeInstallInfo :=
  match w.source with
  | none => (cached c chan name).bind (·.installInfo)
  | some hash => localInfo c.localChaincodes hash

def updatedLocal (starting : Bool) (c : Cache) (chan name hash : Bytes) (w : Wanted) : Map Bytes LocalChaincode :=
  let m := updateLocalChaincodes starting chan name ((cached c chan name).bind (·.installInfo)) hash
    c.localChaincodes
  match w.source with
  | none => m
  | some hash => addReference chan name hash m

theorem getD_chaincodes (c : Cache) (chan name : Bytes) :
    (c.definedChaincodes[chan]?.getD ⟨∅, ∅⟩).chaincodes[name]? = cached c chan name := by
  unfold cached
  cases c.definedChaincodes[chan]? <;> simp

theorem updateOne_eq (found : st.definitions[name]? = some cd) : c.updateOne h org starting chan st name =
      ⟨c.definedChaincodes.insert chan ⟨(c.definedChaincodes[chan]?.getD ⟨∅, ∅⟩).chaincodes.insert name
            ⟨cd, (wantedFor h (st.orgStates org) name cd).approved,
              updatedInfo c chan name (wantedFor h (st.orgStates org) name cd), definitionHashes h name cd⟩,
          putAll (eraseAll (c.definedChaincodes[chan]?.getD ⟨∅, ∅⟩).interestingHashes
            ((cached c chan name).elim [] (·.hashes))) ((definitionHashes h name cd).map fun k => (k, name))⟩,
        updatedLocal starting c chan name (hashOfCCHash (st.orgStates org) name cd) (wantedFor h (st.orgStates org) name cd)⟩ := by
  unfold Cache.updateOne updatedInfo updatedLocal wantedFor
  simp only [found, getD_chaincodes]
  cases isSerialized h (st.orgStates org) name cd with
  | false => simp
  | true => cases isLocalPackage h (st.orgStates org) name cd <;> simp [localInfo]

theorem cached_updateOne (found : st.definitions[name]? = some cd) (chan' name' : Bytes) :
    cached (c.updateOne h org starting chan st name) chan' name' = if chan' = chan ∧ name' = name then
        some ⟨cd, (wantedFor h (st.orgStates org) name cd).approved,
          updatedInfo c chan name (wantedFor h (st.orgStates org) name cd), definitionHashes h name cd⟩ else cached c chan' name' := by
  rw [updateOne_eq found]
  simp only [cached, get_insert]
  by_cases sameChannel : chan = chan'
  · subst sameChannel
    simp only [if_true, bind_some, get_insert, true_and, getD_chaincodes, cached]
    by_cases sameName : name = name'
    · simp [sameName]
    · simp [sameName, Ne.symm sameName]
  · simp [sameChannel, Ne.symm sameChannel]

theorem lastFor_map_const (keys : List Bytes) (k name : Bytes) :
    lastFor k (keys.map fun k => (k, name)) = if k ∈ keys then some name else none := by
  induction keys using reverseRecOn with
  | nil => simp [lastFor]
  | append_singleton keys last ih =>
    rw [map_append, map_singleton, lastFor_concat, ih]
    by_cases same : last = k
    · simp [same]
    · simp [same, Ne.symm same]

theorem interesting_updateOne (found : st.definitions[name]? = some cd) (chan' k : Bytes) :
    interesting (c.updateOne h org starting chan st name) chan' k = if chan' = chan then if k ∈ definitionHashes h name cd then some name
        else if k ∈ (cached c chan name).elim [] (·.hashes) then none else interesting c chan k else interesting c chan' k := by
  rw [updateOne_eq found]
  simp only [interesting, get_insert]
  by_cases sameChannel : chan = chan'
  · subst sameChannel
    have read : (c.definedChaincodes[chan]?.getD ⟨∅, ∅⟩).interestingHashes[k]? =
        c.definedChaincodes[chan]?.bind (·.interestingHashes[k]?) := by
      cases c.definedChaincodes[chan]? <;> simp
    simp only [if_true, bind_some, get_putAll, lastFor_map_const, get_eraseAll, read]
    split <;> simp
  · simp [sameChannel, Ne.symm sameChannel]

def removable (old new : Option ChaincodeInstallInfo) : Bool :=
  old.any fun info => !new.any (·.packageID == info.packageID)

variable (old : Option ChaincodeInstallInfo)

theorem localInfo_updateLocalChaincodes (hash k : Bytes) (m : Map Bytes LocalChaincode) :
    localInfo (updateLocalChaincodes starting chan name old hash m) k = localInfo m k := by
  have inserted : localInfo (m.insert hash (m[hash]?.getD ⟨none, ∅⟩)) k = localInfo m k := by
    simp only [localInfo, get_insert]
    split
    · rename_i same
      subst same
      cases m[hash]? <;> simp
    · rfl
  unfold updateLocalChaincodes
  split
  · exact inserted
  · rw [← inserted]
    simp only [localInfo, getElem?_map]
    cases (m.insert hash (m[hash]?.getD ⟨none, ∅⟩))[k]? with
    | none => rfl
    | some lc =>
      simp only [map_some, bind_some, removeReference]
      split
      · rfl
      · split <;> rfl

theorem localReferences_updateLocalChaincodes (hash k : Bytes) (m : Map Bytes LocalChaincode) :
    localReferences (updateLocalChaincodes starting chan name old hash m) k =
      if !starting && removable old (localInfo m hash) then (localReferences m k).erase (chan, name) else localReferences m k := by
  have inserted : localReferences (m.insert hash (m[hash]?.getD ⟨none, ∅⟩)) k = localReferences m k := by
    simp only [localReferences, get_insert]
    split
    · rename_i same
      subst same
      cases m[hash]? <;> simp
    · rfl
  have info : (m[hash]?.getD ⟨none, ∅⟩).info = localInfo m hash := by
    unfold localInfo
    cases m[hash]? <;> simp
  unfold updateLocalChaincodes
  cases starting with
  | true => simpa using inserted
  | false =>
    rw [← inserted]
    simp only [Bool.false_eq_true, if_false, localReferences, getElem?_map, info, Bool.not_false, Bool.true_and]
    cases (m.insert hash (m[hash]?.getD ⟨none, ∅⟩))[k]? with
    | none => simp
    | some lc =>
      simp only [map_some, elim_some, removeReference, removable]
      cases old with
      | none => simp
      | some info =>
        by_cases same : (localInfo m hash).any (·.packageID == info.packageID) = true <;> simp [same]

theorem mem_updateLocalChaincodes (hash : Bytes) (m : Map Bytes LocalChaincode) :
    ∃ lc, (updateLocalChaincodes starting chan name old hash m)[hash]? = some lc := by
  unfold updateLocalChaincodes
  split <;> simp

theorem localInfo_addReference (hash k : Bytes) (m : Map Bytes LocalChaincode) :
    localInfo (addReference chan name hash m) k = localInfo m k := by
  unfold addReference
  split
  · rfl
  · rename_i lc present
    simp only [localInfo, get_insert]
    split
    · rename_i same
      simp [← same, present]
    · rfl

theorem localReferences_addReference {m : Map Bytes LocalChaincode} {lc : LocalChaincode}
    (present : m[hash]? = some lc) (k : Bytes) : localReferences (addReference chan name hash m) k =
      if k = hash then insert (chan, name) (localReferences m k) else localReferences m k := by
  unfold addReference
  simp only [present, localReferences, get_insert]
  by_cases same : hash = k
  · simp [← same, present]
  · simp [same, Ne.symm same]

theorem localReferences_updatedLocal {w : Wanted} (source : ∀ hash', w.source = some hash' → hash' = hash) (k : Bytes) :
    localReferences (updatedLocal starting c chan name hash w) k =
      (if w.source = some k then insert (chan, name) else id) (localReferences (updateLocalChaincodes starting
        chan name ((cached c chan name).bind (·.installInfo)) hash c.localChaincodes) k) := by
  unfold updatedLocal
  cases present : w.source with
  | none => rfl
  | some hash' =>
    cases source hash' present
    obtain ⟨lc, found⟩ := mem_updateLocalChaincodes ((cached c chan name).bind (·.installInfo)) hash c.localChaincodes
    dsimp only
    rw [localReferences_addReference found]
    by_cases same : k = hash
    · simp [same]
    · simp [same, Ne.symm same]

end Fabric.Proof.Lifecycle
