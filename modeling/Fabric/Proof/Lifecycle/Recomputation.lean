import Fabric.Lib.PrefixCode
import Fabric.Proof.Lifecycle.Approvals

/-! # The cache equals its recomputation -/

namespace Fabric.Proof.Lifecycle

open Lib Fabric.Ledger Fabric.Lifecycle
open Option hiding sequence
open List hiding getElem?_eq_none getElem?_insert getElem?_map mem_keys

variable {h : Hashing} {org chan name : Bytes} {st st' : ChannelState} {c : Cache} {starting : Bool}
  {k hash : Bytes} {w : Wanted} {p : Peer}
  {name' : Bytes} {names : List Bytes} {installed : List (Bytes × ChaincodePackageMetadata)}
  {su : ChannelState × StateUpdates}

structure SameCache (c d : Cache) : Prop where
  chaincodes : ∀ chan name, (cached c chan name).map (fun e => (e.definition, e.approved, e.installInfo)) =
    (cached d chan name).map fun e => (e.definition, e.approved, e.installInfo)
  installed : ∀ hash, localInfo c.localChaincodes hash = localInfo d.localChaincodes hash
  references : ∀ hash, localReferences c.localChaincodes hash = localReferences d.localChaincodes hash

def entryFor (h : Hashing) (info : Bytes → Option ChaincodeInstallInfo) (name : Bytes) (w : Wanted) : CachedChaincodeDefinition :=
  ⟨w.definition, w.approved, w.source.bind info, definitionHashes h name w.definition⟩

structure Matches (h : Hashing) (want : Bytes → Bytes → Option Wanted) (info : Bytes → Option ChaincodeInstallInfo)
    (c : Cache) : Prop where
  entries : ∀ chan name, cached c chan name = (want chan name).map (entryFor h info name)
  references : ∀ hash chan name, (chan, name) ∈ localReferences c.localChaincodes hash ↔
    ∃ w, want chan name = some w ∧ w.source = some hash
  packages : ∀ hash, localInfo c.localChaincodes hash = info hash
  hashes : ∀ chan k name, interesting c chan k = some name ↔
    ∃ w, want chan name = some w ∧ k ∈ definitionHashes h name w.definition

theorem Matches.sameCache {want : Bytes → Bytes → Option Wanted} {info : Bytes → Option ChaincodeInstallInfo} {c d : Cache}
    (left : Matches h want info c) (right : Matches h want info d) : SameCache c d where
  chaincodes := by
    intro chan name
    rw [left.entries, right.entries]
  installed := by
    intro hash
    rw [left.packages, right.packages]
  references := by
    intro hash
    ext r
    rw [left.references hash r.1 r.2, right.references hash r.1 r.2]

theorem Matches.congr {want want' : Bytes → Bytes → Option Wanted} {info : Bytes → Option ChaincodeInstallInfo}
    (matched : Matches h want info c) (same : ∀ chan name, want' chan name = want chan name) : Matches h want' info c := by
  have equal : want' = want := funext fun chan => funext (same chan)
  exact equal ▸ matched

def FiledByID (h : Hashing) (info : Bytes → Option ChaincodeInstallInfo) : Prop :=
  ∀ hash i, info hash = some i → h.valueHash i.packageID = hash

def Follows (info : Bytes → Option ChaincodeInstallInfo) (old : Option Wanted) (new : Wanted) : Prop :=
  ∀ w hash, old = some w → w.source = some hash →
    ∃ hash', new.source = some hash' ∧ (hash' = hash ∨ (info hash).isSome)

def setWanted (want : Bytes → Bytes → Option Wanted) (chan name : Bytes) (w : Wanted) (chan' name' : Bytes) :
    Option Wanted :=
  if chan' = chan ∧ name' = name then some w else want chan' name'

theorem keyHash_mem {cd : ChaincodeDefinition} (mem : k ∈ definitionHashes h name cd) :
    ∃ field, k = h.keyHash ⟨name, cd.sequence, field⟩ := by
  obtain ⟨field, -, rfl⟩ := List.mem_map.mp mem
  exact ⟨field, rfl⟩

theorem name_of_keyHash {cd cd' : ChaincodeDefinition} (left : k ∈ definitionHashes h name cd)
    (right : k ∈ definitionHashes h name' cd') : name = name' := by
  obtain ⟨field, rfl⟩ := keyHash_mem left
  obtain ⟨field', same⟩ := keyHash_mem right
  exact congrArg OrgKey.name (h.keyHash_injective same)

section

variable {want : Bytes → Bytes → Option Wanted} {info : Bytes → Option ChaincodeInstallInfo} {cd : ChaincodeDefinition}

theorem updatedInfo_eq (matched : Matches h want info c) (follows : Follows info (want chan name) w)
    : updatedInfo c chan name w = w.source.bind info := by
  unfold updatedInfo
  cases source : w.source with
  | some hash => simpa using matched.packages hash
  | none =>
    rw [matched.entries]
    cases before : want chan name with
    | none => rfl
    | some old =>
      have without : old.source = none := by
        cases oldSource : old.source with
        | none => rfl
        | some hash =>
          obtain ⟨hash', present, -⟩ := follows old hash before oldSource
          simp [source] at present
      simp [entryFor, without]

theorem Matches.installInfo (matched : Matches h want info c) (chan name : Bytes) :
    (cached c chan name).bind (·.installInfo) = (want chan name).bind fun w => w.source.bind info := by
  rw [matched.entries]
  cases want chan name <;> rfl

theorem removable_of_ne (filed : FiledByID h info) {old : Bytes} {i : ChaincodeInstallInfo}
    (found : info old = some i) (other : old ≠ hash) : removable (info old) (info hash) = true := by
  rw [found]
  cases present : info hash with
  | none => rfl
  | some j =>
    have differ : j.packageID ≠ i.packageID := by
      intro same
      apply other
      rw [← filed old i found, ← filed hash j present, same]
    simp [removable, differ]

section

variable (matched : Matches h want info c)
include matched

theorem references_self (filed : FiledByID h info)
    (source : ∀ hash', w.source = some hash' → hash' = hash) (follows : Follows info (want chan name) w)
    (fresh : starting = true → want chan name = none) (absent : w.source ≠ some k) :
    (chan, name) ∉ localReferences (updateLocalChaincodes starting chan name
      ((cached c chan name).bind (·.installInfo)) hash c.localChaincodes) k := by
  rw [localReferences_updateLocalChaincodes, matched.packages, matched.installInfo]
  intro mem
  have before : (chan, name) ∈ localReferences c.localChaincodes k := by
    split at mem
    · exact Finset.mem_of_mem_erase mem
    · exact mem
  obtain ⟨old, wantedBefore, oldSource⟩ := (matched.references k chan name).mp before
  obtain ⟨hash', present, installed⟩ := follows old k wantedBefore oldSource
  cases source hash' present
  have other : k ≠ hash := by
    intro same
    exact absent (same ▸ present)
  obtain ⟨i, found⟩ := isSome_iff_exists.mp (installed.resolve_left other.symm)
  have running : starting = false := by
    cases starting with
    | false => rfl
    | true => simp [fresh rfl] at wantedBefore
  simp [running, wantedBefore, oldSource, removable_of_ne filed found other] at mem

theorem references_other (hash k : Bytes) {chan' : Bytes} (other : (chan', name') ≠ (chan, name)) (oldInfo : Option ChaincodeInstallInfo) :
    (chan', name') ∈ localReferences (updateLocalChaincodes starting chan name oldInfo hash c.localChaincodes) k ↔
      ∃ w, want chan' name' = some w ∧ w.source = some k := by
  rw [localReferences_updateLocalChaincodes, ← matched.references]
  split
  · rw [Finset.mem_erase]
    exact ⟨And.right, fun mem => ⟨other, mem⟩⟩
  · rfl

theorem references_updated (filed : FiledByID h info)
    (source : ∀ hash', w.source = some hash' → hash' = hash) (follows : Follows info (want chan name) w)
    (fresh : starting = true → want chan name = none) (k chan' name' : Bytes) :
    (chan', name') ∈ localReferences (updatedLocal starting c chan name hash w) k ↔
      ∃ w', setWanted want chan name w chan' name' = some w' ∧ w'.source = some k := by
  rw [localReferences_updatedLocal source]
  by_cases same : (chan', name') = (chan, name)
  · cases same
    simp only [setWanted, and_self, if_true, some.injEq, exists_eq_left']
    by_cases present : w.source = some k
    · simp [present]
    · simp only [present, iff_false]
      exact references_self matched filed source follows fresh present
  · have elsewhere : ¬ (chan' = chan ∧ name' = name) := by
      intro both
      exact same (Prod.ext both.1 both.2)
    simp only [setWanted, if_neg elsewhere]
    rw [← references_other matched hash k same ((cached c chan name).bind (·.installInfo))]
    split
    · rw [Finset.mem_insert]
      exact ⟨fun mem => mem.resolve_left same, Or.inr⟩
    · rfl

theorem hashes_updated (cd : ChaincodeDefinition) (w : Wanted) (same : w.definition = cd) (k name' : Bytes) :
    (if k ∈ definitionHashes h name cd then some name
      else if k ∈ (cached c chan name).elim [] (·.hashes) then none else interesting c chan k) = some name' ↔
      ∃ w', setWanted want chan name w chan name' = some w' ∧ k ∈ definitionHashes h name' w'.definition := by
  subst same
  simp only [setWanted, true_and]
  have old : (cached c chan name).elim [] (·.hashes) = (want chan name).elim [] fun w => definitionHashes h name w.definition := by
    rw [matched.entries]
    cases want chan name <;> rfl
  rw [old]
  by_cases mine : k ∈ definitionHashes h name w.definition
  · rw [if_pos mine, some.injEq]
    constructor
    · intro here
      subst here
      exact ⟨w, if_pos rfl, mine⟩
    · intro ⟨w', _, mem⟩
      exact name_of_keyHash mine mem
  · rw [if_neg mine]
    by_cases here : name' = name
    · subst here
      simp only [if_true, some.injEq, exists_eq_left', mine, iff_false]
      split
      · simp
      · rename_i stale
        intro found
        obtain ⟨w', wantedBefore, mem⟩ := (matched.hashes chan k name').mp found
        exact stale (by simpa [wantedBefore] using mem)
    · rw [if_neg here, ← matched.hashes]
      split
      · rename_i stale
        simp only [reduceCtorEq, false_iff]
        intro found
        obtain ⟨w', _, mem⟩ := (matched.hashes chan k name').mp found
        cases before : want chan name with
        | none => simp [before] at stale
        | some w'' =>
          rw [before] at stale
          exact here (name_of_keyHash mem stale)
      · rfl

theorem Matches.updateOne (filed : FiledByID h info) (found : st.definitions[name]? = some cd)
    (follows : Follows info (want chan name) (wantedFor h (st.orgStates org) name cd)) (fresh : starting = true → want chan name = none) :
    Matches h (setWanted want chan name (wantedFor h (st.orgStates org) name cd)) info (c.updateOne h org starting chan st name) where
  entries := by
    intro chan' name'
    rw [cached_updateOne found, updatedInfo_eq matched follows, setWanted]
    split
    · rename_i same
      obtain ⟨rfl, rfl⟩ := same
      rfl
    · exact matched.entries chan' name'
  references := by
    intro hash chan' name'
    rw [updateOne_eq found]
    refine references_updated matched filed ?_ follows fresh hash chan' name'
    intro hash' source
    simp only [wantedFor, ite_none_right_eq_some, some.injEq] at source
    exact source.2.symm
  packages := by
    intro hash
    rw [updateOne_eq found, ← matched.packages]
    simp only [updatedLocal]
    split
    · exact localInfo_updateLocalChaincodes _ _ _ _
    · rw [localInfo_addReference, localInfo_updateLocalChaincodes]
  hashes := by
    intro chan' k name'
    rw [interesting_updateOne found]
    by_cases sameChannel : chan' = chan
    · subst sameChannel
      rw [if_pos rfl]
      exact hashes_updated matched cd (wantedFor h (st.orgStates org) name cd) rfl k name'
    · rw [if_neg sameChannel, matched.hashes]
      simp [setWanted, sameChannel]

end

-- Every chaincode is visited once, so its own update sees what the state said of it before.
theorem Matches.foldl_updateOne (names : List Bytes) (distinct : names.Nodup)
    (defined : ∀ name ∈ names, name ∈ st.definitions) (filed : FiledByID h info) (matched : Matches h want info c)
    (follows : ∀ name ∈ names, ∀ cd, st.definitions[name]? = some cd → Follows info (want chan name)
      (wantedFor h (st.orgStates org) name cd))
    (fresh : starting = true → ∀ name ∈ names, want chan name = none) :
    Matches h (fun ch name => if ch = chan ∧ name ∈ names then wanted h org st name else want ch name) info
      (names.foldl (Cache.updateOne h org starting chan st) c) := by
  induction names generalizing c want with
  | nil => simpa using matched
  | cons name names ih =>
    obtain ⟨absent, distinct⟩ := nodup_cons.mp distinct
    obtain ⟨cd, found⟩ : ∃ cd, st.definitions[name]? = some cd :=
      mem_iff_get.mp (defined name mem_cons_self)
    have one : Matches h (setWanted want chan name (wantedFor h (st.orgStates org) name cd)) info
        (c.updateOne h org starting chan st name) := by
      apply matched.updateOne filed found (follows name mem_cons_self cd found)
      intro starts
      exact fresh starts name mem_cons_self
    have untouched : ∀ name' ∈ names, setWanted want chan name (wantedFor h (st.orgStates org) name cd) chan name' = want chan name' := by
      intro name' mem
      have other : name' ≠ name := by
        intro same
        exact absent (same ▸ mem)
      simp [setWanted, other]
    have rest := ih distinct (fun name' mem => defined name' (mem_cons_of_mem _ mem)) one
      (fun name' mem cd' found' => untouched name' mem ▸ follows name' (mem_cons_of_mem _ mem) cd' found')
      (fun starts name' mem => (untouched name' mem).trans (fresh starts name' (mem_cons_of_mem _ mem)))
    apply rest.congr
    intro ch name'
    by_cases here : ch = chan ∧ name' = name
    · obtain ⟨rfl, rfl⟩ := here
      simp [setWanted, absent, wanted, found]
    · simp only [mem_cons, setWanted, if_neg here]
      by_cases sameChannel : ch = chan
      · have other : name' ≠ name := fun same => here ⟨sameChannel, same⟩
        simp [sameChannel, other]
      · simp [sameChannel]

theorem Matches.openChannel (matched : Matches h want info c) (chan : Bytes) :
    Matches h want info ⟨c.definedChaincodes.insert chan (c.definedChaincodes[chan]?.getD ⟨∅, ∅⟩), c.localChaincodes⟩ where
  entries := by
    intro chan' name
    rw [← matched.entries]
    simp only [cached, get_insert]
    split
    · rename_i same
      subst same
      cases c.definedChaincodes[chan]? <;> simp
    · rfl
  references := matched.references
  packages := matched.packages
  hashes := by
    intro chan' k name
    rw [← matched.hashes]
    simp only [interesting, get_insert]
    split
    · rename_i same
      subst same
      cases c.definedChaincodes[chan]? <;> simp
    · rfl

theorem Matches.handleChaincodeInstalled (matched : Matches h want info c) (p : Bytes × ChaincodePackageMetadata) :
    Matches h want (fun hash => if hash = h.valueHash p.1 then some ⟨p.1, p.2⟩ else info hash) (c.handleChaincodeInstalled h p) where
  entries := by
    intro chan name
    have read : cached (c.handleChaincodeInstalled h p) chan name = (cached c chan name).map fun entry =>
        if (chan, name) ∈ localReferences c.localChaincodes (h.valueHash p.1) then
          { entry with installInfo := some ⟨p.1, p.2⟩ } else entry := by
      simp only [cached, Cache.handleChaincodeInstalled, localReferences, getElem?_map]
      cases c.definedChaincodes[chan]? with
      | none => rfl
      | some channelCache =>
        rw [map_some, bind_some, bind_some, getElem?_map]
        rfl
    rw [read, matched.entries, Option.map_map]
    cases present : want chan name with
    | none => rfl
    | some w =>
      simp only [map_some, Function.comp_apply, matched.references, present, some.injEq, exists_eq_left', entryFor]
      cases source : w.source with
      | none => simp
      | some hash => by_cases same : hash = h.valueHash p.1 <;> simp [same]
  references := by
    intro hash chan name
    rw [← matched.references]
    simp only [localReferences, Cache.handleChaincodeInstalled, getElem?_insert, Std.LawfulEqCmp.compare_eq_iff_eq]
    split
    · rename_i same
      simp [same]
    · rfl
  packages := by
    intro hash
    rw [← matched.packages]
    simp only [localInfo, Cache.handleChaincodeInstalled, get_insert]
    by_cases same : hash = h.valueHash p.1
    · simp [same]
    · simp [same, Ne.symm same]
  hashes := by
    intro chan k name
    rw [← matched.hashes]
    simp only [interesting, Cache.handleChaincodeInstalled, getElem?_map]
    cases c.definedChaincodes[chan]? <;> simp

end

def installedInfo (h : Hashing) (installed : List (Bytes × ChaincodePackageMetadata)) (hash : Bytes) :
    Option ChaincodeInstallInfo :=
  lastFor hash (installed.map fun p => (h.valueHash p.1, ⟨p.1, p.2⟩))

theorem installedInfo_concat (installed : List (Bytes × ChaincodePackageMetadata)) (p : Bytes × ChaincodePackageMetadata)
    (hash : Bytes) : installedInfo h (installed ++ [p]) hash =
      if hash = h.valueHash p.1 then some ⟨p.1, p.2⟩ else installedInfo h installed hash := by
  unfold installedInfo
  rw [map_append, map_singleton, lastFor_concat]
  by_cases same : hash = h.valueHash p.1
  · simp [same]
  · simp [same, Ne.symm same]

theorem filedByID (installed : List (Bytes × ChaincodePackageMetadata)) : FiledByID h (installedInfo h installed) := by
  intro hash i found
  obtain ⟨p, -, same⟩ := List.mem_map.mp (mem_of_lastFor found)
  cases same
  rfl

def wantedOn (h : Hashing) (org : Bytes) (ledgers : Map Bytes ChannelState) (chan name : Bytes) : Option Wanted :=
  ledgers[chan]?.bind fun st => wanted h org st name

theorem matches_installed (installed : List (Bytes × ChaincodePackageMetadata)) :
    Matches h (fun _ _ => none) (installedInfo h installed) (newCache.initializeLocalChaincodes h installed) := by
  induction installed using reverseRecOn with
  | nil =>
    constructor <;> intros <;>
      simp [newCache, Cache.initializeLocalChaincodes, cached, localReferences, localInfo, interesting, installedInfo, lastFor]
  | append_singleton installed p ih =>
    have next := ih.handleChaincodeInstalled p
    rw [Cache.initializeLocalChaincodes, foldl_append]
    rw [show installedInfo h (installed ++ [p]) = _ from funext (installedInfo_concat installed p)]
    exact next

theorem follows_none {info : Bytes → Option ChaincodeInstallInfo} (w : Wanted) : Follows info none w := by
  intro old hash before
  cases before

theorem Matches.initializeChannel {want : Bytes → Bytes → Option Wanted} {info : Bytes → Option ChaincodeInstallInfo}
    (matched : Matches h want info c) (filed : FiledByID h info) (order : names.Perm st.definitions.keys)
    (unopened : ∀ name, want chan name = none) : Matches h (fun ch name => if ch = chan then wanted h org st name else want ch name) info
      (c.initializeChannel h org chan names st) := by
  have distinct : names.Nodup := order.nodup_iff.mpr Std.ExtTreeMap.nodup_keys
  have listed : ∀ name, name ∈ names ↔ name ∈ st.definitions := by
    intro name
    rw [order.mem_iff, mem_keys]
  refine Matches.congr (Matches.foldl_updateOne names distinct (fun name => (listed name).mp) filed
    (matched.openChannel chan) (fun name _ cd _ => ?_) (fun _ name _ => unopened name)) ?_
  · rw [unopened name]
    exact follows_none _
  intro ch name
  by_cases here : ch = chan
  · subst here
    by_cases mem : name ∈ names
    · simp [mem]
    · have absent : st.definitions[name]? = none := by
        apply getElem?_eq_none
        exact fun present => mem ((listed name).mpr present)
      simp [mem, unopened, wanted, absent]
  · simp [here]

theorem matches_freshCache (ledgers : Map Bytes ChannelState) (installed : List (Bytes × ChaincodePackageMetadata)) :
    Matches h (wantedOn h org ledgers) (installedInfo h installed) (freshCache h org ledgers installed) := by
  suffices general : ∀ ls : List (Bytes × ChannelState), (ls.map (·.1)).Nodup →
      Matches h (fun ch name => (lastFor ch ls).bind fun st => wanted h org st name) (installedInfo h installed)
        (ls.foldl (fun c l => c.initializeChannel h org l.1 l.2.definitions.keys l.2)
          (newCache.initializeLocalChaincodes h installed)) by
    apply (general ledgers.toList (nodup_keys ledgers)).congr
    intro ch name
    rw [lastFor_toList]
    rfl
  intro ls
  induction ls using reverseRecOn with
  | nil => exact fun _ => matches_installed installed
  | append_singleton ls l ih =>
    intro distinct
    rw [map_append, nodup_append] at distinct
    have unopened : lastFor l.1 ls = none := by
      rw [lastFor_eq_none]
      intro st mem
      exact distinct.2.2 l.1 (List.mem_map.mpr ⟨(l.1, st), mem, rfl⟩) l.1 (by simp) rfl
    rw [foldl_append]
    apply ((ih distinct.1).initializeChannel (filedByID installed) (List.Perm.refl l.2.definitions.keys) ?_).congr
    · intro ch name
      rw [lastFor_concat]
      by_cases here : ch = l.1
      · simp [here]
      · simp [here, Ne.symm here]
    · intro name
      rw [unopened]
      rfl

structure Consistent (h : Hashing) (org : Bytes) (p : Peer) : Prop where
  matched : Matches h (wantedOn h org p.ledgers) (installedInfo h p.installed) p.cache
  paired : ∀ (chan : Bytes) (st : ChannelState), p.ledgers[chan]? = some st → ∀ org, Paired h (st.orgStates org)

def approvedPackage (h : Hashing) (org : Bytes) (st : ChannelState) (name : Bytes) : Option Bytes :=
  (wanted h org st name).bind (·.source)

-- Where a package was approved, one still is, and another one only if the first is installed.
def KeepsPackages (h : Hashing) (org : Bytes) (installed : List (Bytes × ChaincodePackageMetadata)) (st st' : ChannelState) :
    Prop :=
  ∀ name hash, approvedPackage h org st name = some hash →
    ∃ hash', approvedPackage h org st' name = some hash' ∧ (hash' = hash ∨ ∃ p ∈ installed, h.valueHash p.1 = hash)

def VisitsAll (h : Hashing) (org : Bytes) (p : Peer) : Step → Prop
  | .openChannel _ history names => ∀ su, applyRequests h .empty history = .ok su → names.Perm su.1.definitions.keys
  | .install _ _ => True
  | .commitBlock chan requests dirtyNames => ∀ st, p.ledgers[chan]? = some st →
      ∀ su, applyRequests h st requests = .ok su → dirtyNames.Nodup ∧
        dirtyNames.toFinset = p.cache.dirtyChaincodes org chan su.2

def StepKeepsPackages (h : Hashing) (org : Bytes) (p : Peer) : Step → Prop
  | .commitBlock chan requests _ => ∀ st, p.ledgers[chan]? = some st → ∀ su, applyRequests h st requests = .ok su →
      KeepsPackages h org p.installed st su.1
  | _ => True

theorem isSome_installedInfo {p : Bytes × ChaincodePackageMetadata} (mem : p ∈ installed)
    : (installedInfo h installed (h.valueHash p.1)).isSome := by
  cases found : installedInfo h installed (h.valueHash p.1) with
  | some i => rfl
  | none => exact absurd (List.mem_map.mpr ⟨p, mem, rfl⟩) (lastFor_eq_none.mp found _)

theorem KeepsPackages.follows {cd : ChaincodeDefinition} (keeps : KeepsPackages h org installed st st')
    (found : st'.definitions[name]? = some cd) :
    Follows (installedInfo h installed) (wanted h org st name) (wantedFor h (st'.orgStates org) name cd) := by
  intro w hash before source
  have approved : approvedPackage h org st name = some hash := by
    rw [approvedPackage, before]
    exact source
  obtain ⟨hash', after, other⟩ := keeps name hash approved
  refine ⟨hash', by simpa [approvedPackage, wanted, found] using after, ?_⟩
  cases other with
  | inl same => exact .inl same
  | inr installed =>
    obtain ⟨p, mem, same⟩ := installed
    exact .inr (same ▸ isSome_installedInfo mem)

theorem Consistent.newPeer (installed : List (Bytes × ChaincodePackageMetadata)) : Consistent h org (newPeer h installed) where
  matched := by
    apply (matches_installed installed).congr
    intro chan name
    simp [wantedOn, Lifecycle.newPeer]
  paired := by
    intro chan st found
    simp [Lifecycle.newPeer] at found

theorem Consistent.openChannel {history : List Request} (inv : Consistent h org p) (unopened : chan ∉ p.ledgers)
    (applied : applyRequests h .empty history = .ok su) (order : names.Perm su.1.definitions.keys) :
    Consistent h org { p with
      cache := p.cache.initializeChannel h org chan names su.1
      ledgers := p.ledgers.insert chan su.1 } where
  matched := by
    apply (inv.matched.initializeChannel (filedByID p.installed) order ?_).congr
    · intro ch name
      simp only [wantedOn, get_insert]
      by_cases here : ch = chan
      · simp [here]
      · simp [here, Ne.symm here]
    · intro name
      rw [wantedOn, getElem?_eq_none unopened]
      rfl
  paired := by
    intro ch st found
    rw [getElem?_insert] at found
    split at found
    · cases found
      exact (applyRequests_inv (fun _ => paired_empty) applied).paired
    · exact inv.paired ch st found

theorem mem_dirtyChaincodes {su : StateUpdates} : name ∈ p.cache.dirtyChaincodes org chan su ↔
      name ∈ su.publicUpdates ∨ ∃ k, (org, k) ∈ su.collHashUpdates ∧ interesting p.cache chan k = some name := by
  have read : ∀ k, (p.cache.definedChaincodes[chan]?.elim ∅ (·.interestingHashes))[k]? = interesting p.cache chan k := by
    intro k
    unfold interesting
    cases p.cache.definedChaincodes[chan]? <;> simp
  simp only [Cache.dirtyChaincodes, read, Finset.mem_union, List.mem_toFinset, mem_filterMap]
  apply or_congr Iff.rfl
  constructor
  · intro ⟨u, mem, found⟩
    split at found
    · rename_i same
      exact ⟨u.2, same ▸ mem, found⟩
    · cases found
  · intro ⟨k, mem, found⟩
    exact ⟨(org, k), mem, by simpa using found⟩

theorem Consistent.commitBlock {requests : List Request} {dirtyNames : List Bytes} (inv : Consistent h org p)
    (opened : p.ledgers[chan]? = some st) (applied : applyRequests h st requests = .ok su)
    (distinct : dirtyNames.Nodup) (dirty : dirtyNames.toFinset = p.cache.dirtyChaincodes org chan su.2)
    (keeps : KeepsPackages h org p.installed st su.1) : Consistent h org { p with
      cache := p.cache.update h org false chan dirtyNames su.1
      ledgers := p.ledgers.insert chan su.1 } where
  matched := by
    have visited : ∀ name, name ∈ dirtyNames ↔ name ∈ p.cache.dirtyChaincodes org chan su.2 := by
      intro name
      rw [← dirty, List.mem_toFinset]
    have before : ∀ name, wantedOn h org p.ledgers chan name = wanted h org st name := by
      intro name
      simp [wantedOn, opened]
    have changes := applyRequests_inv (inv.paired chan st opened) applied
    have defined : ∀ name ∈ dirtyNames, name ∈ su.1.definitions := by
      intro name mem
      cases mem_dirtyChaincodes.mp ((visited name).mp mem) with
      | inl written => exact changes.listed.names name written
      | inr approval =>
        obtain ⟨k, -, found⟩ := approval
        obtain ⟨w, present, -⟩ := (inv.matched.hashes chan k name).mp found
        rw [before, wanted, map_eq_some_iff] at present
        obtain ⟨cd, committed, -⟩ := present
        exact changes.kept name (mem_of_get committed)
    refine Matches.congr (Matches.foldl_updateOne dirtyNames distinct defined (filedByID p.installed)
      (inv.matched.openChannel chan) ?_ (by simp)) ?_
    · intro name mem cd found
      rw [before]
      exact keeps.follows found
    · intro ch name
      simp only [wantedOn, get_insert]
      by_cases here : ch = chan
      · subst here
        by_cases mem : name ∈ dirtyNames
        · simp [mem]
        · have clean := mt mem_dirtyChaincodes.mpr (mt (visited name).mpr mem)
          rw [not_or] at clean
          simp only [if_true, bind_some, mem, and_false, if_false, opened]
          apply wanted_of_listed (inv.paired ch st opened) changes clean.1
          intro cd found k hashed listed
          apply clean.2
          refine ⟨k, listed, (inv.matched.hashes ch k name).mpr ⟨wantedFor h (st.orgStates org) name cd, ?_, hashed⟩⟩
          rw [before, wanted, found]
          rfl
      · simp [here, Ne.symm here]
  paired := by
    intro ch st' found
    rw [getElem?_insert] at found
    split at found
    · cases found
      exact (applyRequests_inv (inv.paired chan st opened) applied).paired
    · exact inv.paired ch st' found

theorem Consistent.step {q : Peer} {step : Step} (inv : Consistent h org p) (visits : VisitsAll h org p step)
    (keeps : StepKeepsPackages h org p step) (taken : p.step h org step = some q) : Consistent h org q := by
  cases step with
  | openChannel chan history names =>
    simp only [Peer.step] at taken
    split at taken
    · cases taken
    · rename_i unopened
      obtain ⟨su, applied, same⟩ := map_eq_some_iff.mp taken
      subst same
      have applied' := toOption_eq_some.mp applied
      exact inv.openChannel unopened applied' (visits su applied')
  | install packageID metadata =>
    cases taken
    refine ⟨?_, inv.paired⟩
    rw [show installedInfo h (p.installed ++ [(packageID, metadata)]) = _ from funext (installedInfo_concat p.installed _)]
    exact inv.matched.handleChaincodeInstalled (packageID, metadata)
  | commitBlock chan requests dirtyNames =>
    obtain ⟨st, opened, rest⟩ := bind_eq_some_iff.mp taken
    obtain ⟨su, applied, same⟩ := map_eq_some_iff.mp rest
    subst same
    have applied' := toOption_eq_some.mp applied
    obtain ⟨distinct, dirty⟩ := visits st opened su applied'
    exact inv.commitBlock opened applied' distinct dirty (keeps st opened su applied')

/-- As long as no block takes away an approved package, or replaces one that is not installed, the cache is
the one a peer that starts anew would compute. -/
theorem cache_eq_recomputed {installed : List (Bytes × ChaincodePackageMetadata)} {steps : List Step} {p : Peer}
    (run : Reaches (Peer.step h org) (fun p step => VisitsAll h org p step ∧ StepKeepsPackages h org p step)
      (newPeer h installed) steps p) :
    SameCache p.cache (freshCache h org p.ledgers p.installed) := by
  have inv : Consistent h org p := by
    apply run.invariant (fun _ => Consistent h org) (Consistent.newPeer installed)
    intro _ p step q inv allowed taken
    exact inv.step allowed.1 allowed.2 taken
  exact inv.matched.sameCache (matches_freshCache p.ledgers p.installed)

instance (p : Peer) : (step : Step) → Decidable (VisitsAll h org p step)
  | .openChannel _ history names =>
    decidable_of_iff (∀ su ∈ (applyRequests h .empty history).toOption, names.Perm su.1.definitions.keys) (by
      simp only [VisitsAll, mem_def, toOption_eq_some])
  | .install _ _ => inferInstanceAs (Decidable True)
  | .commitBlock chan requests dirtyNames =>
    decidable_of_iff (∀ st ∈ p.ledgers[chan]?, ∀ su ∈ (applyRequests h st requests).toOption,
        dirtyNames.Nodup ∧ dirtyNames.toFinset = p.cache.dirtyChaincodes org chan su.2) (by
      simp only [VisitsAll, mem_def, toOption_eq_some])

instance (installed : List (Bytes × ChaincodePackageMetadata)) : Decidable (KeepsPackages h org installed st st') :=
  decidable_of_iff (∀ name ∈ st.definitions.keys, ∀ hash ∈ approvedPackage h org st name,
      (approvedPackage h org st' name).any fun hash' => hash' == hash || installed.any fun p => h.valueHash p.1 == hash) (by
    simp only [KeepsPackages, mem_def, Option.any_eq_true, Bool.or_eq_true, beq_iff_eq, List.any_eq_true]
    constructor
    · intro holds name hash approved
      apply holds name _ hash approved
      rw [mem_keys, mem_iff_isSome_getElem?]
      cases found : st.definitions[name]? with
      | none => simp [approvedPackage, wanted, found] at approved
      | some cd => rfl
    · intro holds name _ hash approved
      exact holds name hash approved)

instance (p : Peer) : (step : Step) → Decidable (StepKeepsPackages h org p step)
  | .openChannel _ _ _ => inferInstanceAs (Decidable True)
  | .install _ _ => inferInstanceAs (Decidable True)
  | .commitBlock chan requests dirtyNames =>
    decidable_of_iff (∀ st ∈ p.ledgers[chan]?, ∀ su ∈ (applyRequests h st requests).toOption,
        KeepsPackages h org p.installed st su.1) (by
      simp only [StepKeepsPackages, mem_def, toOption_eq_some])

def OrgField.code : OrgField → UInt8
  | .metadata => 0
  | .endorsementInfo => 1
  | .validationInfo => 2
  | .collections => 3
  | .sourcesMetadata => 4
  | .packageID => 5

def plainHashing : Hashing where
  keyHash k := OrgField.code k.field :: (List.replicate k.sequence 1 ++ 0 :: k.name)
  valueHash v := v
  parametersMetadata := [1]
  localPackageMetadata := [2]
  keyHash_injective := by
    intro ⟨name, sequence, field⟩ ⟨name', sequence', field'⟩ same
    obtain ⟨code, rest⟩ := List.cons.inj same
    obtain ⟨rfl, rfl⟩ := PrefixCode.replicate_cons_inj rest
    cases field <;> cases field' <;> first | rfl | cases code
  valueHash_injective := fun _ _ same => same

def firstDefinition : ChaincodeDefinition := ⟨1, ⟨[10], [11], [12]⟩⟩

def secondDefinition : ChaincodeDefinition := ⟨2, ⟨[13], [11], [12]⟩⟩

def approvedThenUpgraded : List Step :=
  [.install [65] ⟨[], [], []⟩, .openChannel [9] [] [],
   .commitBlock [9] [.approve [111] [99] firstDefinition [65], .commit [99] firstDefinition] [[99]],
   .commitBlock [9] [.commit [99] secondDefinition] [[99]]]

/-- After an upgrade that the organisation has not approved, the cache still shows the package of the definition
before. -/
theorem unapprovedUpgrade_keepsPackage :
    ∃ p, Reaches (Peer.step plainHashing [111]) (VisitsAll plainHashing [111]) (newPeer plainHashing []) approvedThenUpgraded p ∧
      ¬ SameCache p.cache (freshCache plainHashing [111] p.ledgers p.installed) := by
  refine exists_reaches (fun p => (cached p.cache [9] [99]).map (·.installInfo.isSome) ≠
    (cached (freshCache plainHashing [111] p.ledgers p.installed) [9] [99]).map (·.installInfo.isSome)) (by decide +kernel)
    fun p _ differ same => ?_
  have agree := congrArg (Option.map fun e => e.2.2.isSome) (same.chaincodes [9] [99])
  rw [Option.map_map, Option.map_map] at agree
  exact differ agree

def approvedThenReplaced : List Step :=
  [.install [65] ⟨[], [], []⟩, .openChannel [9] [] [],
   .commitBlock [9] [.approve [111] [99] firstDefinition [65], .commit [99] firstDefinition] [[99]],
   .commitBlock [9] [.approve [111] [99] firstDefinition [66]] [[99]],
   .install [66] ⟨[], [], []⟩]

theorem replacedPackage_recomputed : ∃ p, Reaches (Peer.step plainHashing [111])
        (fun p step => VisitsAll plainHashing [111] p step ∧ StepKeepsPackages plainHashing [111] p step)
        (newPeer plainHashing []) approvedThenReplaced p ∧
      (cached p.cache [9] [99]).map (fun e => (e.approved, e.installInfo)) = some (true, some ⟨[66], ⟨[], [], []⟩⟩) ∧
      SameCache p.cache (freshCache plainHashing [111] p.ledgers p.installed) := by
  exact exists_reaches (fun p => (cached p.cache [9] [99]).map (fun e => (e.approved, e.installInfo)) =
    some (true, some ⟨[66], ⟨[], [], []⟩⟩)) (by decide +kernel) fun p run read => ⟨read, cache_eq_recomputed run⟩

end Fabric.Proof.Lifecycle
