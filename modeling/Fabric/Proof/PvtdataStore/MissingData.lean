import Fabric.Proof.PvtdataStore.HashedIndex

/-! # Missing data -/

namespace Fabric.Proof.PvtdataStore

open Lib Fabric.Ledger Fabric.Ledger.PurgeMgmt Fabric.Ledger.PvtdataStorage Option
open List hiding getElem?_insert mem_keys

variable {key : ExpiryInfoKey} {d : ExpiryData} {c : NsColl} {l : StoreStep} {s : Store}

structure Groups (prio deprio : List Nat) (recorded : Nat → Prop) : Prop where
  nodupPrio : prio.Nodup
  nodupDeprio : deprio.Nodup
  disjoint : ∀ txNum ∈ prio, txNum ∉ deprio
  exact : ∀ txNum, txNum ∈ prio ∨ txNum ∈ deprio ↔ recorded txNum

section

variable {prio deprio : List Nat} {recorded : Nat → Prop} {n : Nat}

section

variable (groups : Groups prio deprio recorded)
include groups

theorem Groups.congr {recorded' : Nat → Prop} (same : ∀ txNum, recorded txNum ↔ recorded' txNum) : Groups prio deprio recorded' :=
  ⟨groups.nodupPrio, groups.nodupDeprio, groups.disjoint, fun txNum => (groups.exact txNum).trans (same txNum)⟩

theorem Groups.erase_prio (mem : n ∈ prio) : Groups (prio.erase n) deprio fun txNum => recorded txNum ∧ txNum ≠ n := by
  refine ⟨groups.nodupPrio.erase n, groups.nodupDeprio, ?_, ?_⟩
  · intro txNum listed
    exact groups.disjoint txNum (List.mem_of_mem_erase listed)
  · intro txNum
    rw [groups.nodupPrio.mem_erase_iff, ← groups.exact]
    have := groups.disjoint n mem
    constructor
    · rintro (⟨different, listed⟩ | listed)
      · exact ⟨.inl listed, different⟩
      · exact ⟨.inr listed, fun same => this (same ▸ listed)⟩
    · rintro ⟨listed | listed, different⟩
      · exact .inl ⟨different, listed⟩
      · exact .inr listed

theorem Groups.erase_deprio (mem : n ∈ deprio) : Groups prio (deprio.erase n) fun txNum => recorded txNum ∧ txNum ≠ n := by
  refine ⟨groups.nodupPrio, groups.nodupDeprio.erase n, ?_, ?_⟩
  · intro txNum listed other
    exact groups.disjoint txNum listed (List.mem_of_mem_erase other)
  · intro txNum
    rw [groups.nodupDeprio.mem_erase_iff, ← groups.exact]
    constructor
    · rintro (listed | ⟨different, listed⟩)
      · exact ⟨.inl listed, fun same => groups.disjoint txNum listed (same ▸ mem)⟩
      · exact ⟨.inr listed, different⟩
    · rintro ⟨listed | listed, different⟩
      · exact .inl listed
      · exact .inr ⟨different, listed⟩

theorem Groups.deprioritise (isRecorded : recorded n) : Groups (prio.erase n) (if n ∈ deprio then deprio else deprio ++ [n]) recorded := by
  have added : ∀ txNum, txNum ∈ (if n ∈ deprio then deprio else deprio ++ [n]) ↔ txNum ∈ deprio ∨ txNum = n := by
    intro txNum
    split
    · rename_i listed
      constructor
      · exact .inl
      · rintro (before | rfl)
        · exact before
        · exact listed
    · simp
  refine ⟨groups.nodupPrio.erase n, ?_, ?_, ?_⟩
  · split
    · exact groups.nodupDeprio
    · rename_i fresh
      apply nodup_append.mpr ⟨groups.nodupDeprio, nodup_singleton _, ?_⟩
      rintro a mem b last rfl
      exact fresh (mem_singleton.mp last ▸ mem)
  · intro txNum listed
    rw [groups.nodupPrio.mem_erase_iff] at listed
    rw [added, not_or]
    exact ⟨groups.disjoint txNum listed.2, listed.1⟩
  · intro txNum
    rw [added, groups.nodupPrio.mem_erase_iff, ← groups.exact]
    rw [← groups.exact] at isRecorded
    grind

end

end

section

variable {btl : BTLPolicy} {s : Store} {p : EntriesForPvtDataOfOldBlocks} {K : NsCollBlk} {recorded : Nat → Prop}

def prioOf (s : Store) (p : EntriesForPvtDataOfOldBlocks) (K : NsCollBlk) : List Nat :=
  (p.prioritizedMissingDataEntries[K]?.or s.elgPrioMissing[K]?).getD []

def deprioOf (s : Store) (p : EntriesForPvtDataOfOldBlocks) (K : NsCollBlk) : List Nat :=
  (p.deprioritizedMissingDataEntries[K]?.or s.elgDeprioMissing[K]?).getD []

theorem get_insert_missing (m : MissingEntries) (k K : NsCollBlk) (txNums : List Nat) :
    (m.insert k txNums)[K]? = if k = K then some txNums else m[K]? := by
  simp [get_insert]

theorem groups_reflectReconciledData (groups : Groups (prioOf s p K) (deprioOf s p K) recorded)
    (k : DataKey) : Groups (prioOf s (reflectReconciledData s p k) K) (deprioOf s (reflectReconciledData s p k) K)
      fun txNum => recorded txNum ∧ (K, txNum) ≠ k.missingKey := by
  by_cases same : k.nsCollBlk = K
  · subst same
    have differs : ∀ txNum, (k.nsCollBlk, txNum) ≠ k.missingKey ↔ txNum ≠ k.txNum := by
      simp [DataKey.missingKey]
    simp only [differs]
    unfold reflectReconciledData
    dsimp only
    split
    · rename_i listed
      have after := groups.erase_prio listed
      simpa [prioOf, deprioOf, get_insert_missing] using after
    · split
      · rename_i listed
        have after := groups.erase_deprio listed
        simpa [prioOf, deprioOf, get_insert_missing] using after
      · rename_i notPrio notDeprio
        refine groups.congr fun txNum => ⟨fun isRecorded => ⟨isRecorded, ?_⟩, And.left⟩
        rintro rfl
        exact ((groups.exact _).mpr isRecorded).elim notPrio notDeprio
  · have unchanged : prioOf s (reflectReconciledData s p k) K = prioOf s p K ∧
        deprioOf s (reflectReconciledData s p k) K = deprioOf s p K := by
      unfold reflectReconciledData
      dsimp only
      split
      · simp [prioOf, deprioOf, get_insert_missing, same]
      · split
        · simp [prioOf, deprioOf, get_insert_missing, same]
        · exact ⟨rfl, rfl⟩
    rw [unchanged.1, unchanged.2]
    refine groups.congr fun txNum => ⟨fun isRecorded => ⟨isRecorded, fun isKey => ?_⟩, And.left⟩
    exact same (Prod.mk.inj isKey).1.symm

theorem groups_reflectPriority (groups : Groups (prioOf s p K) (deprioOf s p K) recorded)
    (e : NsCollBlk × Nat) (isRecorded : e.1 = K → recorded e.2) :
    Groups (prioOf s (reflectPriority s p e) K) (deprioOf s (reflectPriority s p e) K) recorded := by
  unfold reflectPriority
  split
  · exact groups
  · rename_i prio found
    by_cases same : e.1 = K
    · have after := groups.deprioritise (isRecorded same)
      subst same
      simpa [prioOf, deprioOf, get_insert_missing, found] using after
    · simpa [prioOf, deprioOf, get_insert_missing, same] using groups

theorem get_putMissing (entries changes : MissingEntries) (K : NsCollBlk) :
    (putMissing entries changes)[K]?.getD [] = (changes[K]?.or entries[K]?).getD [] := by
  rw [putMissing, Std.ExtTreeMap.getElem?_filter', getElem?_union]
  cases (changes[K]?.or entries[K]?) with
  | none => rfl
  | some txNums => cases txNums <;> rfl

theorem groups_commitPvtDataOfOldBlocks (btl : BTLPolicy) (data : BlocksPvtData)
    {unreconciled : List (NsCollBlk × Nat)} (groups : Groups (s.elgPrioMissing[K]?.getD []) (s.elgDeprioMissing[K]?.getD []) recorded)
    (asked : ∀ e ∈ unreconciled, e.1 = K → recorded e.2)
    (apart : ∀ e ∈ unreconciled, ∀ k ∈ (reconciledEntries btl s data).dataEntries, e ≠ k.missingKey) :
    Groups ((putMissing s.elgPrioMissing (missingAfter btl s data unreconciled).prioritizedMissingDataEntries)[K]?.getD [])
      ((putMissing s.elgDeprioMissing (missingAfter btl s data unreconciled).deprioritizedMissingDataEntries)[K]?.getD [])
      fun txNum => recorded txNum ∧ ∀ k ∈ (reconciledEntries btl s data).dataEntries, (K, txNum) ≠ k.missingKey := by
  rw [get_putMissing, get_putMissing]
  have reconciled : ∀ (keys : List DataKey) (p : EntriesForPvtDataOfOldBlocks) (recorded : Nat → Prop),
      Groups (prioOf s p K) (deprioOf s p K) recorded →
      Groups (prioOf s (keys.foldl (reflectReconciledData s) p) K) (deprioOf s (keys.foldl (reflectReconciledData s) p) K)
        fun txNum => recorded txNum ∧ ∀ k ∈ keys, (K, txNum) ≠ k.missingKey := by
    intro keys
    induction keys with
    | nil => exact fun p recorded groups => groups.congr (by simp)
    | cons k keys ih =>
      intro p recorded groups
      refine (ih _ _ (groups_reflectReconciledData groups k)).congr fun txNum => ?_
      simp only [forall_mem_cons]
      tauto
  have prioritised : ∀ (missing : List (NsCollBlk × Nat)) (p : EntriesForPvtDataOfOldBlocks) (recorded : Nat → Prop),
      (∀ e ∈ missing, e.1 = K → recorded e.2) → Groups (prioOf s p K) (deprioOf s p K) recorded →
      Groups (prioOf s (missing.foldl (reflectPriority s) p) K) (deprioOf s (missing.foldl (reflectPriority s) p) K)
        recorded := by
    intro missing
    induction missing with
    | nil => exact fun p recorded _ groups => groups
    | cons e missing ih =>
      intro p recorded asked groups
      exact ih _ _ (fun x mem => asked x (mem_cons_of_mem _ mem))
        (groups_reflectPriority groups e (asked e mem_cons_self))
  have start : Groups (prioOf s (reconciledEntries btl s data) K) (deprioOf s (reconciledEntries btl s data) K)
      recorded := by
    simp only [prioOf, deprioOf, reconciledEntries, (foldl_prepareDataAndExpiryEntry_missing _ _).1,
      (foldl_prepareDataAndExpiryEntry_missing _ _).2]
    simpa using groups
  refine prioritised unreconciled _ _ (fun e mem isKey => ⟨asked e mem isKey, fun k stored => ?_⟩) ?_
  · rw [← isKey]
    exact apart e mem k stored
  · exact (reconciled _ _ _ start).congr fun txNum => by simp only [mem_keys]

end

def SoundExpiry (btl : BTLPolicy) (e : ExpiryInfoKey × ExpiryData) : Prop :=
  ∀ c : NsColl, (c ∈ e.2.missingData ∨ ∃ txNum, (c, txNum) ∈ e.2.presentData) →
    expiryInfoKey btl c.ns c.coll e.1.committingBlk = e.1

def SoundSchedule (btl : BTLPolicy) (entries : Map ExpiryInfoKey ExpiryData) : Prop :=
  ∀ (key : ExpiryInfoKey) (d : ExpiryData), entries[key]? = some d → SoundExpiry btl (key, d)

section

variable {btl : BTLPolicy} {entries : Map ExpiryInfoKey ExpiryData}

theorem SoundSchedule.empty : SoundSchedule btl ∅ := by
  intro key d found
  simp at found

theorem SoundSchedule.insert (sound : SoundSchedule btl entries) (here : SoundExpiry btl (key, d))
    : SoundSchedule btl (entries.insert key d) := by
  intro key' d' found
  rw [getElem?_insert] at found
  split at found
  · rename_i same
    rw [← Std.LawfulEqCmp.eq_of_compare same, ← some.inj found]
    exact here
  · exact sound key' d' found

theorem SoundSchedule.union {entries' : Map ExpiryInfoKey ExpiryData} (sound : SoundSchedule btl entries)
    (sound' : SoundSchedule btl entries') : SoundSchedule btl (entries ∪ entries') := by
  intro key d found
  rw [getElem?_union] at found
  rcases or_eq_some_iff.mp found with new | ⟨_, old⟩
  · exact sound' key d new
  · exact sound key d old

theorem SoundExpiry.addPresentData (sound : SoundExpiry btl (key, d))
    (here : expiryInfoKey btl c.ns c.coll key.committingBlk = key) (txNum : Nat) : SoundExpiry btl (key, d.addPresentData c txNum) := by
  rintro c' (missing | ⟨txNum', present⟩)
  · exact sound c' (.inl missing)
  · rcases mem_append.mp present with before | last
    · exact sound c' (.inr ⟨txNum', before⟩)
    · rw [(Prod.mk.inj (mem_singleton.mp last)).1]
      exact here

theorem SoundExpiry.addMissingData (sound : SoundExpiry btl (key, d))
    (here : expiryInfoKey btl c.ns c.coll key.committingBlk = key) : SoundExpiry btl (key, d.addMissingData c) := by
  rintro c' (missing | present)
  · unfold ExpiryData.addMissingData at missing
    dsimp only at missing
    split at missing
    · exact sound c' (.inl missing)
    · rcases mem_append.mp missing with before | last
      · exact sound c' (.inl before)
      · rw [mem_singleton.mp last]
        exact here
  · exact sound c' (.inr present)

theorem SoundSchedule.getD (sound : SoundSchedule btl entries) (key : ExpiryInfoKey) :
    SoundExpiry btl (key, entries[key]?.getD ⟨[], []⟩) := by
  cases found : entries[key]? with
  | none => simp [SoundExpiry]
  | some d => exact sound key d found

theorem SoundSchedule.updateExpiryData (sound : SoundSchedule btl entries) (k : NsCollBlk) {change : ExpiryData → ExpiryData}
    (changed : ∀ d, SoundExpiry btl (expiryInfoKey btl k.ns k.coll k.blkNum, d) →
      SoundExpiry btl (expiryInfoKey btl k.ns k.coll k.blkNum, change d)) : SoundSchedule btl (updateExpiryData btl entries k change) := by
  simp only [PvtdataStorage.updateExpiryData]
  split
  · exact sound
  · exact sound.insert (changed _ (sound.getD _))

theorem soundSchedule_prepareExpiryEntries (dataKeys : List DataKey) (missingKeys : List NsCollBlk) :
    SoundSchedule btl (prepareExpiryEntries btl dataKeys missingKeys) := by
  have present : ∀ (keys : List DataKey) (entries : Map ExpiryInfoKey ExpiryData), SoundSchedule btl entries →
      SoundSchedule btl (keys.foldl (fun entries k =>
        updateExpiryData btl entries k.nsCollBlk (·.addPresentData ⟨k.ns, k.coll⟩ k.txNum)) entries) := by
    intro keys
    induction keys with
    | nil => exact fun _ sound => sound
    | cons k keys ih => exact fun _ sound => ih _ (sound.updateExpiryData _ fun d before => before.addPresentData rfl _)
  have missing : ∀ (keys : List NsCollBlk) (entries : Map ExpiryInfoKey ExpiryData), SoundSchedule btl entries →
      SoundSchedule btl (keys.foldl (fun entries k =>
        updateExpiryData btl entries k (·.addMissingData ⟨k.ns, k.coll⟩)) entries) := by
    intro keys
    induction keys with
    | nil => exact fun _ sound => sound
    | cons k keys ih => exact fun _ sound => ih _ (sound.updateExpiryData _ fun d before => before.addMissingData rfl)
  exact missing _ _ (present _ _ .empty)

theorem soundSchedule_reconciledEntries (sound : SoundSchedule btl s.expiryEntries) (data : BlocksPvtData) :
    SoundSchedule btl (reconciledEntries btl s data).expiryEntries := by
  have general : ∀ (entries : List (DataKey × PvtKVRWSet)) (p : EntriesForPvtDataOfOldBlocks), SoundSchedule btl p.expiryEntries →
      SoundSchedule btl (entries.foldl (prepareDataAndExpiryEntry btl s) p).expiryEntries := by
    intro entries
    induction entries with
    | nil => exact fun _ before => before
    | cons d entries ih =>
      intro p before
      refine ih _ ?_
      simp only [prepareDataAndExpiryEntry]
      split
      · exact before
      · split
        · exact before
        · rename_i expData found
          refine before.insert (SoundExpiry.addPresentData ?_ rfl _)
          rcases or_eq_some_iff.mp found with pending | ⟨_, stored⟩
          · exact before _ _ pending
          · exact sound _ _ stored
  exact general _ _ .empty

end

structure ExpirySound (conf : StoreConf) (t : Threads) : Prop where
  schedule : SoundSchedule conf.btlPolicy t.store.expiryEntries
  purges : ∀ n ∈ t.scheduledPurges, n < t.store.nextBlockNum
  purger : ∀ entries, t.purger = some (.expiring entries) →
    ∀ e ∈ entries, SoundExpiry conf.btlPolicy e ∧ e.1.expiryBlk < t.store.nextBlockNum

section

variable {conf : StoreConf} {t t' : Threads}

theorem ExpirySound.purgerStepped (sound : ExpirySound conf t) {p : Purger} {store : Store} {purger : Option Purger}
    (running : t.purger = some p) (moved : PurgerMoved conf t.store p store purger) :
    ExpirySound conf { t with store := store, purger := purger } := by
  cases moved with
  | @expired e entries =>
    have todo := forall_mem_cons.mp (sound.purger _ running)
    refine ⟨fun key d found => ?_, sound.purges, ?_⟩
    · have found : (t.store.expiryEntries.erase e.1)[key]? = some d := found
      rw [getElem?_erase] at found
      split at found
      · cases found
      · exact sound.schedule key d found
    · intro later isPurger
      cases isPurger
      exact todo.2
  | _ => exact ⟨sound.schedule, sound.purges, fun entries isPurger => by cases isPurger⟩

theorem ExpirySound.step (sound : ExpirySound conf t) (moved : Moved conf t l t') : ExpirySound conf t' := by
  cases moved with
  | committed ready stored purges =>
    have committed := committed_of_commit stored
    have next := committed.nextBlockNum
    refine ⟨?_, ?_, ?_⟩
    · rw [committed.expiryEntries]
      exact sound.schedule.union (soundSchedule_prepareExpiryEntries _ _)
    · intro n mem
      dsimp only
      rw [next]
      rcases purges n mem with before | rfl
      · exact Nat.lt_succ_of_lt (sound.purges n before)
      · exact Nat.lt_succ_self _
    · intro entries running e mem
      dsimp only
      rw [next]
      have before := sound.purger entries running e mem
      exact ⟨before.1, Nat.lt_succ_of_lt before.2⟩
  | purgerStarted free scheduled =>
    refine ⟨sound.schedule, fun n mem => sound.purges n (List.mem_of_mem_erase mem), fun entries isPurger e mem => ?_⟩
    cases isPurger
    obtain ⟨listed, due⟩ := mem_filter.mp mem
    refine ⟨sound.schedule _ _ (mem_toList_iff_getElem?_eq_some.mp listed), ?_⟩
    exact (of_decide_eq_true due).trans_lt (sound.purges _ scheduled)
  | purgerStepped running moved => exact sound.purgerStepped running moved
  | converted running awake next =>
    rcases convertEntry_cases with ⟨q, isQ, result⟩ | result
    · rw [result]
      exact { sound with }
    · rw [result]
      exact { sound with }
  | reconciled free asked received =>
    rw [commitPvtDataOfOldBlocks_eq]
    exact ⟨sound.schedule.union (soundSchedule_reconciledEntries sound.schedule _), sound.purges, sound.purger⟩
  | restarted => exact ⟨sound.schedule, fun n mem => (by cases mem), fun entries isPurger => (by cases isPurger)⟩
  | _ => exact { sound with }

end

structure ScansOnce (p : ElgProc) : Prop where
  scans : (p.events.flatMap (·.2)).Nodup
  apart : ∀ e ∈ p.entries ++ p.converted, (⟨e.1.ns, e.1.coll⟩ : NsColl) ∉ p.events.flatMap (·.2)
  distinct : ((p.entries ++ p.converted).map (·.1)).Nodup

def startedScans (t : Threads) : StoreStep → List NsColl
  | .startElgProc => (unprocessedEvents t.collElgEvents).flatMap (·.2)
  | _ => []

variable {conf : StoreConf} {t t' : Threads} {p : ElgProc}

theorem ScansOnce.scanned (once : ScansOnce p) {blkNum : Nat} {colls : List NsColl}
    {events : List (Nat × List NsColl)} (noEntries : p.entries = []) (current : p.events = (blkNum, colls) :: events) (listed : c ∈ colls) :
    ScansOnce { p with events := (blkNum, colls.erase c) :: events, entries := s.inelgMissingRange blkNum c } := by
  obtain ⟨scans, apart, distinct⟩ := once
  rw [noEntries, nil_append] at apart distinct
  rw [current, flatMap_cons] at scans apart
  have sub : ∀ x, x ∈ colls.erase c ++ events.flatMap (·.2) → x ∈ colls ++ events.flatMap (·.2) := by
    intro x mem
    exact (mem_append.mp mem).elim (fun here => mem_append_left _ (List.mem_of_mem_erase here))
      (mem_append_right _)
  refine ⟨?_, ?_, ?_⟩
  · exact scans.sublist (List.Sublist.append erase_sublist (List.Sublist.refl _))
  · intro e mem
    rcases mem_append.mp mem with range | converted
    · obtain ⟨_, ns, coll, _⟩ := mem_inelgMissingRange.mp range
      have isColl : (⟨e.1.ns, e.1.coll⟩ : NsColl) = c := by rw [ns, coll]
      rw [isColl]
      intro again
      obtain ⟨nodup, _, disjoint⟩ := nodup_append.mp scans
      rcases mem_append.mp again with here | later
      · exact nodup.not_mem_erase here
      · exact disjoint c listed c later rfl
    · exact fun again => apart e converted (sub _ again)
  · rw [map_append]
    refine nodup_append.mpr ⟨?_, distinct, ?_⟩
    · rw [Store.inelgMissingRange, map_reverse, nodup_reverse]
      exact (nodup_keys s.inelgMissing).sublist (List.Sublist.map _ filter_sublist)
    · intro K range K' converted same
      obtain ⟨e, inRange, rfl⟩ := List.mem_map.mp range
      obtain ⟨e', isConverted, rfl⟩ := List.mem_map.mp converted
      obtain ⟨_, ns, coll, _⟩ := mem_inelgMissingRange.mp inRange
      refine apart e' isConverted (mem_append_left _ ?_)
      rw [← same, show (⟨e.1.ns, e.1.coll⟩ : NsColl) = c by rw [ns, coll]]
      exact listed

theorem perm_converted {α : Type} (e : α) (entries converted : List α) :
    (entries ++ (converted ++ [e])).Perm (e :: entries ++ converted) := by
  rw [← append_assoc]
  exact perm_append_singleton e _

theorem scansOnce_step (once : ∀ p, t.elgProc = some p → ScansOnce p) (scans : (startedScans t l).Nodup)
    (moved : Moved conf t l t') : ∀ p, t'.elgProc = some p → ScansOnce p := by
  cases moved with
  | elgStarted free idle =>
    intro p isProc
    obtain rfl := some.inj isProc
    exact ⟨scans, by simp, by simp⟩
  | scanned running awake noEntries current listed =>
    intro p isProc
    obtain rfl := some.inj isProc
    exact (once _ running).scanned noEntries current listed
  | @converted p e entries running awake next =>
    obtain ⟨scans, apart, distinct⟩ := once p running
    rw [next] at apart distinct
    have perm := perm_converted e entries p.converted
    have after : ScansOnce { p with entries := entries, converted := p.converted ++ [e] } :=
      ⟨scans, fun x mem => apart x (perm.mem_iff.mp mem), (perm.map (·.1)).nodup_iff.mpr distinct⟩
    intro q isProc
    rcases convertEntry_cases with ⟨p', isP', result⟩ | result
    · rw [result] at isProc
      obtain rfl := some.inj isProc
      subst isP'
      refine ⟨scans, fun x mem => after.apart x (mem_append_left _ (by simpa using mem)), ?_⟩
      have distinct := after.distinct
      rw [map_append] at distinct
      simpa using (nodup_append.mp distinct).1
    · rw [result] at isProc
      obtain rfl := some.inj isProc
      exact after
  | eventDone running awake noEntries current =>
    obtain ⟨scans, apart, distinct⟩ := once _ running
    rw [current, flatMap_cons, nil_append] at scans apart
    intro p isProc
    obtain rfl := some.inj isProc
    exact ⟨scans, apart, distinct⟩
  | elgFinished => exact fun p isProc => by cases isProc
  | woken running asleep free =>
    obtain ⟨scans, apart, distinct⟩ := once _ running
    intro p isProc
    obtain rfl := some.inj isProc
    exact ⟨scans, apart, distinct⟩
  | restarted => exact fun p isProc => by cases isProc
  | _ => exact once

end Fabric.Proof.PvtdataStore
