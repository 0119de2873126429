import Fabric.Proof.PvtdataStore.MissingData

/-! # The account of missing data -/

namespace Fabric.Proof.PvtdataStore

open Lib Fabric.Ledger Fabric.Ledger.Validation Fabric.Ledger.PurgeMgmt Fabric.Ledger.PvtdataStorage Option
open List hiding getElem?_eq_none mem_union_iff

variable {scheduled : List Nat} {l : StoreStep}
  {u : PurgeUpdatesProcessor} {p : Purger} {purger : Option Purger} {eligible : Bool} {txNum : Nat}
  {updates : PvtdataPurgeTracker} {reported : Nat → Prop}

structure KeyAccount (prio deprio inelg : Option (List Nat)) (missing : Nat → Prop) : Prop where
  eligible : Groups (prio.getD []) (deprio.getD []) fun txNum => missing txNum ∧ inelg = none
  ineligible : ∀ nums, inelg = some nums →
    nums.Nodup ∧ (∀ txNum, txNum ∈ nums ↔ missing txNum) ∧ prio = none ∧ deprio = none

def dataKeyOf (K : NsCollBlk) (txNum : Nat) : DataKey := ⟨K.blkNum, txNum, K.ns, K.coll⟩

def Accounted (s : Store) (K : NsCollBlk) (reported : Nat → Prop) : Prop :=
  KeyAccount s.elgPrioMissing[K]? s.elgDeprioMissing[K]? s.inelgMissing[K]?
    fun txNum => reported txNum ∧ dataKeyOf K txNum ∉ s.dataEntries

structure IndexStored (t : Threads) (K : NsCollBlk) : Prop where
  index : ∀ i ∈ t.store.hashedIndexEntries, i.dataKey.nsCollBlk = K → i.dataKey ∈ t.store.dataEntries
  written : ∀ markers current q, t.purger = some (.marking markers current q) →
    ∀ k ∈ q.updates.pvtWrites, k.nsCollBlk = K → k ∈ t.store.dataEntries
  scanned : ∀ markers m entries q, t.purger = some (.marking markers (some (m, entries)) q) →
    ∀ e ∈ entries, e.1.dataKey.nsCollBlk = K → e.1.dataKey ∈ t.store.dataEntries

structure AccountedAt (t : Threads) (K : NsCollBlk) (reported : Nat → Prop) : Prop where
  store : Accounted t.store K reported
  current : ∀ p, t.elgProc = some p → ∀ nums, (K, nums) ∈ p.entries ++ p.converted → t.store.inelgMissing[K]? = some nums
  requested : ∀ txNum, (K, txNum) ∈ t.requested → txNum ∈ t.store.elgPrioMissing[K]?.getD [] ∨
    txNum ∈ t.store.elgDeprioMissing[K]?.getD []
  data : IndexStored t K

def Live (conf : StoreConf) (s : Store) (K : NsCollBlk) : Prop :=
  s.nextBlockNum ≤ conf.btlPolicy.getExpiringBlock K.ns K.coll K.blkNum

section

variable {conf : StoreConf} {t t' : Threads} {s s' : Store} {K : NsCollBlk} {reported : Nat → Prop}

theorem Accounted.congr (accounted : Accounted s K reported) (prio : s'.elgPrioMissing[K]? = s.elgPrioMissing[K]?)
    (deprio : s'.elgDeprioMissing[K]? = s.elgDeprioMissing[K]?) (inelg : s'.inelgMissing[K]? = s.inelgMissing[K]?)
    (stored : ∀ txNum, dataKeyOf K txNum ∈ s'.dataEntries ↔ dataKeyOf K txNum ∈ s.dataEntries) : Accounted s' K reported := by
  unfold Accounted
  simp only [prio, deprio, inelg, stored]
  exact accounted

theorem AccountedAt.congr (acc : AccountedAt t K reported) (prio : t'.store.elgPrioMissing[K]? = t.store.elgPrioMissing[K]?)
    (deprio : t'.store.elgDeprioMissing[K]? = t.store.elgDeprioMissing[K]?) (inelg : t'.store.inelgMissing[K]? = t.store.inelgMissing[K]?)
    (stored : ∀ txNum, dataKeyOf K txNum ∈ t'.store.dataEntries ↔ dataKeyOf K txNum ∈ t.store.dataEntries)
    (elgProc : ∀ p, t'.elgProc = some p → ∀ nums, (K, nums) ∈ p.entries ++ p.converted → t.store.inelgMissing[K]? = some nums)
    (requested : ∀ txNum, (K, txNum) ∈ t'.requested → (K, txNum) ∈ t.requested) (data : IndexStored t' K) : AccountedAt t' K reported := by
  refine ⟨acc.store.congr prio deprio inelg stored, ?_, ?_, data⟩
  · rw [inelg]
    exact elgProc
  · rw [prio, deprio]
    exact fun txNum mem => acc.requested txNum (requested txNum mem)

theorem notListed_of_live (live : Live conf s K) {e : ExpiryInfoKey × ExpiryData} (sound : SoundExpiry conf.btlPolicy e)
    (due : e.1.expiryBlk < s.nextBlockNum) :
    K ∉ e.2.missingDataKeys e.1.committingBlk ∧ ∀ k ∈ e.2.dataKeys e.1.committingBlk, k.nsCollBlk ≠ K := by
  have notDue : ∀ c : NsColl, (c ∈ e.2.missingData ∨ ∃ txNum, (c, txNum) ∈ e.2.presentData) →
      (⟨c.ns, c.coll, e.1.committingBlk⟩ : NsCollBlk) ≠ K := by
    rintro c listed rfl
    have expiry := congrArg ExpiryInfoKey.expiryBlk (sound c listed)
    have live : s.nextBlockNum ≤ (expiryInfoKey conf.btlPolicy c.ns c.coll e.1.committingBlk).expiryBlk := live
    omega
  constructor
  · intro mem
    obtain ⟨c, listed, same⟩ := List.mem_map.mp mem
    exact notDue c (.inl listed) same
  · intro k mem same
    obtain ⟨x, listed, rfl⟩ := List.mem_map.mp mem
    exact notDue x.1 (.inr ⟨x.2, listed⟩) same

theorem mem_commitPendingChanges {k : DataKey} (written : ∀ k ∈ u.pvtWrites, k.nsCollBlk = K → k ∈ s.dataEntries)
    (isKey : k.nsCollBlk = K) : k ∈ (u.commitPendingChanges s).dataEntries ↔ k ∈ s.dataEntries := by
  have union : k ∈ (u.commitPendingChanges s).dataEntries ↔ k ∈ s.dataEntries ∨ k ∈ u.pvtWrites := mem_union_iff
  rw [union]
  exact ⟨fun mem => mem.elim id fun pending => written k pending isKey, .inl⟩

theorem written_process {e : HashedIndexKey × Bytes} (written : ∀ k ∈ u.pvtWrites, k.nsCollBlk = K → k ∈ s.dataEntries)
    (here : e.1.dataKey.nsCollBlk = K → e.1.dataKey ∈ s.dataEntries) :
    ∀ k ∈ (u.process s e).pvtWrites, k.nsCollBlk = K → k ∈ s.dataEntries := by
  intro k mem isKey
  rcases mem_insert.mp mem with same | before
  · obtain rfl := Std.LawfulEqCmp.eq_of_compare same
    exact here isKey
  · exact written k before isKey

theorem IndexStored.purgerStepped (data : IndexStored t K) (live : Live conf t.store K) (sound : ExpirySound conf t)
    {store : Store} (running : t.purger = some p) (moved : PurgerMoved conf t.store p store purger) :
    IndexStored { t with store := store, purger := purger } K ∧ ∀ k, k.nsCollBlk = K →
      (k ∈ store.dataEntries ↔ k ∈ t.store.dataEntries) := by
  cases moved with
  | @expired e entries =>
    obtain ⟨isSound, due⟩ := sound.purger _ running e mem_cons_self
    have stored : ∀ k, k.nsCollBlk = K →
      (k ∈ eraseAll t.store.dataEntries (e.2.dataKeys e.1.committingBlk) ↔ k ∈ t.store.dataEntries) := by
      intro k isKey
      have notListed : k ∉ e.2.dataKeys e.1.committingBlk := fun mem => (notListed_of_live live isSound due).2 k mem isKey
      rw [mem_iff_isSome_getElem?, mem_iff_isSome_getElem?, get_eraseAll, if_neg notListed]
    refine ⟨⟨fun i mem isKey => ?_, by simp, by simp⟩, stored⟩
    exact (stored _ isKey).mpr (data.index i (mem_of_mem_eraseAll mem) isKey)
  | opened =>
    refine ⟨⟨data.index, ?_, ?_⟩, fun k _ => .rfl⟩
    · intro _ _ _ isPurger
      cases isPurger
      simp [newBatchedProcessor, newPurgeUpdatesProcessor]
    · intro _ _ _ _ isPurger
      cases isPurger
  | scanned =>
    refine ⟨⟨data.index, ?_, ?_⟩, fun k _ => .rfl⟩
    · intro _ _ _ isPurger
      cases isPurger
      exact data.written _ _ _ running
    · intro _ _ _ _ isPurger e mem
      cases isPurger
      exact data.index e.1 (mem_of_get (mem_hashedIndexRange mem).1)
  | processed =>
    have scanned := forall_mem_cons.mp (data.scanned _ _ _ _ running)
    refine ⟨⟨data.index, ?_, ?_⟩, fun k _ => .rfl⟩
    · intro _ _ _ isPurger
      cases isPurger
      exact written_process (data.written _ _ _ running) scanned.1
    · intro _ _ _ _ isPurger
      cases isPurger
      exact scanned.2
  | flushed =>
    have scanned := forall_mem_cons.mp (data.scanned _ _ _ _ running)
    have stored : ∀ k : DataKey, k.nsCollBlk = K → _ := fun k isKey =>
      mem_commitPendingChanges (written_process (data.written _ _ _ running) scanned.1) isKey
    refine ⟨⟨fun i mem isKey => ?_, ?_, ?_⟩, stored⟩
    · exact (stored _ isKey).mpr (data.index i (mem_of_mem_eraseAll mem) isKey)
    · intro _ _ _ isPurger
      cases isPurger
      simp [BatchedProcessor.written, newPurgeUpdatesProcessor]
    · intro _ _ _ _ isPurger e mem isKey
      cases isPurger
      exact (stored _ isKey).mpr (scanned.2 e mem isKey)
  | markerDone =>
    have written := data.written _ _ _ running
    refine ⟨⟨data.index, ?_, ?_⟩, fun k _ => .rfl⟩
    · intro _ _ _ isPurger
      cases isPurger
      exact written
    · intro _ _ _ _ isPurger
      cases isPurger
  | finished =>
    have stored : ∀ k : DataKey, k.nsCollBlk = K → _ := fun k isKey => mem_commitPendingChanges (data.written _ _ _ running) isKey
    refine ⟨⟨fun i mem isKey => ?_, by simp, by simp⟩, stored⟩
    exact (stored _ isKey).mpr (data.index i (mem_of_mem_eraseAll mem) isKey)

theorem missing_purgerStepped (live : Live conf t.store K) (sound : ExpirySound conf t) {store : Store}
    (running : t.purger = some p) (moved : PurgerMoved conf t.store p store purger) :
    store.elgPrioMissing[K]? = t.store.elgPrioMissing[K]? ∧ store.elgDeprioMissing[K]? = t.store.elgDeprioMissing[K]? ∧
      store.inelgMissing[K]? = t.store.inelgMissing[K]? := by
  cases moved with
  | @expired e entries =>
    obtain ⟨isSound, due⟩ := sound.purger _ running e mem_cons_self
    have notListed := (notListed_of_live live isSound due).1
    simp [Store.purgeExpiryEntry, get_eraseAll, notListed, ↓reduceIte]
  | _ => exact ⟨rfl, rfl, rfl⟩

theorem Accounted.writeBatch (accounted : Accounted t.store K reported) {p : ElgProc}
    (current : ∀ nums, (K, nums) ∈ p.converted → t.store.inelgMissing[K]? = some nums)
    (distinct : (p.converted.map (·.1)).Nodup) : Accounted (t.writeBatch p).store K reported := by
  have prio : (t.writeBatch p).store.elgPrioMissing[K]? = (lastFor K p.converted).or t.store.elgPrioMissing[K]? :=
    get_putAll _ _ _
  have inelg : (t.writeBatch p).store.inelgMissing[K]? =
      if K ∈ p.converted.map (·.1) then none else t.store.inelgMissing[K]? := get_eraseAll _ _ _
  by_cases listed : K ∈ p.converted.map (·.1)
  · obtain ⟨⟨K', nums⟩, mem, rfl⟩ := List.mem_map.mp listed
    have found := current nums mem
    obtain ⟨nodup, exactly, noPrio, noDeprio⟩ := accounted.ineligible nums found
    rw [if_pos listed] at inelg
    rw [lastFor_of_mem distinct mem, some_or] at prio
    unfold Accounted
    rw [prio, inelg]
    refine ⟨⟨nodup, ?_, ?_, ?_⟩, fun _ absurd => by cases absurd⟩
    · show (t.store.elgDeprioMissing[K']?.getD []).Nodup
      simp [noDeprio]
    · show ∀ txNum ∈ nums, txNum ∉ t.store.elgDeprioMissing[K']?.getD []
      simp [noDeprio]
    · intro txNum
      show txNum ∈ nums ∨ txNum ∈ t.store.elgDeprioMissing[K']?.getD [] ↔
        (reported txNum ∧ dataKeyOf K' txNum ∉ t.store.dataEntries) ∧ none = none
      simpa [noDeprio] using exactly txNum
  · rw [if_neg listed] at inelg
    rw [lastFor_eq_none.mpr fun v mem => listed (List.mem_map.mpr ⟨_, mem, rfl⟩), none_or] at prio
    exact accounted.congr prio rfl inelg fun _ => .rfl

theorem AccountedAt.writeBatch (acc : AccountedAt t K reported) {p : ElgProc}
    (current : ∀ nums, (K, nums) ∈ p.converted → t.store.inelgMissing[K]? = some nums)
    (distinct : (p.converted.map (·.1)).Nodup) {elgProc : Option ElgProc}
    (remaining : ∀ q, elgProc = some q → ∀ nums, (K, nums) ∈ q.entries ++ q.converted →
      K ∉ p.converted.map (·.1) ∧ t.store.inelgMissing[K]? = some nums) :
    AccountedAt { t.writeBatch p with elgProc := elgProc } K reported := by
  refine ⟨acc.store.writeBatch current distinct, ?_, ?_, { acc.data with }⟩
  · intro q isProc nums mem
    obtain ⟨notListed, found⟩ := remaining q isProc nums mem
    exact (get_eraseAll _ _ _).trans ((if_neg notListed).trans found)
  · intro txNum asked
    have before := acc.requested txNum asked
    have notListed : K ∉ p.converted.map (·.1) := by
      intro listed
      obtain ⟨⟨K', nums⟩, mem, rfl⟩ := List.mem_map.mp listed
      obtain ⟨_, _, noPrio, noDeprio⟩ := acc.store.ineligible nums (current nums mem)
      simp [noPrio, noDeprio] at before
    have prio : (t.writeBatch p).store.elgPrioMissing[K]? = t.store.elgPrioMissing[K]? := by
      refine (get_putAll _ _ _).trans ?_
      rw [lastFor_eq_none.mpr fun v mem => notListed (List.mem_map.mpr ⟨_, mem, rfl⟩), none_or]
    show txNum ∈ (t.writeBatch p).store.elgPrioMissing[K]?.getD [] ∨ txNum ∈ t.store.elgDeprioMissing[K]?.getD []
    rw [prio]
    exact before

theorem IndexStored.reconciled (data : IndexStored t K) (free : t.locked = false) (blocksPvtData : BlocksPvtData)
    (unreconciled : List (NsCollBlk × Nat)) : IndexStored { t with
      store := t.store.commitPvtDataOfOldBlocks conf.btlPolicy conf.codec blocksPvtData unreconciled
      requested := [] } K := by
  rw [commitPvtDataOfOldBlocks_eq]
  refine ⟨fun i mem isKey => mem_union_iff.mpr ?_, ?_, ?_⟩
  · rcases mem_of_mem_putAll mem with before | ⟨e, new, rfl⟩
    · exact .inl (data.index i before isKey)
    · obtain ⟨ws, listed, _⟩ := mem_prepareHashedIndexEntries_iff.mp new
      exact .inr (mem_of_mem_toList listed)
  · intro _ _ _ running
    simp [purger_of_free free] at running
  · intro _ _ _ _ running
    simp [purger_of_free free] at running

theorem AccountedAt.reconciled (acc : AccountedAt t K reported) (free : t.locked = false)
    {fetched : List (NsCollBlk × Nat)} {data : BlocksPvtData} (asked : ∀ e ∈ fetched, e ∈ t.requested)
    (received : ∀ k ∈ data.dataKeys, k.missingKey ∈ fetched) : AccountedAt { t with
      store := t.store.commitPvtDataOfOldBlocks conf.btlPolicy conf.codec data (t.requested.filter (· ∉ fetched))
      requested := [] } K reported := by
  refine ⟨?_, ?_, fun txNum mem => (by cases mem), acc.data.reconciled free data _⟩
  · have notFetched : ∀ e ∈ t.requested.filter (· ∉ fetched), e ∈ t.requested ∧ e ∉ fetched := by
      simp
    have eligible := acc.store.eligible
    have requested : ∀ txNum, (K, txNum) ∈ t.requested →
        (reported txNum ∧ dataKeyOf K txNum ∉ t.store.dataEntries) ∧ t.store.inelgMissing[K]? = none :=
      fun txNum mem => (eligible.exact txNum).mp (acc.requested txNum mem)
    have groups := groups_commitPvtDataOfOldBlocks conf.btlPolicy data eligible
      (fun e mem isKey => requested e.2 (isKey ▸ (notFetched e mem).1))
      (fun e mem k stored same => (notFetched e mem).2 (same ▸ received k (dataKey_of_mem_reconciledEntries stored)))
    have stored : ∀ txNum, dataKeyOf K txNum ∉ t.store.dataEntries ∪
        (reconciledEntries conf.btlPolicy t.store data).dataEntries ↔ dataKeyOf K txNum ∉ t.store.dataEntries ∧
          ∀ k ∈ (reconciledEntries conf.btlPolicy t.store data).dataEntries, (K, txNum) ≠ k.missingKey := by
      intro txNum
      rw [mem_union_iff, not_or]
      refine and_congr_right fun _ => ⟨fun notStored k mem same => notStored ?_, fun differs mem => differs _ mem rfl⟩
      obtain ⟨rfl, rfl⟩ := Prod.mk.inj same
      exact mem
    rw [commitPvtDataOfOldBlocks_eq]
    refine ⟨groups.congr fun txNum => ?_, fun nums found => ?_⟩
    · simp only [stored]
      tauto
    · obtain ⟨nodup, exactly, noPrio, noDeprio⟩ := acc.store.ineligible nums found
      have noneAsked : ∀ txNum, (K, txNum) ∉ t.requested := by
        intro txNum mem
        have := (requested txNum mem).2
        simp [found] at this
      have unchanged : ∀ k ∈ data.dataKeys, k.nsCollBlk ≠ K := by
        rintro k mem rfl
        exact noneAsked k.txNum (asked _ (received k mem))
      have noChange : ¬ (K ∈ (missingAfter conf.btlPolicy t.store data
            (t.requested.filter (· ∉ fetched))).prioritizedMissingDataEntries ∨
          K ∈ (missingAfter conf.btlPolicy t.store data
            (t.requested.filter (· ∉ fetched))).deprioritizedMissingDataEntries) := fun mem =>
        mem_missingAfter (· ≠ K) unchanged (fun e listed same => noneAsked e.2 (same ▸ (notFetched e listed).1)) mem rfl
      refine ⟨nodup, fun txNum => ?_, ?_, ?_⟩
      · rw [exactly, stored]
        refine ⟨fun missing => ⟨missing.1, missing.2, fun k mem same => ?_⟩, fun missing => ⟨missing.1, missing.2.1⟩⟩
        exact unchanged k (dataKey_of_mem_reconciledEntries mem) (Prod.mk.inj same).1.symm
      · refine getElem?_eq_none fun mem => ?_
        rcases mem_of_mem_putMissing mem with before | changed
        · exact absurd before (by simp [mem_iff_isSome_getElem?, noPrio])
        · exact noChange (.inl changed)
      · refine getElem?_eq_none fun mem => ?_
        rcases mem_of_mem_putMissing mem with before | changed
        · exact absurd before (by simp [mem_iff_isSome_getElem?, noDeprio])
        · exact noChange (.inr changed)
  · intro p isProc nums mem
    rw [commitPvtDataOfOldBlocks_eq]
    exact acc.current p isProc nums mem

theorem get_prepareMissingDataEntries {n : Nat} {missing : TxMissingPvtData} (other : K.blkNum ≠ n) :
    (prepareMissingDataEntries n missing eligible)[K]? = none := by
  refine getElem?_eq_none fun mem => ?_
  exact other (key_of_mem_prepareMissingDataEntries mem).1

section

variable {pvtData : List TxPvtData} {missing : TxMissingPvtData} {store : Store}
  (result : Committed conf.codec conf.btlPolicy t.store pvtData missing markers store)

include result

theorem IndexStored.committed (data : IndexStored t K) :
    IndexStored { t with store := store, validated := false, scheduledPurges := scheduled } K := by
  have kept : ∀ k ∈ t.store.dataEntries, k ∈ store.dataEntries := by
    intro k mem
    rw [result.dataEntries]
    exact mem_putAll_of_mem mem
  refine ⟨fun i mem isKey => ?_, ?_, ?_⟩
  · dsimp only at mem ⊢
    rw [result.hashedIndexEntries] at mem
    rcases mem_of_mem_putAll mem with before | ⟨e, new, rfl⟩
    · exact kept _ (data.index i before isKey)
    · obtain ⟨ws, listed, _⟩ := mem_prepareHashedIndexEntries_iff.mp new
      rw [result.dataEntries]
      exact mem_putAll_of_listed listed
  · exact fun _ _ _ running k mem isKey => kept k (data.written _ _ _ running k mem isKey)
  · exact fun _ _ _ _ running e mem isKey => kept _ (data.scanned _ _ _ _ running e mem isKey)

theorem AccountedAt.committed_other (acc : AccountedAt t K reported) (other : K.blkNum ≠ t.store.nextBlockNum) :
    AccountedAt { t with store := store, validated := false, scheduledPurges := scheduled } K reported := by
  refine acc.congr ?_ ?_ ?_ ?_ acc.current (fun _ mem => mem) (acc.data.committed result)
  · simp only [result.elgPrioMissing, getElem?_union, get_prepareMissingDataEntries other, none_or]
  · simp only [result.elgDeprioMissing]
  · simp only [result.inelgMissing, getElem?_union, get_prepareMissingDataEntries other, none_or]
  · intro txNum
    simp only [result.dataEntries]
    refine ⟨fun mem => ?_, mem_putAll_of_mem⟩
    rcases mem_of_mem_putAll mem with before | ⟨d, new, same⟩
    · exact before
    · have block := blkNum_of_mem_prepareDataEntries new
      rw [same] at block
      exact absurd block other

theorem AccountedAt.committed_new (acc : AccountedAt t K reported) (below : Below t) (isNew : K.blkNum = t.store.nextBlockNum)
    (uniform : ∀ txNum txNum', Reports missing true txNum K.ns K.coll → ¬ Reports missing false txNum' K.ns K.coll)
    (apart : ∀ eligible txNum, Reports missing eligible txNum K.ns K.coll →
      dataKeyOf K txNum ∉ (prepareDataEntries t.store.nextBlockNum pvtData).map (·.1))
    : AccountedAt { t with store := store, validated := false, scheduledPurges := scheduled } K
      fun txNum => ∃ eligible, Reports missing eligible txNum K.ns K.coll := by
  have absent : ∀ {m : MissingEntries}, (∀ k ∈ m, k.blkNum < t.store.nextBlockNum) → m[K]? = none :=
    fun bounded => getElem?_eq_none fun mem => absurd isNew (bounded K mem).ne
  have groupOf : ∀ eligible txNum, txNum ∈ (prepareMissingDataEntries t.store.nextBlockNum missing eligible)[K]?.getD [] ↔
      Reports missing eligible txNum K.ns K.coll := by
    intro eligible txNum
    rw [mem_prepareMissingDataEntries]
    exact and_iff_right isNew
  have notStored : ∀ eligible txNum, Reports missing eligible txNum K.ns K.coll → dataKeyOf K txNum ∉ store.dataEntries := by
    intro eligible txNum reports mem
    rw [result.dataEntries] at mem
    rcases mem_of_mem_putAll mem with before | ⟨d, new, same⟩
    · exact absurd isNew (below.data _ before).ne
    · exact apart eligible txNum reports (List.mem_map.mpr ⟨d, new, same⟩)
  have noInelg : ∀ txNum, Reports missing true txNum K.ns K.coll →
      (prepareMissingDataEntries t.store.nextBlockNum missing false)[K]? = none := by
    intro txNum reports
    refine getElem?_eq_none fun mem => ?_
    obtain ⟨_, txNum', reports'⟩ := key_of_mem_prepareMissingDataEntries mem
    exact uniform txNum txNum' reports reports'
  refine ⟨?_, ?_, ?_, acc.data.committed result⟩
  · unfold Accounted
    simp only [result.elgPrioMissing, result.elgDeprioMissing, result.inelgMissing, getElem?_union,
      absent below.prio, absent below.deprio, absent below.inelg, or_none]
    refine ⟨⟨nodup_prepareMissingDataEntries _ _ _ _, nodup_nil, by simp, fun txNum => ?_⟩, fun nums found => ?_⟩
    · rw [groupOf]
      constructor
      · rintro (reports | listed)
        · exact ⟨⟨⟨true, reports⟩, notStored true txNum reports⟩, noInelg txNum reports⟩
        · cases listed
      · rintro ⟨⟨⟨eligible, reports⟩, _⟩, none⟩
        cases eligible with
        | true => exact .inl reports
        | false =>
          have listed := (groupOf false txNum).mpr reports
          simp [none] at listed
    · have members : ∀ txNum, txNum ∈ nums ↔ Reports missing false txNum K.ns K.coll := by
        intro txNum
        rw [← groupOf, found, getD_some]
      refine ⟨?_, fun txNum => ?_, ?_, rfl⟩
      · have nodup := nodup_prepareMissingDataEntries t.store.nextBlockNum missing false K
        rwa [found] at nodup
      · rw [members]
        constructor
        · exact fun reports => ⟨⟨false, reports⟩, notStored false txNum reports⟩
        · rintro ⟨⟨eligible, reports⟩, _⟩
          cases eligible with
          | false => exact reports
          | true => simp [noInelg txNum reports] at found
      · refine getElem?_eq_none fun mem => ?_
        obtain ⟨_, txNum, reports⟩ := key_of_mem_prepareMissingDataEntries mem
        simp [noInelg txNum reports] at found
  · intro p isProc nums mem
    exact absurd isNew (below.elg p isProc _ mem).ne
  · intro txNum mem
    exact absurd isNew (below.requested _ mem).ne

end

end

def reports : StoreStep → TxMissingPvtData
  | .commit _ missingPvtData _ => missingPvtData
  | _ => ∅

def committedKeys (t : Threads) : StoreStep → List DataKey
  | .commit pvtData _ _ => (prepareDataEntries t.store.nextBlockNum pvtData.toList).map (·.1)
  | _ => []

/-- A block reports a collection as eligible or as ineligible, not as both, and reports no data that it supplies; and the
events that are processed together name different collections. -/
structure KeepsMissing (t : Threads) (l : StoreStep) : Prop where
  uniform : ∀ e ∈ (reports l).toList, ∀ m ∈ e.2, ∀ e' ∈ (reports l).toList, ∀ m' ∈ e'.2, m.ns = m'.ns → m.coll = m'.coll →
    m.isEligible = m'.isEligible
  apart : ∀ e ∈ (reports l).toList, ∀ m ∈ e.2, (⟨t.store.nextBlockNum, e.1, m.ns, m.coll⟩ : DataKey) ∉ committedKeys t l
  scans : (startedScans t l).Nodup

instance (t : Threads) (l : StoreStep) : Decidable (KeepsMissing t l) :=
  decidable_of_iff
    ((∀ e ∈ (reports l).toList, ∀ m ∈ e.2, ∀ e' ∈ (reports l).toList, ∀ m' ∈ e'.2, m.ns = m'.ns → m.coll = m'.coll →
        m.isEligible = m'.isEligible) ∧
      (∀ e ∈ (reports l).toList, ∀ m ∈ e.2, (⟨t.store.nextBlockNum, e.1, m.ns, m.coll⟩ : DataKey) ∉ committedKeys t l) ∧
      (startedScans t l).Nodup)
    ⟨fun ⟨uniform, apart, scans⟩ => ⟨uniform, apart, scans⟩, fun meets => ⟨meets.uniform, meets.apart, meets.scans⟩⟩

def committedReports (steps : List StoreStep) : List TxMissingPvtData :=
  steps.filterMap fun
    | .commit _ missingPvtData _ => some missingPvtData
    | _ => none

def ReportedMissing (steps : List StoreStep) (K : NsCollBlk) (txNum : Nat) : Prop :=
  ∃ missing, (committedReports steps)[K.blkNum]? = some missing ∧ ∃ eligible, Reports missing eligible txNum K.ns K.coll

theorem exists_of_reports {missing : TxMissingPvtData} {ns coll : Bytes} (isReported : Reports missing eligible txNum ns coll) :
    ∃ e ∈ missing.toList, e.1 = txNum ∧ (⟨ns, coll, eligible⟩ : MissingPvtData) ∈ e.2 := by
  unfold Reports at isReported
  cases found : missing[txNum]? with
  | none => simp [found] at isReported
  | some ms =>
    exact ⟨(txNum, ms), mem_toList_iff_getElem?_eq_some.mpr found, rfl, by simpa [found] using isReported⟩

structure MissingKept (conf : StoreConf) (steps : List StoreStep) (t : Threads) : Prop where
  below : Below t
  expiry : ExpirySound conf t
  once : ∀ p, t.elgProc = some p → ScansOnce p
  blocks : (committedReports steps).length = t.store.nextBlockNum
  accounts : ∀ K, Live conf t.store K → AccountedAt t K (ReportedMissing steps K)

section

variable {conf : StoreConf} {t t' : Threads} {steps : List StoreStep} {K : NsCollBlk} {pvtData : TxPvtDataMap}

theorem reportedMissing_commit {missing : TxMissingPvtData} :
    ReportedMissing (steps ++ [.commit pvtData missing updates]) K =
      if K.blkNum = (committedReports steps).length then fun txNum => ∃ eligible, Reports missing eligible txNum K.ns K.coll
      else ReportedMissing steps K := by
  funext txNum
  have blocks : committedReports (steps ++ [.commit pvtData missing updates]) = committedReports steps ++ [missing] := by
    simp [committedReports]
  unfold ReportedMissing
  rw [blocks, getElem?_append]
  split
  · rename_i earlier
    rw [if_neg earlier.ne]
  · rename_i notEarlier
    split
    · rename_i same
      simp [same]
    · rename_i different
      have later : 1 ≤ K.blkNum - (committedReports steps).length := by omega
      have none₁ : [missing][K.blkNum - (committedReports steps).length]? = none := List.getElem?_eq_none later
      have none₂ : (committedReports steps)[K.blkNum]? = none := List.getElem?_eq_none (by omega)
      simp [none₁, none₂]

theorem MissingKept.committed (kept : MissingKept conf steps t) {missing : TxMissingPvtData}
    {store : Store} (meets : KeepsMissing t (.commit pvtData missing updates))
    (result : Committed conf.codec conf.btlPolicy t.store pvtData.toList missing (purgeMarkers updates) store)
    (live : Live conf store K) : AccountedAt { t with store := store, validated := false, scheduledPurges := scheduled } K
      (ReportedMissing (steps ++ [.commit pvtData missing updates]) K) := by
  have next := result.nextBlockNum
  have acc := kept.accounts K (by unfold Live at live ⊢; omega)
  rw [reportedMissing_commit, kept.blocks]
  split
  · rename_i isNew
    refine acc.committed_new result kept.below isNew (fun txNum txNum' elg inelg => ?_) fun eligible txNum isReported => ?_
    · obtain ⟨e, mem, _, listed⟩ := exists_of_reports elg
      obtain ⟨e', mem', _, listed'⟩ := exists_of_reports inelg
      cases meets.uniform e mem _ listed e' mem' _ listed' rfl rfl
    · obtain ⟨e, mem, rfl, listed⟩ := exists_of_reports isReported
      have notSupplied := meets.apart e mem _ listed
      unfold dataKeyOf
      rw [isNew]
      exact notSupplied
  · rename_i other
    exact acc.committed_other result other

theorem AccountedAt.step (acc : AccountedAt t K reported) (live : Live conf t.store K)
    (sound : ExpirySound conf t) (once : ∀ p, t.elgProc = some p → ScansOnce p)
    (noCommit : ∀ pvtData missing updates, l ≠ .commit pvtData missing updates) (moved : Moved conf t l t') : AccountedAt t' K reported := by
  have proc : ∀ {p : ElgProc}, (∀ nums, (K, nums) ∈ p.entries ++ p.converted → t.store.inelgMissing[K]? = some nums) →
      AccountedAt { t with elgProc := some p } K reported := by
    intro p current
    refine acc.congr rfl rfl rfl (fun _ => .rfl) ?_ (fun _ mem => mem) { acc.data with }
    intro q isProc
    obtain rfl := some.inj isProc
    exact current
  cases moved with
  | committed => exact absurd rfl (noCommit _ _ _)
  | purgerStarted free scheduled =>
    refine acc.congr rfl rfl rfl (fun _ => .rfl) acc.current (fun _ mem => mem) ⟨acc.data.index, ?_, ?_⟩
    · intro _ _ _ isPurger
      cases isPurger
    · intro _ _ _ _ isPurger
      cases isPurger
  | purgerStepped running moved =>
    obtain ⟨prio, deprio, inelg⟩ := missing_purgerStepped live sound running moved
    obtain ⟨data, stored⟩ := acc.data.purgerStepped live sound running moved
    exact acc.congr prio deprio inelg (fun txNum => stored _ rfl) acc.current (fun _ mem => mem) data
  | elgStarted free idle => exact proc (by simp)
  | scanned running awake noEntries current listed =>
    refine proc fun nums mem => ?_
    rcases mem_append.mp mem with range | converted
    · exact (mem_inelgMissingRange.mp range).1
    · exact acc.current _ running nums (mem_append_right _ converted)
  | @converted p e entries running awake next =>
    have current := acc.current p running
    have distinct := (once p running).distinct
    rw [next] at current distinct
    have perm := perm_converted e entries p.converted
    have after : ∀ nums, (K, nums) ∈ entries ++ (p.converted ++ [e]) → t.store.inelgMissing[K]? = some nums :=
      fun nums mem => current nums (perm.mem_iff.mp mem)
    have distinctAfter := (perm.map (·.1)).nodup_iff.mpr distinct
    rw [map_append] at distinctAfter
    rcases convertEntry_cases with ⟨q, isQ, result⟩ | result
    · rw [result]
      subst isQ
      refine acc.writeBatch (fun nums mem => after nums (mem_append_right _ mem))
        (nodup_append.mp distinctAfter).2.1 fun q isProc nums mem => ?_
      obtain rfl := some.inj isProc
      have mem : (K, nums) ∈ entries := by simpa using mem
      refine ⟨fun listed => ?_, after nums (mem_append_left _ mem)⟩
      exact (nodup_append.mp distinctAfter).2.2 K (List.mem_map.mpr ⟨_, mem, rfl⟩) K listed rfl
    · rw [result]
      exact proc after
  | eventDone running awake noEntries current =>
    have current := acc.current _ running
    exact proc current
  | elgFinished running awake noEntries noEvents =>
    have distinct := (once _ running).distinct
    rw [noEntries, nil_append] at distinct
    refine acc.writeBatch (fun nums mem => acc.current _ running nums (mem_append_right _ mem)) distinct ?_
    intro q isProc
    cases isProc
  | woken running asleep free =>
    have current := acc.current _ running
    exact proc current
  | requested recorded =>
    refine ⟨acc.store, acc.current, fun txNum mem => ?_, { acc.data with }⟩
    rcases recorded with prio | deprio
    · exact .inl (MissingEntries.has_iff.mp (prio _ mem))
    · exact .inr (MissingEntries.has_iff.mp (deprio _ mem))
  | reconciled free asked received => exact acc.reconciled free asked received
  | restarted =>
    refine acc.congr rfl rfl rfl (fun _ => .rfl) ?_ ?_ ⟨acc.data.index, ?_, ?_⟩
    · intro p isProc
      cases isProc
    · intro txNum mem
      cases mem
    · intro _ _ _ isPurger
      cases isPurger
    · intro _ _ _ _ isPurger
      cases isPurger
  | _ => exact acc.congr rfl rfl rfl (fun _ => .rfl) acc.current (fun _ mem => mem) { acc.data with }

theorem nextBlockNum_of_moved (noCommit : ∀ pvtData missing updates, l ≠ .commit pvtData missing updates)
    (moved : Moved conf t l t') : t'.store.nextBlockNum = t.store.nextBlockNum := by
  cases moved with
  | committed => exact absurd rfl (noCommit _ _ _)
  | purgerStepped running moved => cases moved <;> rfl
  | converted running awake next =>
    rcases convertEntry_cases with ⟨q, isQ, result⟩ | result <;> rw [result]
    rfl
  | _ => rfl

theorem committedReports_of_noCommit (steps : List StoreStep) (noCommit : ∀ pvtData missing updates, l ≠ .commit pvtData missing updates) :
    committedReports (steps ++ [l]) = committedReports steps := by
  cases l with
  | commit => exact absurd rfl (noCommit _ _ _)
  | _ => simp [committedReports]

theorem MissingKept.step (kept : MissingKept conf steps t) (meets : KeepsMissing t l) (moved : Moved conf t l t')
    : MissingKept conf (steps ++ [l]) t' := by
  have below := kept.below.step moved
  have expiry := kept.expiry.step moved
  have once := scansOnce_step kept.once meets.scans moved
  by_cases noCommit : ∀ pvtData missing updates, l ≠ .commit pvtData missing updates
  · have next := nextBlockNum_of_moved noCommit moved
    have reports := committedReports_of_noCommit steps noCommit
    refine ⟨below, expiry, once, by rw [reports, next, kept.blocks], fun K live => ?_⟩
    have before : Live conf t.store K := by
      unfold Live at live ⊢
      rwa [next] at live
    unfold ReportedMissing
    rw [reports]
    exact (kept.accounts K before).step before kept.expiry kept.once noCommit moved
  · push Not at noCommit
    obtain ⟨pvtData, missing, updates, rfl⟩ := noCommit
    cases moved with
    | committed ready stored purges =>
      have result := committed_of_commit stored
      refine ⟨below, expiry, once, ?_, fun K live => kept.committed meets result live⟩
      have blocks := kept.blocks
      simpa [committedReports, result.nextBlockNum] using blocks

theorem MissingKept.empty (conf : StoreConf) : MissingKept conf [] (.opened .empty ∅) := by
  refine ⟨?_, ⟨?_, ?_, ?_⟩, ?_, rfl, fun K _ => ⟨⟨⟨?_, ?_, ?_, ?_⟩, ?_⟩, ?_, ?_, ⟨?_, ?_, ?_⟩⟩⟩
  · constructor <;> simp [Threads.opened, Store.empty]
  all_goals simp [Threads.opened, Store.empty, SoundSchedule, ReportedMissing, committedReports]

end

def recordings (s : Store) (e : NsCollBlk × Nat) : Nat :=
  [s.elgPrioMissing, s.elgDeprioMissing, s.inelgMissing].countP (·.has e)

theorem Accounted.recordings {s : Store} {K : NsCollBlk} (accounted : Accounted s K reported)
    (isReported : reported txNum) : recordings s (K, txNum) = if dataKeyOf K txNum ∈ s.dataEntries then 0 else 1 := by
  obtain ⟨eligible, ineligible⟩ := accounted
  have has : ∀ m : MissingEntries, m.has (K, txNum) = decide (txNum ∈ m[K]?.getD []) := by
    intro m
    rw [Bool.eq_iff_iff, MissingEntries.has_iff, decide_eq_true_eq]
  simp only [PvtdataStore.recordings, countP_cons, countP_nil, has, decide_eq_true_eq]
  cases inelg : s.inelgMissing[K]? with
  | some nums =>
    obtain ⟨_, exactly, noPrio, noDeprio⟩ := ineligible nums inelg
    simp only [noPrio, noDeprio, getD_none, getD_some, not_mem_nil, exactly, isReported, true_and]
    split <;> simp_all
  | none =>
    have exactly := eligible.exact txNum
    have disjoint := eligible.disjoint txNum
    simp only [inelg, and_true, isReported, true_and] at exactly
    simp only [getD_none, not_mem_nil, ↓reduceIte]
    split_ifs <;> simp_all

/-- In every run, what was reported as missing and has not expired is recorded once until its data is stored, and not at
all afterwards. -/
theorem missingData_accounted {conf : StoreConf} {steps : List StoreStep} {t : Threads}
    (run : Reaches (Threads.step conf) KeepsMissing (.opened .empty ∅) steps t) {K : NsCollBlk} {txNum : Nat}
    (reported : ReportedMissing steps K txNum)
    (live : ∀ last, t.store.lastCommittedBlock = some last → isExpired conf.btlPolicy K last = false) :
    recordings t.store (K, txNum) = if dataKeyOf K txNum ∈ t.store.dataEntries then 0 else 1 := by
  have kept : MissingKept conf steps t := by
    refine run.invariant (fun steps t => MissingKept conf steps t) (.empty conf) ?_
    intro steps t l u before meets taken
    exact before.step meets (moved_of_step taken)
  have isLive : Live conf t.store K := by
    unfold Live Store.nextBlockNum
    cases committed : t.store.lastCommittedBlock with
    | none => exact Nat.zero_le _
    | some last => simpa [isExpired] using live last committed
  exact (kept.accounts K isLive).store.recordings reported

def missingColl : NsColl := ⟨[110], [99]⟩

def missingKeyAt (blkNum : Nat) : NsCollBlk := ⟨[110], [99], blkNum⟩

def emptyBlock : List StoreStep := [.validate, .commit ∅ ∅ ∅]

def missingBlock (eligible : Bool) : List StoreStep :=
  [.validate, .commit ∅ ((∅ : TxMissingPvtData).insert 0 [⟨[110], [99], eligible⟩]) ∅]

def reconcileAt (blkNum : Nat) : List StoreStep :=
  [.request [(missingKeyAt blkNum, 0)],
    .reconcile [(missingKeyAt blkNum, 0)] ((∅ : BlocksPvtData).insert blkNum [(0, oneWriteSet [⟨[1], false, [7]⟩])])]

def missingThenEligible : List StoreStep :=
  emptyBlock ++ missingBlock false ++ missingBlock false ++ emptyBlock ++ emptyBlock ++ emptyBlock

/-- The second scan finds what is in the batch already; after block 1 has been reconciled, its old entry is written again. -/
def scannedTwice : List StoreStep :=
  missingThenEligible ++
    [.startElgProc, .scanColl missingColl, .elgStep, .elgStep, .elgStep, .scanColl missingColl, .elgStep] ++
    reconcileAt 1 ++ [.wakeElgProc, .elgStep, .elgStep, .elgStep]

theorem scannedTwice_recorded :
    ∃ t, Reaches (Threads.step (plainConf fun n => if n = 3 ∨ n = 5 then [missingColl] else [])) (fun _ _ => True)
        (.opened .empty ∅) scannedTwice t ∧
      ReportedMissing scannedTwice (missingKeyAt 1) 0 ∧
      t.store.lastCommittedBlock = some 5 ∧ isExpired (plainConf fun _ => []).btlPolicy (missingKeyAt 1) 5 = false ∧
      dataKeyOf (missingKeyAt 1) 0 ∈ t.store.dataEntries ∧ recordings t.store (missingKeyAt 1, 0) = 1 := by
  refine exists_reaches (fun t => t.store.lastCommittedBlock = some 5 ∧ dataKeyOf (missingKeyAt 1) 0 ∈ t.store.dataEntries ∧
    recordings t.store (missingKeyAt 1, 0) = 1) (by decide +kernel) fun t _ ⟨last, stored, recorded⟩ => ?_
  exact ⟨⟨_, rfl, false, by simp [Reports, missingKeyAt]⟩, last, by decide +kernel, stored, recorded⟩

def scannedOnce : List StoreStep :=
  missingThenEligible ++ [.startElgProc, .scanColl missingColl, .elgStep, .elgStep, .elgStep, .elgStep] ++ reconcileAt 1

theorem scannedOnce_accounted :
    ∃ t, Reaches (Threads.step (plainConf fun n => if n = 3 then [missingColl] else [])) KeepsMissing
        (.opened .empty ∅) scannedOnce t ∧
      dataKeyOf (missingKeyAt 1) 0 ∈ t.store.dataEntries ∧ recordings t.store (missingKeyAt 1, 0) = 0 ∧
      dataKeyOf (missingKeyAt 2) 0 ∉ t.store.dataEntries ∧ recordings t.store (missingKeyAt 2, 0) = 1 := by
  refine exists_reaches (fun t => t.store.lastCommittedBlock = some 5 ∧ dataKeyOf (missingKeyAt 1) 0 ∈ t.store.dataEntries ∧
    dataKeyOf (missingKeyAt 2) 0 ∉ t.store.dataEntries) (by decide +kernel) fun t run ⟨last, stored, notStored⟩ => ?_
  have live : ∀ K, isExpired (plainConf fun _ => []).btlPolicy K 5 = false → ∀ last, t.store.lastCommittedBlock = some last →
      isExpired (plainConf fun n => if n = 3 then [missingColl] else []).btlPolicy K last = false := by
    intro K notExpired last' found
    rw [last] at found
    rw [← some.inj found]
    exact notExpired
  have first : recordings t.store (missingKeyAt 1, 0) = _ :=
    missingData_accounted run ⟨_, rfl, false, by simp [Reports, missingKeyAt]⟩ (live _ (by decide +kernel))
  have second : recordings t.store (missingKeyAt 2, 0) = _ :=
    missingData_accounted run ⟨_, rfl, false, by simp [Reports, missingKeyAt]⟩ (live _ (by decide +kernel))
  exact ⟨stored, first.trans (if_pos stored), notStored, second.trans (if_neg notStored)⟩

end Fabric.Proof.PvtdataStore
