import Fabric.Ledger.PvtdataThreads

/-! # Steps of the private data store -/

namespace Fabric.Proof.PvtdataStore

open Fabric.Ledger Fabric.Ledger.Validation Fabric.Ledger.PurgeMgmt Fabric.Ledger.PvtdataStorage Option

variable {t t' : Threads} {conf : StoreConf}

inductive PurgerMoved (conf : StoreConf) (s : Store) : Purger → Store → Option Purger → Prop where
  | expired {e : ExpiryInfoKey × ExpiryData} {entries : List (ExpiryInfoKey × ExpiryData)} :
      PurgerMoved conf s (.expiring (e :: entries)) (s.purgeExpiryEntry conf.codec e) (some (.expiring entries))
  | opened : PurgerMoved conf s (.expiring []) s (some (.marking s.purgeMarkers.toList none newBatchedProcessor))
  | scanned {marker : CollKey × Height} {markers : List (CollKey × Height)} {q : BatchedProcessor} :
      PurgerMoved conf s (.marking (marker :: markers) none q) s
        (some (.marking markers (some (marker, s.hashedIndexRange marker)) q))
  | processed {marker : CollKey × Height} {markers : List (CollKey × Height)} {e : HashedIndexKey × Bytes}
      {entries : List (HashedIndexKey × Bytes)} {q : BatchedProcessor} :
      PurgerMoved conf s (.marking markers (some (marker, e :: entries)) q) s
        (some (.marking markers (some (marker, entries)) (q.process conf s e)))
  | flushed {marker : CollKey × Height} {markers : List (CollKey × Height)} {e : HashedIndexKey × Bytes}
      {entries : List (HashedIndexKey × Bytes)} {q : BatchedProcessor} (full : (q.process conf s e).isFull conf = true) :
      PurgerMoved conf s (.marking markers (some (marker, e :: entries)) q) ((q.updates.process s e).commitPendingChanges s)
        (some (.marking markers (some (marker, entries)) (q.process conf s e).written))
  | markerDone {marker : CollKey × Height} {markers : List (CollKey × Height)} {q : BatchedProcessor} :
      PurgerMoved conf s (.marking markers (some (marker, [])) q) s
        (some (.marking markers none { q with updates := q.updates.addProcessedPurgeMarkerForDeletion marker.1 }))
  | finished {q : BatchedProcessor} : PurgerMoved conf s (.marking [] none q) (q.updates.commitPendingChanges s) none

theorem purgerMoved (conf : StoreConf) (s : Store) (p : Purger) : PurgerMoved conf s p (p.step conf s).1 (p.step conf s).2 := by
  fun_cases Purger.step conf s p with
  | case1 e entries => exact .expired
  | case2 => exact .opened
  | case3 marker markers q => exact .scanned
  | case4 markers marker e entries q sp =>
    by_cases full : (q.process conf s e).isFull conf
    · simp only [sp, processIndexEntry, full, ↓reduceIte]
      exact .flushed full
    · simp only [sp, processIndexEntry, full]
      exact .processed
  | case5 markers marker q => exact .markerDone
  | case6 q => exact .finished

inductive Moved (conf : StoreConf) (t : Threads) : StoreStep → Threads → Prop where
  | validated (idle : t.validated = false) : Moved conf t .validate (t.validate conf)
  | committed {pvtData : TxPvtDataMap} {missingPvtData : TxMissingPvtData} {purgeUpdates : PvtdataPurgeTracker}
      {store : Store} {scheduled : List Nat} (ready : t.validated = true)
      (stored : t.store.commit conf.codec conf.btlPolicy t.store.nextBlockNum pvtData.toList missingPvtData
        (purgeMarkers purgeUpdates) = .ok store)
      (purges : ∀ n ∈ scheduled, n ∈ t.scheduledPurges ∨ n = t.store.nextBlockNum) :
      Moved conf t (.commit pvtData missingPvtData purgeUpdates)
        { t with store := store, validated := false, scheduledPurges := scheduled }
  | purgerStarted {latest : Nat} (free : t.locked = false) (scheduled : latest ∈ t.scheduledPurges) :
      Moved conf t (.startPurger latest) (t.startPurger latest)
  | purgerStepped {p : Purger} {store : Store} {purger : Option Purger} (running : t.purger = some p)
      (moved : PurgerMoved conf t.store p store purger) :
      Moved conf t .purgerStep { t with store := store, purger := purger }
  | elgStarted (free : t.locked = false) (idle : t.elgProc = none) :
      Moved conf t .startElgProc
        { t with elgProc := some ⟨unprocessedEvents t.collElgEvents, [], [], [], false⟩ }
  | scanned {p : ElgProc} {c : NsColl} {blkNum : Nat} {colls : List NsColl} {events : List (Nat × List NsColl)}
      (running : t.elgProc = some p) (awake : p.sleeping = false) (noEntries : p.entries = [])
      (current : p.events = (blkNum, colls) :: events) (listed : c ∈ colls) :
      Moved conf t (.scanColl c) { t with elgProc := some { p with
        events := (blkNum, colls.erase c) :: events
        entries := t.store.inelgMissingRange blkNum c } }
  | converted {p : ElgProc} {e : NsCollBlk × List Nat} {entries : List (NsCollBlk × List Nat)}
      (running : t.elgProc = some p) (awake : p.sleeping = false) (next : p.entries = e :: entries) :
      Moved conf t .elgStep (t.convertEntry conf p e entries)
  | eventDone {p : ElgProc} {blkNum : Nat} {events : List (Nat × List NsColl)} (running : t.elgProc = some p)
      (awake : p.sleeping = false) (noEntries : p.entries = []) (current : p.events = (blkNum, []) :: events) :
      Moved conf t .elgStep
        { t with elgProc := some { p with events := events, processed := p.processed ++ [blkNum] } }
  | elgFinished {p : ElgProc} (running : t.elgProc = some p) (awake : p.sleeping = false) (noEntries : p.entries = [])
      (noEvents : p.events = []) : Moved conf t .elgStep { t.writeBatch p with elgProc := none }
  | woken {p : ElgProc} (running : t.elgProc = some p) (asleep : p.sleeping = true) (free : t.locked = false) :
      Moved conf t .wakeElgProc { t with elgProc := some { p with sleeping := false } }
  | requested {missing : List (NsCollBlk × Nat)}
      (recorded : (∀ e ∈ missing, t.store.elgPrioMissing.has e = true) ∨ ∀ e ∈ missing, t.store.elgDeprioMissing.has e = true) :
      Moved conf t (.request missing) { t with requested := missing }
  | reconciled {fetched : List (NsCollBlk × Nat)} {data : BlocksPvtData} (free : t.locked = false)
      (asked : ∀ e ∈ fetched, e ∈ t.requested) (received : ∀ k ∈ data.dataKeys, k.missingKey ∈ fetched) :
      Moved conf t (.reconcile fetched data) { t with
        store := t.store.commitPvtDataOfOldBlocks conf.btlPolicy conf.codec data (t.requested.filter (· ∉ fetched))
        requested := [] }
  | readerOpened {blockNum : Nat} {filter : NsColl → Bool} {r : Reader} (idle : t.reader = none)
      (opened : t.store.openReader blockNum filter = some r) :
      Moved conf t (.openReader blockNum filter) { t with reader := some r }
  | readerMoved {r r' : Reader} (reading : t.reader = some r) (moved : r.step conf t.store = some r') :
      Moved conf t .readerStep { t with reader := some r' }
  | readerClosed {r : Reader} (reading : t.reader = some r) (noEntries : r.entries = []) (noFiltering : r.filtering = none) :
      Moved conf t .closeReader { t with reader := none }
  | restarted : Moved conf t .restart (.opened t.store t.collElgEvents)

theorem purger_of_free (free : t.locked = false) : t.purger = none := by
  unfold Threads.locked at free
  simp_all

theorem moved_of_elgStep {p : ElgProc} (running : t.elgProc = some p) (awake : p.sleeping = false)
    (taken : t.elgStep conf p = some t') : Moved conf t .elgStep t' := by
  unfold Threads.elgStep at taken
  split at taken
  · rename_i next
    obtain rfl := some.inj taken
    exact .converted running awake next
  · rename_i noEntries current
    obtain rfl := some.inj taken
    exact .eventDone running awake noEntries current
  · cases taken
  · rename_i noEntries noEvents
    obtain rfl := some.inj taken
    exact .elgFinished running awake noEntries noEvents

theorem moved_of_scanColl {p : ElgProc} {c : NsColl} (running : t.elgProc = some p) (awake : p.sleeping = false)
    (taken : t.scanColl p c = some t') : Moved conf t (.scanColl c) t' := by
  unfold Threads.scanColl at taken
  split at taken
  · rename_i noEntries current
    split at taken
    · rename_i listed
      obtain rfl := some.inj taken
      exact .scanned running awake noEntries current listed
    · cases taken
  · cases taken

theorem moved_of_commit {pvtData : TxPvtDataMap} {missingPvtData : TxMissingPvtData}
    {purgeUpdates : PvtdataPurgeTracker} (ready : t.validated = true) (taken : t.commit conf pvtData missingPvtData purgeUpdates = some t') :
    Moved conf t (.commit pvtData missingPvtData purgeUpdates) t' := by
  simp only [Threads.commit] at taken
  split at taken
  · cases taken
  · rename_i stored
    obtain rfl := some.inj taken
    refine .committed ready stored fun n mem => ?_
    split at mem
    · simpa using mem
    · exact .inl mem

theorem moved_of_step {l : StoreStep} (taken : t.step conf l = some t') : Moved conf t l t' := by
  cases l with
  | validate =>
    simp only [Threads.step, ite_none_left_eq_some, some.injEq] at taken
    obtain ⟨idle, rfl⟩ := taken
    exact .validated (by simpa using idle)
  | commit pvtData missingPvtData purgeUpdates =>
    simp only [Threads.step, ite_none_right_eq_some] at taken
    exact moved_of_commit taken.1 taken.2
  | startPurger latest =>
    simp only [Threads.step, ite_none_right_eq_some, some.injEq, Bool.and_eq_true, Bool.not_eq_eq_eq_not,
      Bool.not_true, List.contains_iff_mem] at taken
    obtain ⟨⟨free, scheduled⟩, rfl⟩ := taken
    exact .purgerStarted free scheduled
  | purgerStep =>
    obtain ⟨p, running, rfl⟩ := map_eq_some_iff.mp taken
    exact .purgerStepped running (purgerMoved conf t.store p)
  | startElgProc =>
    simp only [Threads.step, ite_none_right_eq_some, some.injEq, Bool.and_eq_true, Bool.not_eq_eq_eq_not,
      Bool.not_true, isNone_iff_eq_none] at taken
    obtain ⟨⟨free, idle⟩, rfl⟩ := taken
    exact .elgStarted free idle
  | scanColl c =>
    obtain ⟨p, running, taken⟩ := bind_eq_some_iff.mp taken
    simp only [ite_none_left_eq_some, Bool.not_eq_true] at taken
    exact moved_of_scanColl running taken.1 taken.2
  | elgStep =>
    obtain ⟨p, running, taken⟩ := bind_eq_some_iff.mp taken
    simp only [ite_none_left_eq_some, Bool.not_eq_true] at taken
    exact moved_of_elgStep running taken.1 taken.2
  | wakeElgProc =>
    obtain ⟨p, running, taken⟩ := bind_eq_some_iff.mp taken
    simp only [ite_none_right_eq_some, some.injEq, Bool.and_eq_true, Bool.not_eq_eq_eq_not, Bool.not_true] at taken
    obtain ⟨⟨asleep, free⟩, rfl⟩ := taken
    exact .woken running asleep free
  | request missing =>
    simp only [Threads.step, Threads.request, ite_none_right_eq_some, some.injEq, Bool.or_eq_true, List.all_eq_true] at taken
    obtain ⟨recorded, rfl⟩ := taken
    exact .requested recorded
  | reconcile fetched data =>
    simp only [Threads.step, Threads.reconcile, ite_none_right_eq_some, some.injEq, Bool.and_eq_true,
      Bool.not_eq_eq_eq_not, Bool.not_true, List.all_eq_true, decide_eq_true_eq] at taken
    obtain ⟨⟨⟨free, asked⟩, received⟩, rfl⟩ := taken
    exact .reconciled free asked received
  | openReader blockNum filter =>
    simp only [Threads.step, ite_none_right_eq_some, isNone_iff_eq_none] at taken
    obtain ⟨idle, taken⟩ := taken
    obtain ⟨r, opened, rfl⟩ := map_eq_some_iff.mp taken
    exact .readerOpened idle opened
  | readerStep =>
    obtain ⟨r', found, rfl⟩ := map_eq_some_iff.mp taken
    obtain ⟨r, reading, moved⟩ := bind_eq_some_iff.mp found
    exact .readerMoved reading moved
  | closeReader =>
    simp only [Threads.step, ite_none_right_eq_some, some.injEq, any_eq_true, Bool.and_eq_true, isNone_iff_eq_none, List.isEmpty_iff] at taken
    obtain ⟨⟨r, reading, noFiltering, noEntries⟩, rfl⟩ := taken
    exact .readerClosed reading noEntries noFiltering
  | restart =>
    obtain rfl := some.inj taken
    exact .restarted

end Fabric.Proof.PvtdataStore
