import Fabric.Proof.PvtdataStore.MissingAccount

/-! # Conversion of missing data that has become eligible -/

namespace Fabric.Proof.PvtdataStore

open Lib Fabric.Ledger.PvtdataStorage Option
open List hiding getElem?_insert mem_union_iff

variable {l : StoreStep} {events : List (Nat × List NsColl)} {blkNum : Nat}

def recordBlocks (blocks : Nat × List Nat) : StoreStep → Nat × List Nat
  | .validate => (blocks.1, blocks.2 ++ [blocks.1])
  | .commit _ _ _ => (blocks.1 + 1, blocks.2)
  | _ => blocks

def recordedBlocks (steps : List StoreStep) : Nat × List Nat := steps.foldl recordBlocks (0, [])

def validatedBlocks (steps : List StoreStep) : List Nat := (recordedBlocks steps).2

theorem recordedBlocks_concat (steps : List StoreStep) (l : StoreStep) :
    recordedBlocks (steps ++ [l]) = recordBlocks (recordedBlocks steps) l := by
  simp [recordedBlocks]

structure EventsSound (conf : StoreConf) (steps : List StoreStep) (t : Threads) : Prop where
  next : (recordedBlocks steps).1 = t.store.nextBlockNum
  validated : ∀ B ∈ validatedBlocks steps, B ≤ t.store.nextBlockNum
  events : ∀ B ∈ t.collElgEvents, B ∈ validatedBlocks steps
  colls : ∀ (B : Nat) (colls : List NsColl), t.collElgEvents[B]? = some colls → colls = conf.enabledColls B
  distinct : ∀ p, t.elgProc = some p → (p.events.map (·.1) ++ p.processed).Nodup
  taken : ∀ p, t.elgProc = some p → ∀ B ∈ p.events.map (·.1) ++ p.processed, B ∈ validatedBlocks steps

section

variable {conf : StoreConf} {steps : List StoreStep} {t t' : Threads}

theorem mem_unprocessedEvents {events : CollElgEvents} {e : Nat × List NsColl} :
    e ∈ unprocessedEvents events ↔ events[e.1]? = some e.2 ∧ e.1 ≠ 0 := by
  obtain ⟨B, colls⟩ := e
  simp [unprocessedEvents, mem_toList_iff_getElem?_eq_some]

theorem nodup_unprocessedEvents (events : CollElgEvents) : ((unprocessedEvents events).map (·.1)).Nodup := by
  rw [unprocessedEvents, map_reverse, nodup_reverse]
  exact (nodup_keys events).sublist (List.Sublist.map _ filter_sublist)

theorem get_eraseEvents (t : Threads) (p : ElgProc) (B : Nat) :
    (t.writeBatch p).collElgEvents[B]? = if B ∈ p.processed then none else t.collElgEvents[B]? :=
  get_eraseAll _ _ _

theorem validatedBlocks_of_noValidate (steps : List StoreStep) (noValidate : l ≠ .validate) :
    validatedBlocks (steps ++ [l]) = validatedBlocks steps := by
  unfold validatedBlocks
  rw [recordedBlocks_concat]
  cases l with
  | validate => exact absurd rfl noValidate
  | _ => rfl

theorem recordedBlocks_next (next : (recordedBlocks steps).1 = t.store.nextBlockNum) (moved : Moved conf t l t')
    : (recordedBlocks (steps ++ [l])).1 = t'.store.nextBlockNum := by
  rw [recordedBlocks_concat]
  by_cases noCommit : ∀ pvtData missing updates, l ≠ .commit pvtData missing updates
  · rw [nextBlockNum_of_moved noCommit moved, ← next]
    cases l with
    | commit => exact absurd rfl (noCommit _ _ _)
    | _ => rfl
  · push Not at noCommit
    obtain ⟨pvtData, missing, updates, rfl⟩ := noCommit
    cases moved with
    | committed ready stored purges =>
      rw [show (recordBlocks (recordedBlocks steps) (.commit pvtData missing updates)).1 = (recordedBlocks steps).1 + 1 from rfl, next]
      exact (committed_of_commit stored).nextBlockNum.symm

theorem EventsSound.validate (sound : EventsSound conf steps t) : EventsSound conf (steps ++ [.validate]) (t.validate conf) := by
  have blocks : validatedBlocks (steps ++ [.validate]) = validatedBlocks steps ++ [t.store.nextBlockNum] := by
    unfold validatedBlocks
    rw [recordedBlocks_concat, recordBlocks, sound.next]
  have inserted : ∀ (B : Nat) (colls : List NsColl), (t.validate conf).collElgEvents[B]? = some colls →
      t.collElgEvents[B]? = some colls ∨ B = t.store.nextBlockNum ∧ colls = conf.enabledColls B := by
    intro B colls found
    unfold Threads.validate at found
    dsimp only at found
    split at found
    · exact .inl found
    · rw [getElem?_insert] at found
      split at found
      · rename_i same
        obtain rfl := Std.LawfulEqCmp.eq_of_compare same
        exact .inr ⟨rfl, (some.inj found).symm⟩
      · exact .inl found
  have next : (recordedBlocks (steps ++ [.validate])).1 = t.store.nextBlockNum := by
    rw [recordedBlocks_concat]
    exact sound.next
  refine ⟨next, ?_, ?_, ?_, sound.distinct, ?_⟩
  · rw [blocks]
    intro B mem
    rcases mem_append.mp mem with before | last
    · exact sound.validated B before
    · exact (mem_singleton.mp last).le
  · rw [blocks]
    intro B mem
    obtain ⟨colls, found⟩ := mem_iff_get.mp mem
    rcases inserted B colls found with before | ⟨rfl, _⟩
    · exact mem_append_left _ (sound.events B (mem_of_get before))
    · simp
  · intro B colls found
    rcases inserted B colls found with before | ⟨_, rfl⟩
    · exact sound.colls B colls before
    · rfl
  · rw [blocks]
    exact fun p isProc B mem => mem_append_left _ (sound.taken p isProc B mem)

theorem EventsSound.step (sound : EventsSound conf steps t) (moved : Moved conf t l t') : EventsSound conf (steps ++ [l]) t' := by
  by_cases isValidate : l = .validate
  · subst isValidate
    cases moved with
    | validated idle => exact sound.validate
  have blocks := validatedBlocks_of_noValidate steps isValidate
  have next := recordedBlocks_next sound.next moved
  have later : t.store.nextBlockNum ≤ t'.store.nextBlockNum := by
    rw [← next, ← sound.next, recordedBlocks_concat]
    cases l <;> simp [recordBlocks]
  have kept (events : ∀ (B : Nat) colls, t'.collElgEvents[B]? = some colls → t.collElgEvents[B]? = some colls)
      (proc : ∀ p, t'.elgProc = some p → (p.events.map (·.1) ++ p.processed).Nodup ∧
        ∀ B ∈ p.events.map (·.1) ++ p.processed, B ∈ validatedBlocks steps) : EventsSound conf (steps ++ [l]) t' := by
    refine ⟨next, ?_, ?_, fun B colls found => sound.colls B colls (events B colls found), fun p isProc => (proc p isProc).1, ?_⟩
    · rw [blocks]
      exact fun B mem => (sound.validated B mem).trans later
    · rw [blocks]
      intro B mem
      obtain ⟨colls, found⟩ := mem_iff_get.mp mem
      exact sound.events B (mem_of_get (events B colls found))
    · rw [blocks]
      exact fun p isProc => (proc p isProc).2
  have same (events : t'.collElgEvents = t.collElgEvents) := kept (by rw [events]; exact fun _ _ => id)
  have written (p : ElgProc) (events : t'.collElgEvents = (t.writeBatch p).collElgEvents) := kept (by
    rw [events]
    intro B colls found
    rw [get_eraseEvents] at found
    split at found
    · cases found
    · exact found)
  have unchanged p (isProc : t.elgProc = some p) := And.intro (sound.distinct p isProc) (sound.taken p isProc)
  cases moved with
  | validated => exact absurd rfl isValidate
  | elgStarted free idle =>
    refine same rfl fun p isProc => ?_
    obtain rfl := some.inj isProc
    rw [append_nil]
    refine ⟨nodup_unprocessedEvents _, fun B mem => ?_⟩
    obtain ⟨e, listed, rfl⟩ := List.mem_map.mp mem
    exact sound.events _ (mem_of_get (mem_unprocessedEvents.mp listed).1)
  | scanned running awake noEntries current listed =>
    refine same rfl fun p isProc => ?_
    obtain rfl := some.inj isProc
    have before := unchanged _ running
    rw [current] at before
    exact before
  | @converted p e entries running awake next =>
    rcases convertEntry_cases with ⟨q, isQ, result⟩ | result
    · refine written q (by rw [result]) fun q' isProc => ?_
      rw [result] at isProc
      obtain rfl := some.inj isProc
      subst isQ
      obtain ⟨distinct, taken⟩ := unchanged p running
      dsimp only
      rw [append_nil]
      exact ⟨(nodup_append.mp distinct).1, fun B mem => taken B (mem_append_left _ mem)⟩
    · refine same (by rw [result]) fun q' isProc => ?_
      rw [result] at isProc
      obtain rfl := some.inj isProc
      exact unchanged p running
  | @eventDone p blkNum events running awake noEntries current =>
    refine same rfl fun p' isProc => ?_
    obtain rfl := some.inj isProc
    have before := unchanged _ running
    rw [current] at before
    have perm : (events.map (·.1) ++ (p.processed ++ [blkNum])).Perm (((blkNum, []) :: events).map (·.1) ++ p.processed) := by
      rw [← append_assoc]
      exact perm_append_singleton blkNum _
    exact ⟨perm.nodup_iff.mpr before.1, fun B mem => before.2 B (perm.mem_iff.mp mem)⟩
  | elgFinished running awake noEntries noEvents => exact written _ rfl fun p isProc => (by cases isProc)
  | woken running asleep free =>
    have before := unchanged _ running
    refine same rfl fun p isProc => ?_
    obtain rfl := some.inj isProc
    exact before
  | restarted => exact same rfl fun p isProc => (by cases isProc)
  | _ => exact same rfl unchanged

end

inductive Covered (p : ElgProc) (B : Nat) (c : NsColl) (K : NsCollBlk) : Prop where
  | later (notTaken : B ∉ p.events.map (·.1)) (unread : B ∉ p.processed)
  | unscanned {colls : List NsColl} (taken : (B, colls) ∈ p.events) (listed : c ∈ colls)
  | inHand {colls : List NsColl} {events : List (Nat × List NsColl)} (current : p.events = (B, colls) :: events)
      (held : K ∈ (p.entries ++ p.converted).map (·.1))
  | done (processed : B ∈ p.processed) (held : K ∈ p.converted.map (·.1))

structure Awaited (t : Threads) (B : Nat) (c : NsColl) (K : NsCollBlk) : Prop where
  event : t.collElgEvents[B]?.any (c ∈ ·) = true
  routine : ∀ p, t.elgProc = some p → Covered p B c K

def EventsAwait (conf : StoreConf) (steps : List StoreStep) (t : Threads) : Prop :=
  ∀ B ∈ validatedBlocks steps, ∀ K ∈ t.store.inelgMissing, (⟨K.ns, K.coll⟩ : NsColl) ∈ conf.enabledColls B → K.blkNum ≤ B →
    Awaited t B ⟨K.ns, K.coll⟩ K

def scanAhead (t : Threads) (B : Nat) (c : NsColl) : Bool :=
  t.collElgEvents[B]?.any (c ∈ ·) &&
    t.elgProc.all fun p => decide (B ∉ p.processed) && p.events.all fun e => e.1 ≠ B || decide (c ∈ e.2)

/-- Block 0 reports nothing as ineligible; and when a block reports data as ineligible of a collection for which it makes
the peer eligible itself, the scan for its event is still ahead. -/
def ScansInTime (conf : StoreConf) (t : Threads) (l : StoreStep) : Prop :=
  ∀ e ∈ (reports l).toList, ∀ m ∈ e.2, m.isEligible = false → t.store.nextBlockNum ≠ 0 ∧
    ((⟨m.ns, m.coll⟩ : NsColl) ∈ conf.enabledColls t.store.nextBlockNum →
      scanAhead t t.store.nextBlockNum ⟨m.ns, m.coll⟩ = true)

instance (conf : StoreConf) (t : Threads) (l : StoreStep) : Decidable (ScansInTime conf t l) :=
  inferInstanceAs (Decidable (∀ e ∈ (reports l).toList, ∀ m ∈ e.2, m.isEligible = false → _ ∧ (_ → _)))

section

variable {conf : StoreConf} {steps : List StoreStep} {t t' : Threads} {B : Nat} {c : NsColl} {K : NsCollBlk} {p : ElgProc}

theorem awaited_of_scanAhead (ahead : scanAhead t B c = true) : Awaited t B c K := by
  simp only [scanAhead, Bool.and_eq_true, Option.all_eq_true, decide_eq_true_eq, List.all_eq_true, Bool.or_eq_true] at ahead
  obtain ⟨event, ahead⟩ := ahead
  refine ⟨event, fun p isProc => ?_⟩
  obtain ⟨unread, ahead⟩ := ahead p isProc
  by_cases taken : B ∈ p.events.map (·.1)
  · obtain ⟨⟨B', colls⟩, listed, rfl⟩ := List.mem_map.mp taken
    exact .unscanned listed ((ahead _ listed).resolve_left fun other => other rfl)
  · exact .later taken unread

theorem Covered.scanned (inv : Covered p B c K) {c' : NsColl} {colls : List NsColl} {s : Store}
    (noEntries : p.entries = []) (current : p.events = (blkNum, colls) :: events) (stored : K ∈ s.inelgMissing)
    (isColl : (⟨K.ns, K.coll⟩ : NsColl) = c) (pos : 0 < K.blkNum) (below : K.blkNum ≤ B) :
    Covered { p with events := (blkNum, colls.erase c') :: events, entries := s.inelgMissingRange blkNum c' } B c K := by
  cases inv with
  | later notTaken unread =>
    rw [current] at notTaken
    exact .later notTaken unread
  | @unscanned colls' taken listed =>
    rw [current] at taken
    rcases mem_cons.mp taken with here | later
    · obtain ⟨rfl, rfl⟩ := Prod.mk.inj here
      by_cases again : c ∈ colls'.erase c'
      · exact .unscanned mem_cons_self again
      · obtain rfl : c = c' := by
          by_contra different
          exact again ((mem_erase_of_ne different).mpr listed)
        obtain ⟨txNums, found⟩ := mem_iff_get.mp stored
        refine .inHand rfl (List.mem_map.mpr ⟨(K, txNums), mem_append_left _ (mem_inelgMissingRange.mpr ?_), rfl⟩)
        exact ⟨found, congrArg NsColl.ns isColl, congrArg NsColl.coll isColl, pos, below⟩
    · exact .unscanned (mem_cons_of_mem _ later) listed
  | inHand isCurrent held =>
    rw [current] at isCurrent
    obtain ⟨here, rfl⟩ := List.cons.inj isCurrent
    obtain ⟨rfl, rfl⟩ := Prod.mk.inj here
    rw [noEntries, nil_append] at held
    refine .inHand rfl ?_
    rw [map_append]
    exact mem_append_right _ held
  | done processed held => exact .done processed held

theorem Covered.converted (inv : Covered p B c K) {e : NsCollBlk × List Nat} {entries : List (NsCollBlk × List Nat)}
    (next : p.entries = e :: entries) : Covered { p with entries := entries, converted := p.converted ++ [e] } B c K := by
  cases inv with
  | later notTaken unread => exact .later notTaken unread
  | unscanned taken listed => exact .unscanned taken listed
  | inHand current held =>
    refine .inHand current ?_
    rw [next] at held
    have perm := perm_converted e entries p.converted
    exact (perm.map (·.1)).mem_iff.mpr held
  | done processed held =>
    refine .done processed ?_
    rw [map_append]
    exact mem_append_left _ held

theorem Covered.eventDone (inv : Covered p B c K) (noEntries : p.entries = []) (current : p.events = (blkNum, []) :: events) :
    Covered { p with events := events, processed := p.processed ++ [blkNum] } B c K := by
  cases inv with
  | later notTaken unread =>
    rw [current, map_cons, mem_cons, not_or] at notTaken
    exact .later notTaken.2 (by simp [unread, notTaken.1])
  | unscanned taken listed =>
    rw [current] at taken
    rcases mem_cons.mp taken with here | later
    · obtain ⟨rfl, rfl⟩ := Prod.mk.inj here
      cases listed
    · exact .unscanned later listed
  | inHand isCurrent held =>
    rw [current] at isCurrent
    obtain ⟨here, rfl⟩ := List.cons.inj isCurrent
    obtain ⟨rfl, rfl⟩ := Prod.mk.inj here
    rw [noEntries, nil_append] at held
    exact .done (mem_append_right _ (mem_singleton_self _)) held
  | done processed held => exact .done (mem_append_left _ processed) held

theorem Covered.notProcessed (inv : Covered p B c K) (distinct : (p.events.map (·.1) ++ p.processed).Nodup)
    (notConverted : K ∉ p.converted.map (·.1)) : B ∉ p.processed := by
  have apart := (nodup_append.mp distinct).2.2
  cases inv with
  | later notTaken unread => exact unread
  | unscanned taken listed => exact fun processed => apart B (List.mem_map.mpr ⟨_, taken, rfl⟩) B processed rfl
  | inHand current held => exact fun processed => apart B (by rw [current]; exact mem_cons_self) B processed rfl
  | done processed held => exact absurd held notConverted

theorem Covered.written (inv : Covered p B c K) (notConverted : K ∉ p.converted.map (·.1)) :
    Covered { p with converted := [], processed := [], sleeping := true } B c K := by
  cases inv with
  | later notTaken unread => exact .later notTaken (by simp)
  | unscanned taken listed => exact .unscanned taken listed
  | inHand current held =>
    refine .inHand current ?_
    rw [map_append, mem_append] at held
    simpa using held.resolve_right notConverted
  | done processed held => exact absurd held notConverted

theorem mem_inelgMissing_writeBatch (mem : K ∈ (t.writeBatch p).store.inelgMissing) :
    K ∈ t.store.inelgMissing ∧ K ∉ p.converted.map (·.1) := by
  refine ⟨mem_of_mem_eraseAll mem, fun listed => ?_⟩
  have erased : (t.writeBatch p).store.inelgMissing[K]? = none := (get_eraseAll _ _ _).trans (if_pos listed)
  simp [mem_iff_isSome_getElem?, erased] at mem

theorem Awaited.congr (awaited : Awaited t B c K) (events : t'.collElgEvents[B]? = t.collElgEvents[B]?)
    (routine : ∀ p, t'.elgProc = some p → Covered p B c K) : Awaited t' B c K := by
  refine ⟨?_, routine⟩
  rw [events]
  exact awaited.event

theorem EventsAwait.validated (await : EventsAwait conf steps t) (sound : EventsSound conf steps t) :
    EventsAwait conf (steps ++ [.validate]) (t.validate conf) := by
  have blocks : validatedBlocks (steps ++ [.validate]) = validatedBlocks steps ++ [t.store.nextBlockNum] := by
    unfold validatedBlocks
    rw [recordedBlocks_concat, recordBlocks, sound.next]
  intro B mem K stored enabled below
  have event : (t.validate conf).collElgEvents[t.store.nextBlockNum]?.any (⟨K.ns, K.coll⟩ ∈ ·) = true ∨ B ≠ t.store.nextBlockNum := by
    by_cases isNext : B = t.store.nextBlockNum
    · rw [isNext] at enabled
      have nonempty : conf.enabledColls t.store.nextBlockNum ≠ [] := ne_nil_of_mem enabled
      exact .inl (by simp [Threads.validate, nonempty, enabled])
    · exact .inr isNext
  have other : B ≠ t.store.nextBlockNum → (t.validate conf).collElgEvents[B]? = t.collElgEvents[B]? := by
    intro different
    unfold Threads.validate
    dsimp only
    split
    · rfl
    · simp [get_insert, Ne.symm different]
  by_cases before : B ∈ validatedBlocks steps
  · have awaited := await B before K stored enabled below
    rcases event with event | different
    · by_cases isNext : B = t.store.nextBlockNum
      · exact ⟨isNext ▸ event, awaited.routine⟩
      · exact awaited.congr (other isNext) awaited.routine
    · exact awaited.congr (other different) awaited.routine
  · rw [blocks] at mem
    have isNext : B = t.store.nextBlockNum := by simpa [before] using mem
    refine ⟨isNext ▸ event.resolve_right fun different => different isNext, fun p isProc => ?_⟩
    have notTaken : B ∉ p.events.map (·.1) ++ p.processed := fun taken => before (sound.taken p isProc B taken)
    rw [mem_append, not_or] at notTaken
    exact .later notTaken.1 notTaken.2

theorem EventsAwait.committed (await : EventsAwait conf steps t) (sound : EventsSound conf steps t) {pvtData : List TxPvtData}
    {missing : TxMissingPvtData} {markers : List PurgeMarker} {store : Store} {scheduled : List Nat}
    (result : Committed conf.codec conf.btlPolicy t.store pvtData missing markers store)
    (inTime : ∀ e ∈ missing.toList, ∀ m ∈ e.2, m.isEligible = false → t.store.nextBlockNum ≠ 0 ∧
      ((⟨m.ns, m.coll⟩ : NsColl) ∈ conf.enabledColls t.store.nextBlockNum → scanAhead t t.store.nextBlockNum ⟨m.ns, m.coll⟩ = true)) :
    EventsAwait conf steps { t with store := store, validated := false, scheduledPurges := scheduled } := by
  intro B mem K stored enabled below
  have awaited : Awaited t B ⟨K.ns, K.coll⟩ K := by
    dsimp only at stored
    rw [result.inelgMissing] at stored
    rcases mem_union_iff.mp stored with before | new
    · exact await B mem K before enabled below
    · obtain ⟨block, txNum, isReported⟩ := key_of_mem_prepareMissingDataEntries new
      obtain ⟨e, listed, _, reported⟩ := exists_of_reports isReported
      obtain rfl : B = t.store.nextBlockNum := by
        have := sound.validated B mem
        omega
      exact awaited_of_scanAhead ((inTime e listed _ reported rfl).2 enabled)
  exact ⟨awaited.event, awaited.routine⟩

theorem EventsAwait.step (await : EventsAwait conf steps t) (sound : EventsSound conf steps t)
    (positive : ∀ K ∈ t.store.inelgMissing, 0 < K.blkNum) (inTime : ScansInTime conf t l) (moved : Moved conf t l t')
    : EventsAwait conf (steps ++ [l]) t' := by
  by_cases isValidate : l = .validate
  · subst isValidate
    cases moved with
    | validated idle => exact await.validated sound
  unfold EventsAwait
  rw [validatedBlocks_of_noValidate steps isValidate]
  have routine : t'.collElgEvents = t.collElgEvents → (∀ K ∈ t'.store.inelgMissing, K ∈ t.store.inelgMissing) →
      (∀ p, t'.elgProc = some p → ∀ B K, K ∈ t.store.inelgMissing → K.blkNum ≤ B → Awaited t B ⟨K.ns, K.coll⟩ K →
        Covered p B ⟨K.ns, K.coll⟩ K) → EventsAwait conf steps t' := by
    intro events inelg inv B mem K stored enabled below
    have awaited := await B mem K (inelg K stored) enabled below
    exact awaited.congr (by rw [events]) fun p isProc => inv p isProc B K (inelg K stored) below awaited
  have unchanged : ∀ p, t.elgProc = some p → ∀ B K, K ∈ t.store.inelgMissing → K.blkNum ≤ B → Awaited t B ⟨K.ns, K.coll⟩ K →
      Covered p B ⟨K.ns, K.coll⟩ K := fun p isProc B K _ _ awaited => awaited.routine p isProc
  cases moved with
  | validated => exact absurd rfl isValidate
  | committed ready stored purges => exact await.committed sound (committed_of_commit stored) inTime
  | purgerStepped running moved =>
    refine routine rfl (fun K mem => ?_) unchanged
    cases moved with
    | expired => exact mem_of_mem_eraseAll mem
    | _ => exact mem
  | elgStarted free idle =>
    refine routine rfl (fun K mem => mem) fun p isProc B K stored below awaited => ?_
    obtain rfl := some.inj isProc
    obtain ⟨colls, found, listed⟩ := (Option.any_eq_true _ _).mp awaited.event
    have pos := positive K stored
    exact .unscanned (mem_unprocessedEvents.mpr ⟨found, by omega⟩) (of_decide_eq_true listed)
  | scanned running awake noEntries current listed =>
    refine routine rfl (fun K mem => mem) fun p isProc B K stored below awaited => ?_
    obtain rfl := some.inj isProc
    exact (awaited.routine _ running).scanned noEntries current stored rfl (positive K stored) below
  | @converted p e entries running awake next =>
    rcases convertEntry_cases with ⟨q, isQ, result⟩ | result
    · rw [result]
      subst isQ
      intro B mem K stored enabled below
      obtain ⟨before, notConverted⟩ := mem_inelgMissing_writeBatch stored
      have awaited := await B mem K before enabled below
      have inv := (awaited.routine p running).converted next
      have distinct := sound.distinct p running
      refine awaited.congr ?_ fun q isProc => ?_
      · refine (get_eraseEvents _ _ _).trans (if_neg ?_)
        exact inv.notProcessed distinct notConverted
      · obtain rfl := some.inj isProc
        exact inv.written notConverted
    · rw [result] at routine ⊢
      refine routine rfl (fun K mem => mem) fun q isProc B K stored below awaited => ?_
      obtain rfl := some.inj isProc
      exact (awaited.routine p running).converted next
  | eventDone running awake noEntries current =>
    refine routine rfl (fun K mem => mem) fun p isProc B K stored below awaited => ?_
    obtain rfl := some.inj isProc
    exact (awaited.routine _ running).eventDone noEntries current
  | @elgFinished p running awake noEntries noEvents =>
    intro B mem K stored enabled below
    obtain ⟨before, notConverted⟩ := mem_inelgMissing_writeBatch stored
    have awaited := await B mem K before enabled below
    refine awaited.congr ?_ fun q isProc => (by cases isProc)
    refine (get_eraseEvents _ _ _).trans (if_neg ?_)
    exact (awaited.routine p running).notProcessed (sound.distinct p running) notConverted
  | woken running asleep free =>
    refine routine rfl (fun K mem => mem) fun p isProc B K stored below awaited => ?_
    obtain rfl := some.inj isProc
    cases awaited.routine _ running with
    | later notTaken unread => exact .later notTaken unread
    | unscanned taken listed => exact .unscanned taken listed
    | inHand current held => exact .inHand current held
    | done processed held => exact .done processed held
  | restarted => exact routine rfl (fun K mem => mem) fun p isProc => (by cases isProc)
  | _ => exact routine rfl (fun K mem => mem) unchanged

theorem positive_step (positive : ∀ K ∈ t.store.inelgMissing, 0 < K.blkNum) (inTime : ScansInTime conf t l)
    (moved : Moved conf t l t') : ∀ K ∈ t'.store.inelgMissing, 0 < K.blkNum := by
  cases moved with
  | @committed pvtData missing updates store scheduled ready stored purges =>
    have result := committed_of_commit stored
    intro K mem
    dsimp only at mem
    rw [result.inelgMissing] at mem
    rcases mem_union_iff.mp mem with before | new
    · exact positive K before
    · obtain ⟨block, txNum, isReported⟩ := key_of_mem_prepareMissingDataEntries new
      obtain ⟨e, listed, _, reported⟩ := exists_of_reports isReported
      rw [block]
      exact Nat.pos_of_ne_zero (inTime e listed _ reported rfl).1
  | purgerStepped running moved =>
    cases moved with
    | expired => exact fun K mem => positive K (mem_of_mem_eraseAll mem)
    | _ => exact positive
  | converted running awake next =>
    rcases convertEntry_cases with ⟨q, isQ, result⟩ | result
    · rw [result]
      exact fun K mem => positive K (mem_of_mem_eraseAll mem)
    · rw [result]
      exact positive
  | elgFinished => exact fun K mem => positive K (mem_of_mem_eraseAll mem)
  | _ => exact positive

end

/-- Once the event of a block that makes the peer eligible for a collection has been processed and deleted, no entry of
the collection for the block or an earlier one is left in the ineligible group. -/
theorem eligible_converted {conf : StoreConf} {steps : List StoreStep} {t : Threads}
    (run : Reaches (Threads.step conf) (ScansInTime conf) (.opened .empty ∅) steps t) {B : Nat}
    (raised : B ∈ validatedBlocks steps) {K : NsCollBlk} (enabled : (⟨K.ns, K.coll⟩ : NsColl) ∈ conf.enabledColls B)
    (below : K.blkNum ≤ B) (processed : t.collElgEvents[B]? = none) : K ∉ t.store.inelgMissing := by
  have kept : EventsSound conf steps t ∧ (∀ K ∈ t.store.inelgMissing, 0 < K.blkNum) ∧ EventsAwait conf steps t := by
    refine run.invariant (fun steps t => EventsSound conf steps t ∧ (∀ K ∈ t.store.inelgMissing, 0 < K.blkNum) ∧
      EventsAwait conf steps t) ⟨?_, ?_, ?_⟩ ?_
    · constructor <;> simp [Threads.opened, Store.empty, recordedBlocks, validatedBlocks, Store.nextBlockNum]
    · simp [Threads.opened, Store.empty]
    · simp [EventsAwait, Threads.opened, Store.empty]
    · intro steps t l u before meets taken
      have moved := moved_of_step taken
      exact ⟨before.1.step moved, positive_step before.2.1 meets moved, before.2.2.step before.1 before.2.1 meets moved⟩
  intro stored
  have awaited := kept.2.2 B raised K stored enabled below
  simpa [processed] using awaited.event

def scannedEarly : List StoreStep :=
  emptyBlock ++ [.validate, .startElgProc, .scanColl missingColl, .elgStep, .elgStep] ++
    [.commit ∅ ((∅ : TxMissingPvtData).insert 0 [⟨[110], [99], false⟩]) ∅]

theorem scannedEarly_ineligible :
    ∃ t, Reaches (Threads.step (plainConf fun n => if n = 1 then [missingColl] else [])) (fun _ _ => True)
        (.opened .empty ∅) scannedEarly t ∧
      1 ∈ validatedBlocks scannedEarly ∧ t.collElgEvents[1]? = none ∧ missingKeyAt 1 ∈ t.store.inelgMissing := by
  exact exists_reaches (fun t => t.collElgEvents[1]? = none ∧ missingKeyAt 1 ∈ t.store.inelgMissing) (by decide +kernel)
    fun t _ ended => ⟨by decide, ended⟩

def scannedLate : List StoreStep :=
  emptyBlock ++ missingBlock false ++ [.startElgProc, .scanColl missingColl, .elgStep, .elgStep, .elgStep]

theorem scannedLate_converted :
    ∃ t, Reaches (Threads.step (plainConf fun n => if n = 1 then [missingColl] else []))
        (ScansInTime (plainConf fun n => if n = 1 then [missingColl] else [])) (.opened .empty ∅) scannedLate t ∧
      recordings t.store (missingKeyAt 1, 0) = 1 ∧ missingKeyAt 1 ∉ t.store.inelgMissing := by
  refine exists_reaches (fun t => t.collElgEvents[1]? = none ∧ recordings t.store (missingKeyAt 1, 0) = 1) (by decide +kernel)
    fun t run ⟨processed, recorded⟩ => ?_
  exact ⟨recorded, eligible_converted run (show 1 ∈ validatedBlocks scannedLate by decide) (by decide) (by decide) processed⟩

end Fabric.Proof.PvtdataStore
