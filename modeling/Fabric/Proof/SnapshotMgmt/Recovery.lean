import Fabric.Proof.SnapshotMgmt.Synchronisation

/-! # Requests across crashes -/

namespace Fabric.Proof.SnapshotMgmt

open Lib Fabric.Ledger.SnapshotMgmt Fabric.Ledger.SnapshotMgmt.System List SnapshotRequestBookkeeper EventLoop Finset

variable {s t : System} {l : Label} {n : Nat}

def Serving (n : Nat) (s : System) : Prop :=
  (∃ g ∈ s.generations, g.requestedBlockNum.getD s.committed = n) ∨ .generation n ∈ s.senders

theorem Inv.last_of_inProgress (inv : Inv s) (active : s.loop.snapshotInProgress = true) : s.loop.lastCommittedBlockNumber = s.committed := by
  apply inv.phases.last
  intro n ending
  have notInProgress := inv.phases.inProcess (inv.phases.sendingDone n ending).1
  simp [active] at notInProgress

theorem Inv.inProgress_of_running (inv : Inv s) {g : Generation} (mem : g ∈ s.generations) : s.loop.snapshotInProgress = true := by
  have count := inv.phases.generation
  have := length_pos_of_mem mem
  cases off : s.loop.snapshotInProgress with
  | true => rfl
  | false =>
    rw [off, Bool.toNat_false] at count
    omega

theorem Inv.serving_iff (inv : Inv s) : Serving n s ↔ s.loop.snapshotInProgress = true ∧ s.loop.lastCommittedBlockNumber = n := by
  constructor
  · intro serving
    rcases serving with ⟨g, mem, isNumber⟩ | completed
    · have active := inv.inProgress_of_running mem
      have last := inv.last_of_inProgress active
      exact ⟨active, by rw [← isNumber, ← last, inv.phases.running g mem]⟩
    · exact ⟨inv.inProgress_of_completed completed, (inv.phases.completed n completed).symm⟩
  · intro ⟨active, last⟩
    rcases inv.generation_of_inProgress active with running | ⟨m, completed⟩
    · obtain ⟨g, mem⟩ := exists_mem_of_ne_nil _ running
      have isNumber := inv.phases.running g mem
      rw [inv.last_of_inProgress active] at isNumber last
      exact .inl ⟨g, mem, isNumber.trans last⟩
    · obtain rfl := (inv.phases.completed m completed).trans last
      exact .inr completed

theorem processCommitStart_bookkeeper (loop : EventLoop) :
    loop.processCommitStart.loop.snapshotRequestBookkeeper = loop.snapshotRequestBookkeeper := by
  rw [processCommitStart]
  split
  · rfl
  · rfl

theorem processCommitDone_bookkeeper (loop : EventLoop) (n : Nat) :
    (loop.processCommitDone n).loop.snapshotRequestBookkeeper = loop.snapshotRequestBookkeeper := by
  rw [processCommitDone]
  split
  · rfl
  · rfl

variable (committed : Nat) (snapshots requests : Finset Nat)

theorem initSnapshotMgr_requests (history : List (Entry × Nat)) :
    (initSnapshotMgr committed snapshots requests history).loop.snapshotRequestBookkeeper.requests = requests := by
  rw [initSnapshotMgr]
  split
  · simp [processEvent, processCommitDone_bookkeeper, newSnapshotRequestBookkeeper]
  · rfl

theorem initSnapshotMgr_committer (history : List (Entry × Nat)) :
    (initSnapshotMgr committed snapshots requests history).committer = .idle := by
  rw [initSnapshotMgr]
  split
  · rfl
  · rfl

theorem initSnapshotMgr_committed (history : List (Entry × Nat)) :
    (initSnapshotMgr committed snapshots requests history).committed = committed := by
  rw [initSnapshotMgr]
  split
  · rfl
  · rfl

theorem initSnapshotMgr_history (history : List (Entry × Nat)) : ∃ (entries : List Entry) (c : Nat),
      (initSnapshotMgr committed snapshots requests history).history = history ++ entries.map (·, c) := by
  rw [initSnapshotMgr]
  split
  · exact ⟨_, _, rfl⟩
  · exact ⟨[], 0, by simp⟩

theorem times_mono (taken : s.step l = some t) (e : Entry) : times e s ≤ times e t := by
  have grows : ∃ (entries : List Entry) (c : Nat), t.history = s.history ++ entries.map (·, c) := by
    cases moves_of_step taken with
    | receive idle queue received =>
      cases received with
      | _ => exact ⟨_, _, rfl⟩
    | crash stored => exact initSnapshotMgr_history _ _ _ _
    | _ => exact ⟨[], 0, by simp [startCall]⟩
  obtain ⟨entries, c, grows⟩ := grows
  rw [times_append grows]
  exact Nat.le_add_right _ _

variable {loop : EventLoop}

theorem kept_requestAdd (snapshots : Finset Nat) (m : Nat) (mem : n ∈ loop.snapshotRequestBookkeeper.requests) :
    n ∈ (loop.processRequestAdd snapshots m).loop.snapshotRequestBookkeeper.requests := by
  rw [processRequestAdd]
  generalize (if m = 0 then loop.leastAcceptableBlockNum else m) = requestedBlockNum
  simp only [add]
  by_cases present : requestedBlockNum ∈ loop.snapshotRequestBookkeeper.requests
  · rw [if_pos present]
    split
    · exact mem
    · split
      · exact mem
      · exact mem
  · rw [if_neg present]
    split
    · exact mem
    · split
      · exact mem
      · simp only
        split
        · exact mem_insert_of_mem mem
        · exact mem_insert_of_mem mem

theorem kept_requestCancel (m : Nat) (mem : n ∈ loop.snapshotRequestBookkeeper.requests) :
    n ∈ (loop.processRequestCancel m).loop.snapshotRequestBookkeeper.requests ∨ .cancelled n ∈ (loop.processRequestCancel m).entries := by
  rw [processRequestCancel]
  split
  · exact .inl mem
  · by_cases present : m ∈ loop.snapshotRequestBookkeeper.requests
    · rw [delete, if_neg (not_not.mpr present)]
      by_cases same : n = m
      · exact .inr (by simp [same])
      · exact .inl (mem_erase.mpr ⟨same, mem⟩)
    · rw [delete, if_pos present]
      exact .inl mem

theorem kept_snapshotDone {m : Nat} (other : n ≠ m) (mem : n ∈ loop.snapshotRequestBookkeeper.requests) :
    n ∈ (loop.processSnapshotDone m).loop.snapshotRequestBookkeeper.requests := by
  rw [processSnapshotDone, delete]
  by_cases present : m ∈ loop.snapshotRequestBookkeeper.requests
  · simp only [not_not.mpr present, if_false]
    split
    · exact mem_erase.mpr ⟨other, mem⟩
    · exact mem_erase.mpr ⟨other, mem⟩
  · simp only [present, not_false_eq_true, if_true]
    split
    · exact mem
    · exact mem

theorem request_kept (taken : s.step l = some t) (mem : n ∈ s.loop.snapshotRequestBookkeeper.requests) :
    n ∈ t.loop.snapshotRequestBookkeeper.requests ∨ Serving n s ∨ times (.cancelled n) s < times (.cancelled n) t := by
  cases moves_of_step taken with
  | receive idle queue received =>
    cases received with
    | start starting => exact .inl (processCommitStart_bookkeeper s.loop ▸ mem)
    | done ending => exact .inl (processCommitDone_bookkeeper s.loop _ ▸ mem)
    | generation m =>
      have completed : .generation m ∈ s.senders := queue ▸ mem_cons_self
      by_cases same : m = n
      · exact .inr (.inl (.inr (same ▸ completed)))
      · exact .inl (kept_snapshotDone (Ne.symm same) mem)
    | @call i request found =>
      cases request with
      | submit m => exact .inl (kept_requestAdd _ _ mem)
      | cancel m =>
        rcases @kept_requestCancel n s.loop m.toNat mem with stays | cancelled
        · exact .inl stays
        · refine .inr (.inr ?_)
          exact (Nat.lt_add_of_pos_right (count_pos_iff.mpr cancelled)).trans_eq (Eq.symm (times_append rfl _))
  | crash stored =>
    left
    rw [crash, initSnapshotMgr_requests]
    exact mem
  | _ => exact .inl mem

theorem Inv.serving_or_finishing (inv : Inv s) (mem : n ∈ s.loop.snapshotRequestBookkeeper.requests)
    (committed : n ≤ s.committed) : Serving n s ∨ s.committer = .sendingDone n := by
  rcases inv.outstanding_cases n with none | ⟨_, toCome | ending⟩
  · left
    rw [inv.serving_iff]
    by_contra notServed
    rw [outstanding, if_pos ⟨mem, fun served => notServed ⟨served.1, served.2.symm⟩⟩] at none
    cases none
  · omega
  · exact .inr ending

section

variable {σ : Nat → System} {taken : Nat → Option Label} (exec : Execution step Label.Survivable σ taken)
  (holds : ∀ i, Inv (σ i))

include exec holds

theorem serving_of_finishing (fair : WeaklyFair step σ taken Label.isLoop) {k c : Nat}
    (ending : (σ k).committer = .sendingDone n) (mem : n ∈ (σ k).loop.snapshotRequestBookkeeper.requests)
    (before : c ≤ times (.cancelled n) (σ k)) : ∃ j ≥ k, Serving n (σ j) ∨ c < times (.cancelled n) (σ j) := by
  apply leadsTo_received exec fair holds .committer
    (fun s => c < times (.cancelled n) s ∨ c ≤ times (.cancelled n) s ∧ s.committer = .sendingDone n ∧
      n ∈ s.loop.snapshotRequestBookkeeper.requests)
    (fun s => Serving n s ∨ c < times (.cancelled n) s)
  · intro s l t inv held _ meets notReceive isStep
    have mono := times_mono isStep (.cancelled n)
    rcases held with cancelled | ⟨before, ending, mem⟩
    · exact .inl (.inr (by omega))
    · by_cases isCrash : Label.isCrash l
      · left
        left
        have inv' := inv.step meets isStep
        cases moves_of_step isStep with
        | crash stored =>
          have requested : n ∈ (s.crash stored).loop.snapshotRequestBookkeeper.requests := by
            rw [crash, initSnapshotMgr_requests]
            exact mem
          have committed : n ≤ (s.crash stored).committed := by
            rw [crash, initSnapshotMgr_committed, ending]
            exact (inv.phases.sendingDone n ending).2.1.ge
          rcases inv'.serving_or_finishing requested committed with serving | ending'
          · exact serving
          · rw [crash, initSnapshotMgr_committer] at ending'
            cases ending'
        | _ => exact absurd isCrash id
      · right
        refine ⟨.inr ⟨by omega, ?_, ?_⟩, isCrash⟩
        · exact committer_stays rfl ending (fun isReceive => absurd isReceive notReceive) isStep isCrash
        · rw [loop_of_step isStep notReceive isCrash]
          exact mem
  · intro s t y senders inv held _ queue other isStep
    have mono := times_mono isStep (.cancelled n)
    rcases held with cancelled | ⟨before, ending, mem⟩
    · exact .inl (by omega)
    · rcases request_kept isStep mem with stays | serving | cancelled
      · refine .inr ⟨by omega, committer_stays rfl ending ?_ isStep id, stays⟩
        intro _ first
        simp only [queue, head?_cons, Option.some.injEq] at first
        exact other first
      · have active := (inv.serving_iff.mp serving).1
        rw [inv.phases.inProcess (inv.phases.sendingDone n ending).1] at active
        cases active
      · exact .inl (by omega)
  · intro s t senders inv held queue isStep
    have mono := times_mono isStep (.cancelled n)
    rcases held with cancelled | ⟨_, ending, mem⟩
    · exact .inr (by omega)
    · left
      have inv' := inv.step (l := .receive) trivial isStep
      cases moves_of_step isStep with
      | receive idle queue' received =>
        obtain ⟨rfl, _⟩ := List.cons.inj (queue.symm.trans queue')
        cases received with
        | start starting => simp [starting] at ending
        | @done m ending' =>
          obtain rfl : n = m := Committer.sendingDone.inj (ending.symm.trans ending')
          have committed := (inv.phases.sendingDone n ending).2.1.ge
          rcases inv'.serving_or_finishing (processCommitDone_bookkeeper s.loop n ▸ mem) committed with serving | still
          · exact serving
          · cases still
  · exact ((holds k).channels.committer.mpr (by rw [ending]; rfl))
  · exact .inr ⟨before, ending, mem⟩

theorem request_served (fair : WeaklyFair step σ taken Label.isLoop) {k k' : Nat}
    (mem : n ∈ (σ k).loop.snapshotRequestBookkeeper.requests) (later : k ≤ k') (committed : n ≤ (σ k').committed) :
    ∃ j ≥ k, Serving n (σ j) ∨ times (.cancelled n) (σ k) < times (.cancelled n) (σ j) := by
  have kept : (∃ j ≥ k, Serving n (σ j) ∨ times (.cancelled n) (σ k) < times (.cancelled n) (σ j)) ∨
      n ∈ (σ k').loop.snapshotRequestBookkeeper.requests ∧ times (.cancelled n) (σ k) ≤ times (.cancelled n) (σ k') := by
    clear committed
    induction k', later using Nat.le_induction with
    | base => exact .inr ⟨mem, le_rfl⟩
    | succ i later ih =>
      rcases ih with done | ⟨still, before⟩
      · exact .inl done
      · cases moves : taken i with
        | none =>
          rw [exec.rest i moves]
          exact .inr ⟨still, before⟩
        | some l =>
          obtain ⟨_, isStep⟩ := exec.move i l moves
          rcases request_kept isStep still with stays | serving | cancelled
          · exact .inr ⟨stays, before.trans (times_mono isStep _)⟩
          · exact .inl ⟨i, later, .inl serving⟩
          · exact .inl ⟨i + 1, by omega, .inr (by omega)⟩
  rcases kept with done | ⟨still, before⟩
  · exact done
  · rcases (holds k').serving_or_finishing still committed with serving | ending
    · exact ⟨k', later, .inl serving⟩
    · obtain ⟨j, later', outcome⟩ := serving_of_finishing exec holds fair ending still before
      exact ⟨j, later.trans later', outcome⟩

end

theorem Serving.step (serving : Serving n s) (inv : Inv s) (meets : Label.CrashFree s l) (isStep : s.step l = some t)
    (notFirst : l = .receive → ∀ m senders, s.senders ≠ .generation m :: senders) : Serving n t := by
  have inv' := inv.step meets.2 isStep
  rw [inv'.serving_iff]
  obtain ⟨active, last⟩ := inv.serving_iff.mp serving
  by_cases isReceive : l = .receive
  · obtain rfl := isReceive
    cases moves_of_step isStep with
    | receive idle queue received =>
      cases received with
      | start starting =>
        simp only [processEvent, processCommitStart, active, if_true]
        exact ⟨rfl, last⟩
      | @done m ending =>
        have notInProgress := inv.phases.inProcess (inv.phases.sendingDone m ending).1
        simp [active] at notInProgress
      | generation m => exact absurd queue (notFirst rfl m _)
      | @call i request found =>
        have answers := inv.answers_request request
        refine ⟨?_, answers.last.trans last⟩
        rcases answers.generation with ⟨same, _, _⟩ | ⟨_, _, after, _⟩
        · exact same.trans active
        · exact after
  · rw [loop_of_step isStep isReceive meets.1]
    exact ⟨active, last⟩

theorem request_removed {σ : Nat → System} {taken : Nat → Option Label}
    (exec : Execution step Label.CrashFree σ taken) (holds : ∀ i, Inv (σ i))
    (fair : WeaklyFair step σ taken Label.isLoop) (fairCompletion : WeaklyFair step σ taken Label.isCompletion)
    {k : Nat} (serving : Serving n (σ k)) : ∃ j ≥ k, n ∉ (σ j).loop.snapshotRequestBookkeeper.requests := by
  have fromCompleted : ∀ i m, Serving n (σ i) → .generation m ∈ (σ i).senders →
      ∃ j ≥ i, n ∉ (σ j).loop.snapshotRequestBookkeeper.requests := by
    intro i m serving completed
    apply leadsTo_received exec fair holds (.generation m) (Serving n)
      (fun s => n ∉ s.loop.snapshotRequestBookkeeper.requests) _ _ _ i completed serving
    · intro s l t inv serving _ meets notReceive isStep
      exact .inr ⟨serving.step inv meets isStep fun isReceive => absurd isReceive notReceive, meets.1⟩
    · intro s t y senders inv serving mem queue other isStep
      exact @Serving.step s t .receive n serving inv ⟨id, trivial⟩ isStep fun _ => inv.notFirst mem queue other
    · intro s t senders inv serving queue isStep
      obtain ⟨active, last⟩ := inv.serving_iff.mp serving
      obtain rfl : m = s.loop.lastCommittedBlockNumber := inv.phases.completed m (queue ▸ mem_cons_self)
      cases moves_of_step isStep with
      | receive idle queue' received =>
        obtain ⟨rfl, _⟩ := List.cons.inj (queue.symm.trans queue')
        cases received
        obtain ⟨p, isProcessed, _, _, off, last', pending, _⟩ := processSnapshotDone_spec inv.pending active
        intro mem
        have isOn := (pending.later n (isProcessed ▸ mem)).2 (last'.trans last).symm
        simp [off] at isOn
  rcases (holds k).generation_of_inProgress ((holds k).serving_iff.mp serving).1 with running | ⟨m, completed⟩
  · obtain ⟨i, later, serving, m, completed⟩ := generation_completes exec holds fairCompletion (Serving n)
      (fun s l t inv serving notFirst meets isStep => serving.step inv meets isStep fun _ => notFirst) serving running
    obtain ⟨j, later', removed⟩ := fromCompleted i m serving completed
    exact ⟨j, later.trans later', removed⟩
  · exact fromCompleted k m serving completed

/-- A new ledger keeps the requests that it accepts until their blocks are committed, whatever crashes there are
outside of the time between placing a snapshot and removing its request. -/
theorem requests_survive {committed : Nat} {snapshots : Finset Nat} (below : committed < defaultSmallestBlockNumber) :
    (∀ ls s, Reaches System.step Label.Survivable (System.initSnapshotMgr committed snapshots ∅ []) ls s →
      ∀ n ∈ s.loop.snapshotRequestBookkeeper.requests, n ≤ s.committed → Serving n s ∨ s.committer = .sendingDone n) ∧
    ∀ σ taken, σ 0 = System.initSnapshotMgr committed snapshots ∅ [] → Execution System.step Label.Survivable σ taken →
      WeaklyFair System.step σ taken Label.isLoop →
      (∀ n k k', n ∈ (σ k).loop.snapshotRequestBookkeeper.requests → k ≤ k' → n ≤ (σ k').committed →
        ∃ j ≥ k, Serving n (σ j) ∨ times (.cancelled n) (σ k) < times (.cancelled n) (σ j)) ∧
      (WeaklyFair System.step σ taken Label.isCompletion → ∀ k, (∀ i l, taken (k + i) = some l → ¬ Label.isCrash l) →
        ∀ n, Serving n (σ k) → ∃ j ≥ k, n ∉ (σ j).loop.snapshotRequestBookkeeper.requests) := by
  have always : ∀ ls s, Reaches step Label.Survivable (initSnapshotMgr committed snapshots ∅ []) ls s → Inv s := by
    intro ls s run
    apply run.invariant (fun _ s => Inv s)
    · exact inv_initSnapshotMgr _ below (by simp) (by simp) (by simp)
    · intro _ s l t inv meets isStep
      exact inv.step meets isStep
  refine ⟨fun ls s run n mem isCommitted => (always ls s run).serving_or_finishing mem isCommitted, ?_⟩
  intro σ taken opened exec fair
  have holds : ∀ i, Inv (σ i) := by
    intro i
    obtain ⟨ls, run⟩ := exec.reaches i
    exact always ls _ (opened ▸ run)
  refine ⟨fun n k k' mem later isCommitted => request_served exec holds fair mem later isCommitted, ?_⟩
  intro fairCompletion k noCrash n serving
  obtain ⟨j, _, removed⟩ := @request_removed n _ _ (exec.drop k fun i l moves meets => ⟨noCrash i l moves, meets⟩)
    (fun i => holds (k + i)) (fair.drop k) (fairCompletion.drop k) 0 serving
  exact ⟨k + j, Nat.le_add_right k j, removed⟩

theorem crashedGeneration_served : ∃ σ taken, σ 0 = System.initSnapshotMgr 0 ∅ ∅ [] ∧
    Execution System.step Label.Survivable σ taken ∧ WeaklyFair System.step σ taken Label.isLoop ∧
    WeaklyFair System.step σ taken Label.isCompletion ∧ ∃ k, taken k = some (.crash false) ∧
    1 ∈ (σ (k + 1)).loop.snapshotRequestBookkeeper.requests ∧ (σ (k + 1)).committed = 1 ∧ 1 ∉ (σ (k + 1)).snapshots ∧
    (∃ j ≥ k + 1, Serving 1 (σ j) ∨ times (.cancelled 1) (σ (k + 1)) < times (.cancelled 1) (σ j)) ∧
    ∃ j ≥ k + 1, 1 ∉ (σ j).loop.snapshotRequestBookkeeper.requests := by
  obtain ⟨s, run, facts⟩ := @exists_of_checkRun _ _ step Label.Survivable (initSnapshotMgr 0 ∅ ∅ [])
    [.call (.submit 1), .receive, .respond 0, .commitLegacy 1, .receive, .proceed, .commitBlock true, .receive, .crash false] _
    (fun s : System => decide (1 ∈ s.loop.snapshotRequestBookkeeper.requests ∧ s.committed = 1 ∧ 1 ∉ s.snapshots ∧
      s.generations = [⟨none⟩] ∧ ((checkRun step Label.Survivable s [.complete 0 true, .receive]).any fun t =>
        decide (t.senders = [] ∧ t.sending = none ∧ t.generations = [])) = true))
    (by decide +kernel)
  obtain ⟨requested, committed, missing, running, goesOn⟩ := of_decide_eq_true facts
  obtain ⟨t, rest, quiet⟩ := exists_of_checkRun goesOn
  obtain ⟨noSenders, notSending, noGenerations⟩ := of_decide_eq_true quiet
  obtain ⟨σ, first, passes, ends, exec⟩ := exists_execution_of_reaches run rest
  obtain ⟨fairLoop, fairCompletion⟩ := weaklyFair_of_ends ends noSenders notSending noGenerations
  have survive := (@requests_survive 0 ∅ (by decide)).2 σ _ first exec fairLoop
  obtain ⟨served, removed⟩ := survive
  have passes : σ (8 + 1) = s := passes
  refine ⟨σ, _, first, exec, fairLoop, fairCompletion, 8, rfl, ?_⟩
  rw [passes]
  refine ⟨requested, committed, missing, passes ▸ served 1 9 9 (passes ▸ requested) le_rfl (passes ▸ committed.ge), ?_⟩
  apply removed fairCompletion 9
  · intro i l moves
    rw [getElem?_append_right (Nat.le_add_right 9 i)] at moves
    rcases mem_pair.mp (mem_of_getElem? moves) with rfl | rfl
    · exact id
    · exact id
  · rw [passes]
    exact .inl ⟨⟨none⟩, by simp [running], committed⟩

/-- The process crashes after the snapshot for block 1 is in its place.  The ledger then takes it for the smallest
request forever, and the accepted request for block 3 is not served. -/
theorem servedRequest_blocks : ∃ σ taken, σ 0 = System.initSnapshotMgr 0 ∅ ∅ [] ∧
    Execution System.step (fun _ _ => True) σ taken ∧ WeaklyFair System.step σ taken Label.isLoop ∧
    WeaklyFair System.step σ taken Label.isCompletion ∧ ∃ k, 3 ∈ (σ k).loop.snapshotRequestBookkeeper.requests ∧
    times (.accepted 3) (σ k) = 1 ∧ (σ k).committed = 3 ∧
    ∀ j ≥ k, ¬ Serving 3 (σ j) ∧ times (.cancelled 3) (σ j) = 0 ∧ times (.started 3) (σ j) = 0 := by
  obtain ⟨s, run, facts⟩ := @exists_of_checkRun _ _ step (fun _ _ => True) (initSnapshotMgr 0 ∅ ∅ [])
    [.call (.submit 1), .receive, .respond 0, .commitLegacy 1, .receive, .proceed, .commitBlock true, .receive,
      .complete 0 true, .crash false,
      .call (.submit 3), .receive, .respond 0, .commitLegacy 2, .receive, .proceed, .commitBlock true, .receive,
      .commitLegacy 3, .receive, .proceed, .commitBlock true, .receive] _
    (fun s : System => decide (3 ∈ s.loop.snapshotRequestBookkeeper.requests ∧ times (.accepted 3) s = 1 ∧ s.committed = 3 ∧
      times (.cancelled 3) s = 0 ∧ times (.started 3) s = 0 ∧ s.senders = [] ∧ s.sending = none ∧ s.generations = []))
    (by decide +kernel)
  obtain ⟨requested, accepted, committed, notCancelled, notStarted, noSenders, notSending, noGenerations⟩ :=
    of_decide_eq_true facts
  obtain ⟨σ, first, _, ends, exec⟩ := exists_execution_of_reaches run .start
  obtain ⟨fairLoop, fairCompletion⟩ := weaklyFair_of_ends ends noSenders notSending noGenerations
  refine ⟨σ, _, first, exec, fairLoop, fairCompletion, 23, ?_⟩
  rw [ends 23 (by decide)]
  refine ⟨requested, accepted, committed, ?_⟩
  intro j later
  rw [ends j later]
  exact ⟨by simp [Serving, noSenders, noGenerations], notCancelled, notStarted⟩

end Fabric.Proof.SnapshotMgmt
