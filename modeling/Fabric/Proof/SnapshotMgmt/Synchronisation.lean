import Fabric.Proof.SnapshotMgmt.Progress

/-! # Commits, snapshots and requests are synchronised -/

namespace Fabric.Proof.SnapshotMgmt

open Lib Fabric.Ledger.SnapshotMgmt Fabric.Ledger.SnapshotMgmt.System List

variable {s t : System} {l : Label} {σ : Nat → System} {taken : Nat → Option Label}

def times (e : Entry) (s : System) : Nat := (s.history.map Prod.fst).count e

structure Accounted (s : System) : Prop where
  balance : ∀ m, times (.accepted m) s = times (.cancelled m) s + times (.started m) s + outstanding s.loop m
  atBlock : ∀ n c, (.started n, c) ∈ s.history → c = n

theorem balanced_processCommitStart (loop : EventLoop) : Balanced loop loop.processCommitStart := by
  intro m
  rw [EventLoop.processCommitStart]
  split
  · simp [outstanding]
  · simp [outstanding]

theorem Inv.balanced (inv : Inv s) (taken : s.step .receive = some t) :
    ∃ p, Balanced s.loop p ∧ t.loop = p.loop ∧ t.history = s.history ++ p.entries.map (·, s.committed) ∧
      ∀ n, .started n ∈ p.entries → n = s.committed := by
  cases moves_of_step taken with
  | receive idle queue received =>
    cases received with
    | start starting =>
      refine ⟨s.loop.processCommitStart, balanced_processCommitStart _, rfl, rfl, ?_⟩
      intro n
      rw [EventLoop.processCommitStart]
      split
      · simp
      · simp
    | @done n finishing =>
      obtain ⟨inProcess, committed, next⟩ := inv.phases.sendingDone n finishing
      have notInProgress := inv.phases.inProcess inProcess
      have later : ∀ m ∈ s.loop.snapshotRequestBookkeeper.requests, n ≤ m := inv.later_of_sendingDone finishing
      obtain ⟨p, isProcessed, _, _, _, _, balanced, generation⟩ :=
        processCommitDone_spec inv.pending.smallest inv.pending.fits later notInProgress (committed ▸ inv.phases.fits)
      refine ⟨p, balanced, congrArg Processed.loop isProcessed, ?_, ?_⟩
      · exact congrArg (fun p => s.history ++ p.entries.map (·, s.committed)) isProcessed
      · rcases generation with ⟨_, _, none⟩ | ⟨_, _, started⟩
        · simp [none]
        · simp [started, committed]
    | generation n =>
      obtain rfl : n = s.loop.lastCommittedBlockNumber := inv.phases.completed n (queue ▸ mem_cons_self)
      have inProgress : s.loop.snapshotInProgress = true := inv.inProgress_of_completed (queue ▸ mem_cons_self)
      obtain ⟨p, isProcessed, _, none, _, _, _, balanced, _⟩ := processSnapshotDone_spec inv.pending inProgress
      refine ⟨p, balanced, congrArg Processed.loop isProcessed, ?_, by simp [none]⟩
      exact congrArg (fun p => s.history ++ p.entries.map (·, s.committed)) isProcessed
    | @call i request found =>
      have answers := inv.answers_request request
      refine ⟨_, answers.balanced, rfl, rfl, ?_⟩
      intro n isStarted
      rcases answers.generation with ⟨_, _, none⟩ | ⟨isIdle, _, _, _, atLast⟩
      · exact absurd isStarted (none n)
      · rw [atLast n isStarted]
        apply inv.phases.last
        intro m finishing
        have inProcess := (inv.phases.sendingDone m finishing).1
        simp [isIdle] at inProcess

theorem history_of_step (taken : s.step l = some t) (notReceive : l ≠ .receive) (notCrash : ¬ Label.isCrash l) : t.history = s.history := by
  cases moves_of_step taken with
  | receive idle queue received => exact absurd rfl notReceive
  | crash stored => exact absurd trivial notCrash
  | _ => rfl

theorem times_append {entries : List Entry} {c : Nat} (grows : t.history = s.history ++ entries.map (·, c)) (e : Entry) :
    times e t = times e s + entries.count e := by
  rw [times, grows, map_append, count_append, map_map]
  simp [times, Function.comp_def]

theorem Accounted.append {p : Processed} (accounted : Accounted s) (balanced : Balanced s.loop p) (loop : t.loop = p.loop)
    (grows : t.history = s.history ++ p.entries.map (·, s.committed)) (atBlock : ∀ n, .started n ∈ p.entries → n = s.committed) :
    Accounted t where
  balance := by
    intro m
    have := balanced m
    have := accounted.balance m
    rw [times_append grows, times_append grows, times_append grows, loop]
    omega
  atBlock := by
    intro n c mem
    rw [grows, mem_append] at mem
    rcases mem with old | new
    · exact accounted.atBlock n c old
    · obtain ⟨e, isEntry, same⟩ := mem_map.mp new
      obtain ⟨rfl, rfl⟩ := Prod.mk.inj same
      exact (atBlock n isEntry).symm

theorem Accounted.step (accounted : Accounted s) (inv : Inv s) (taken : s.step l = some t) (notCrash : ¬ Label.isCrash l) : Accounted t := by
  by_cases isReceive : l = .receive
  · obtain rfl := isReceive
    obtain ⟨p, balanced, loop, grows, atBlock⟩ := inv.balanced taken
    exact accounted.append balanced loop grows atBlock
  · have loop := loop_of_step taken isReceive notCrash
    have history := history_of_step taken isReceive notCrash
    exact
      { balance := by
          intro m
          simp only [times, history, loop]
          exact accounted.balance m
        atBlock := history ▸ accounted.atBlock }

def submitted (committed : Nat) (reqs : Finset Nat) : List (Entry × Nat) :=
  (reqs.sort (· ≤ ·)).map fun n => (.accepted n, committed)

section

variable {committed : Nat} {snapshots reqs : Finset Nat}

theorem accounted_submitted : Accounted
    ⟨committed, snapshots, ⟨.idle, false, committed, newSnapshotRequestBookkeeper reqs⟩, none, [], .idle, [], [],
      submitted committed reqs, []⟩ where
  balance := by
    intro m
    have accepted : (List.map Entry.accepted (reqs.sort (· ≤ ·))).count (.accepted m) = if m ∈ reqs then 1 else 0 := by
      rw [count_map_of_injective _ _ (fun _ _ => Entry.accepted.inj), (reqs.sort_nodup _).count]
      simp
    have cancelled : (List.map Entry.accepted (reqs.sort (· ≤ ·))).count (.cancelled m) = 0 :=
      count_eq_zero.mpr (by simp)
    have started : (List.map Entry.accepted (reqs.sort (· ≤ ·))).count (.started m) = 0 := count_eq_zero.mpr (by simp)
    simp only [times, submitted, map_map, Function.comp_def, outstanding, newSnapshotRequestBookkeeper]
    rw [accepted, cancelled, started]
    simp
  atBlock := by simp [submitted]

theorem accounted_initSnapshotMgr (below : committed < defaultSmallestBlockNumber)
    (fits : ∀ m ∈ reqs, m ≤ defaultSmallestBlockNumber) (later : ∀ m ∈ reqs, committed ≤ m) :
    Accounted (initSnapshotMgr committed snapshots reqs (submitted committed reqs)) := by
  rw [initSnapshotMgr]
  split
  · obtain ⟨p, isProcessed, _, _, _, _, balanced, generation⟩ :=
      @processCommitDone_spec ⟨.idle, false, committed, newSnapshotRequestBookkeeper reqs⟩ committed rfl fits later rfl below
    simp only [EventLoop.processEvent, isProcessed]
    apply (@accounted_submitted committed snapshots reqs).append balanced rfl rfl
    rcases generation with ⟨_, _, none⟩ | ⟨_, _, started⟩
    · simp [none]
    · simp [started]
  · exact accounted_submitted

end

structure Synchronised (s : System) : Prop where
  exclusive : s.generations ≠ [] → ∀ n, s.committer ≠ .committing n
  single : s.generations.length ≤ 1
  running : ∀ g ∈ s.generations, g.requestedBlockNum.getD s.committed = s.committed
  answered : ∀ i request r, s.calls[i]? = some ⟨request, .returned r⟩ → (i, r) ∈ s.answers
  once : (s.answers.map Prod.fst).Nodup
  started : ∀ n, times (.accepted n) s = times (.cancelled n) s + times (.started n) s ∨
    times (.accepted n) s = times (.cancelled n) s + times (.started n) s + 1 ∧
      (s.committed < n ∨ s.committer = .sendingDone n)
  atBlock : ∀ n c, (.started n, c) ∈ s.history → c = n

theorem Inv.outstanding_cases (inv : Inv s) (m : Nat) :
    outstanding s.loop m = 0 ∨ outstanding s.loop m = 1 ∧ (s.committed < m ∨ s.committer = .sendingDone m) := by
  rw [outstanding]
  split
  · rename_i isOutstanding
    refine .inr ⟨rfl, ?_⟩
    obtain ⟨least, ifLast⟩ := inv.pending.later m isOutstanding.1
    have notLast : m ≠ s.loop.lastCommittedBlockNumber := fun same => isOutstanding.2 ⟨ifLast same, same⟩
    by_cases finishing : ∃ n, s.committer = .sendingDone n
    · obtain ⟨n, finishing⟩ := finishing
      obtain ⟨_, committed, next⟩ := inv.phases.sendingDone n finishing
      rcases Nat.lt_or_ge n m with less | notLess
      · exact .inl (committed ▸ less)
      · obtain rfl : n = m := by omega
        exact .inr finishing
    · have last := inv.phases.last (not_exists.mp finishing)
      exact .inl (by omega)
  · exact .inl rfl

theorem Inv.synchronised (inv : Inv s) (accounted : Accounted s) : Synchronised s where
  exclusive := by
    intro running n committing
    have count := inv.phases.generation
    rw [inv.phases.inProcess (inv.phases.committing n committing), Bool.toNat_false] at count
    exact running (eq_nil_of_length_eq_zero (by omega))
  single := by
    have count := inv.phases.generation
    have := s.loop.snapshotInProgress.toNat_le
    omega
  running := by
    intro g mem
    have count := inv.phases.generation
    have positive := length_pos_of_mem mem
    have last : s.loop.lastCommittedBlockNumber = s.committed := by
      apply inv.phases.last
      intro n finishing
      rw [inv.phases.inProcess (inv.phases.sendingDone n finishing).1, Bool.toNat_false] at count
      omega
    rw [← last]
    exact inv.phases.running g mem
  answered := inv.channels.returned
  once := inv.channels.once
  started := by
    intro n
    have balance := accounted.balance n
    rcases inv.outstanding_cases n with none | ⟨one, toCome⟩
    · exact .inl (by omega)
    · exact .inr ⟨by omega, toCome⟩
  atBlock := accounted.atBlock

theorem step_of_quiet (noSenders : s.senders = []) (notSending : s.sending = none) (isLoop : Label.isLoop l) : s.step l = none := by
  cases l with
  | receive => simp [step, receive, noSenders, notSending]
  | proceed => simp [step, proceed, notSending]
  | respond i => simp [step, respond, notSending]
  | _ => exact isLoop.elim

theorem step_of_noGenerations (noGenerations : s.generations = []) (isCompletion : Label.isCompletion l) : s.step l = none := by
  cases l with
  | complete i placed => simp [step, completeGeneration, noGenerations]
  | _ => exact isCompletion.elim

theorem started_of_committed (exec : Execution step Label.CrashFree σ taken)
    (fair : WeaklyFair step σ taken Label.isLoop) (holds : ∀ i, Inv (σ i)) {k n : Nat}
    (committed : n ≤ (σ k).committed) : ∃ j ≥ k, outstanding (σ j).loop n = 0 := by
  rcases (holds k).outstanding_cases n with none | ⟨_, toCome | finishing⟩
  · exact ⟨k, le_rfl, none⟩
  · omega
  · obtain ⟨j, later, _, last⟩ := commitDone_received exec fair holds finishing
    refine ⟨j, later, if_neg ?_⟩
    intro ⟨mem, notServed⟩
    exact notServed ⟨((holds j).pending.later n mem).2 last.symm, last.symm⟩

theorem generation_received (exec : Execution step Label.CrashFree σ taken)
    (fair : WeaklyFair step σ taken Label.isLoop) (holds : ∀ i, Inv (σ i)) {k m : Nat}
    (completed : .generation m ∈ (σ k).senders) : ∃ j ≥ k, .generation m ∉ (σ j).senders := by
  apply leadsTo_received exec fair holds (.generation m) (fun _ => True) (fun s => .generation m ∉ s.senders) _ _ _ k
    completed trivial
  · intro s l t _ _ _ meets _ _
    exact .inr ⟨trivial, meets.1⟩
  · intro s t y senders _ _ _ _ _ _
    trivial
  · intro s t senders inv _ queue isStep
    have nodup := inv.channels.nodup
    rw [queue, nodup_cons] at nodup
    cases moves_of_step isStep with
    | receive idle queue' received =>
      obtain ⟨rfl, rfl⟩ := List.cons.inj (queue.symm.trans queue')
      exact nodup.1

theorem snapshotMgmt_synchronised {committed : Nat} {snapshots reqs : Finset Nat}
    (below : committed < defaultSmallestBlockNumber) (fits : ∀ m ∈ reqs, m ≤ defaultSmallestBlockNumber)
    (later : ∀ m ∈ reqs, committed ≤ m) (missing : committed ∈ reqs → committed ∉ snapshots) :
    (∀ ls s, Reaches System.step Label.CrashFree
        (System.initSnapshotMgr committed snapshots reqs (submitted committed reqs)) ls s → Synchronised s) ∧
    ∀ σ taken, σ 0 = System.initSnapshotMgr committed snapshots reqs (submitted committed reqs) →
      Execution System.step Label.CrashFree σ taken → WeaklyFair System.step σ taken Label.isLoop →
      WeaklyFair System.step σ taken Label.isCompletion → ∀ k,
        (∀ (i : Nat) (call : Call), (σ k).calls[i]? = some call →
          ∃ j ≥ k, ∃ r, (σ j).calls[i]? = some ⟨call.request, .returned r⟩) ∧
        (∀ n, (σ k).committer = .sendingStart n ∨ (σ k).committer = .waiting n → ∃ j ≥ k, (σ j).committer = .committing n) ∧
        (∀ n, (σ k).committer = .sendingDone n → ∃ j ≥ k, (σ j).committer = .idle) ∧
        (∀ n, .generation n ∈ (σ k).senders → ∃ j ≥ k, .generation n ∉ (σ j).senders) ∧
        ∀ n, n ≤ (σ k).committed → ∃ j ≥ k,
          times (.accepted n) (σ j) = times (.cancelled n) (σ j) + times (.started n) (σ j) := by
  have always : ∀ ls s, Reaches step Label.CrashFree
      (initSnapshotMgr committed snapshots reqs (submitted committed reqs)) ls s → Inv s ∧ Accounted s := by
    intro ls s run
    apply run.invariant (fun _ s => Inv s ∧ Accounted s)
    · exact ⟨inv_initSnapshotMgr _ below fits later missing, accounted_initSnapshotMgr below fits later⟩
    · intro _ s l t ⟨inv, accounted⟩ meets isStep
      exact ⟨inv.step meets.2 isStep, accounted.step inv isStep meets.1⟩
  refine ⟨fun ls s run => (always ls s run).1.synchronised (always ls s run).2, ?_⟩
  intro σ taken opened exec fair fairCompletion k
  have reached : ∀ i, Inv (σ i) ∧ Accounted (σ i) := by
    intro i
    obtain ⟨ls, run⟩ := exec.reaches i
    exact always ls _ (opened ▸ run)
  have holds : ∀ i, Inv (σ i) := fun i => (reached i).1
  refine ⟨fun i call found => call_returns exec fair holds found, ?_, ?_, ?_, ?_⟩
  · intro n before
    rcases before with starting | waiting
    · obtain ⟨j, atLeast, waiting⟩ := commitStart_received exec fair holds starting
      obtain ⟨j', atLeast', committing⟩ := commit_proceeds exec fair holds fairCompletion waiting
      exact ⟨j', atLeast.trans atLeast', committing⟩
    · exact commit_proceeds exec fair holds fairCompletion waiting
  · intro n finishing
    obtain ⟨j, atLeast, idle, _⟩ := commitDone_received exec fair holds finishing
    exact ⟨j, atLeast, idle⟩
  · intro n completed
    exact generation_received exec fair holds completed
  · intro n isCommitted
    obtain ⟨j, atLeast, none⟩ := started_of_committed exec fair holds isCommitted
    have balance := (reached j).2.balance n
    exact ⟨j, atLeast, by omega⟩

theorem weaklyFair_of_ends {n : Nat} {t : System} (ends : ∀ i ≥ n, σ i = t) (noSenders : t.senders = [])
    (notSending : t.sending = none) (noGenerations : t.generations = []) :
    WeaklyFair step σ taken Label.isLoop ∧ WeaklyFair step σ taken Label.isCompletion := by
  constructor
  · exact weaklyFair_of_stays ends fun _ isLoop => step_of_quiet noSenders notSending isLoop
  · exact weaklyFair_of_stays ends fun _ isCompletion => step_of_noGenerations noGenerations isCompletion

theorem oneRequest_synchronised : ∃ σ taken, σ 0 = System.initSnapshotMgr 0 ∅ ∅ (submitted 0 ∅) ∧
    Execution System.step Label.CrashFree σ taken ∧ WeaklyFair System.step σ taken Label.isLoop ∧
    WeaklyFair System.step σ taken Label.isCompletion ∧
    ∃ k, (σ k).committed = 1 ∧ 1 ∈ (σ k).snapshots ∧ times (.started 1) (σ k) = 1 ∧ Synchronised (σ k) ∧
      (∃ j ≥ k, ∃ r, (σ j).calls[0]? = some ⟨.submit 1, .returned r⟩) ∧
      ∃ j ≥ k, times (.accepted 1) (σ j) = times (.cancelled 1) (σ j) + times (.started 1) (σ j) := by
  obtain ⟨s, run, facts⟩ := @exists_of_checkRun _ _ step Label.CrashFree (initSnapshotMgr 0 ∅ ∅ (submitted 0 ∅))
    [.call (.submit 1), .receive, .respond 0, .commitLegacy 1, .receive, .proceed, .commitBlock true, .receive,
      .complete 0 true, .receive] _
    (fun s : System => decide (s.committed = 1 ∧ 1 ∈ s.snapshots ∧ times (.started 1) s = 1 ∧
      s.calls[0]? = some (⟨.submit 1, .returned (.ok ())⟩ : Call) ∧ s.senders = [] ∧ s.sending = none ∧ s.generations = []))
    (by decide +kernel)
  obtain ⟨committed, placed, started, returned, noSenders, notSending, noGenerations⟩ := of_decide_eq_true facts
  obtain ⟨σ, first, _, ends, exec⟩ := exists_execution_of_reaches run .start
  obtain ⟨fairLoop, fairCompletion⟩ := weaklyFair_of_ends ends noSenders notSending noGenerations
  have synchronised := @snapshotMgmt_synchronised 0 ∅ ∅ (by decide) (by simp) (by simp) (by simp)
  obtain ⟨returns, _, _, _, served⟩ := synchronised.2 σ _ first exec fairLoop fairCompletion 10
  refine ⟨σ, _, first, exec, fairLoop, fairCompletion, 10, ?_⟩
  rw [ends 10 (by decide)] at returns served ⊢
  exact ⟨committed, placed, started, synchronised.1 _ s run, returns 0 _ returned, served 1 committed.ge⟩

end Fabric.Proof.SnapshotMgmt
