import Fabric.Lib.Liveness
import Fabric.Proof.SnapshotMgmt.Steps

/-! # No goroutine is blocked forever -/

namespace Fabric.Proof.SnapshotMgmt

open Lib Fabric.Ledger.SnapshotMgmt List Option Label

variable {i n k : Nat} {request : Request}

def Label.isLoop : Label → Prop
  | .receive => True
  | .proceed => True
  | .respond _ => True
  | _ => False

def Label.isCompletion : Label → Prop
  | .complete _ _ => True
  | _ => False

def Label.isCrash : Label → Prop
  | .crash _ => True
  | _ => False

instance (l : Label) : Decidable (Label.isCrash l) :=
  match l with
  | .crash _ => .isTrue trivial
  | .commitBlock _ | .commitLegacy _ | .call _ | .complete _ _ | .receive | .proceed | .respond _ => .isFalse id

variable {s t : System} {l : Label} {m : Nat}

theorem senders_of_step (taken : s.step l = some t) (notReceive : l ≠ .receive) (notCrash : ¬ isCrash l) :
    (∃ new, t.senders = s.senders ++ new) ∧ (isLoop l → s.sending.isSome ∧ t.sending = none) ∧
      (¬ isLoop l → t.sending = s.sending) := by
  cases moves_of_step taken with
  | startCommit idle => exact ⟨⟨_, rfl⟩, False.elim, fun _ => rfl⟩
  | startCall request => exact ⟨⟨_, rfl⟩, False.elim, fun _ => rfl⟩
  | complete found => exact ⟨⟨_, rfl⟩, False.elim, fun _ => rfl⟩
  | commitFails committing => exact ⟨⟨[], by simp⟩, False.elim, fun _ => rfl⟩
  | commits committing next => exact ⟨⟨_, rfl⟩, False.elim, fun _ => rfl⟩
  | receive idle queue recv => exact absurd rfl notReceive
  | proceed sending waiting =>
    exact ⟨⟨[], by simp⟩, fun _ => ⟨by simp [sending], rfl⟩, fun notLoop => absurd trivial notLoop⟩
  | respond sending found =>
    exact ⟨⟨[], by simp⟩, fun _ => ⟨by simp [sending], rfl⟩, fun notLoop => absurd trivial notLoop⟩
  | crash stored => exact absurd trivial notCrash

theorem call_of_step (taken : s.step l = some t) (notCrash : ¬ isCrash l) {state : CallState}
    (found : s.calls[i]? = some ⟨request, state⟩) : t.calls[i]? = some ⟨request, state⟩ ∨
      (l = .receive ∧ s.senders.head? = some (.call i) ∧ t.calls[i]? = some ⟨request, .waiting⟩) ∨
      (l = .respond i ∧ state = .waiting ∧ ∃ r, t.calls[i]? = some ⟨request, .returned r⟩) := by
  cases moves_of_step taken with
  | startCall request' => exact .inl (getElem?_concat_eq_some.mpr (.inl found))
  | receive idle queue recv =>
    cases recv with
    | start starting => exact .inl found
    | done ending => exact .inl found
    | generation n => exact .inl found
    | @call j request' isCall =>
      by_cases same : i = j
      · obtain rfl := same
        obtain ⟨rfl, rfl⟩ := Call.mk.inj (some.inj (isCall.symm.trans found))
        refine .inr (.inl ⟨rfl, by simp [queue], ?_⟩)
        exact (getElem?_set_eq_some isCall).mpr (.inl ⟨rfl, rfl⟩)
      · exact .inl ((getElem?_set_eq_some isCall).mpr (.inr ⟨same, found⟩))
  | @respond j r request' sending isCall =>
    by_cases same : i = j
    · obtain rfl := same
      obtain ⟨rfl, rfl⟩ := Call.mk.inj (some.inj (isCall.symm.trans found))
      exact .inr (.inr ⟨rfl, rfl, r, (getElem?_set_eq_some isCall).mpr (.inl ⟨rfl, rfl⟩)⟩)
    · exact .inl ((getElem?_set_eq_some isCall).mpr (.inr ⟨same, found⟩))
  | crash stored => exact absurd trivial notCrash
  | _ => exact .inl found

theorem committer_of_step (taken : s.step l = some t) (notCrash : ¬ isCrash l) :
    t.committer = s.committer ∨ s.committer = .idle ∨ (∃ n, s.committer = .committing n) ∨
      (∃ n, s.committer = .waiting n ∧ t.committer = .committing n) ∨
      (l = .receive ∧ s.senders.head? = some .committer ∧ ((∃ n, s.committer = .sendingStart n ∧ t.committer = .waiting n) ∨
          ∃ n, s.committer = .sendingDone n ∧ t.committer = .idle)) := by
  cases moves_of_step taken with
  | startCommit idle => exact .inr (.inl idle)
  | commitFails committing => exact .inr (.inr (.inl ⟨_, committing⟩))
  | commits committing next => exact .inr (.inr (.inl ⟨_, committing⟩))
  | receive idle queue recv =>
    cases recv with
    | start starting => exact .inr (.inr (.inr (.inr ⟨rfl, by simp [queue], .inl ⟨_, starting, rfl⟩⟩)))
    | done ending => exact .inr (.inr (.inr (.inr ⟨rfl, by simp [queue], .inr ⟨_, ending, rfl⟩⟩)))
    | generation n => exact .inl rfl
    | call isCall => exact .inl rfl
  | proceed sending waiting => exact .inr (.inr (.inr (.inl ⟨_, waiting, rfl⟩)))
  | crash stored => exact absurd trivial notCrash
  | _ => exact .inl rfl

theorem generations_of_step (taken : s.step l = some t) (notCompletion : ¬ isCompletion l) (notCrash : ¬ isCrash l) :
    ∃ new, t.generations = s.generations ++ new := by
  cases moves_of_step taken with
  | complete found => exact absurd trivial notCompletion
  | receive idle queue recv =>
    cases recv with
    | _ => exact ⟨_, rfl⟩
  | crash stored => exact absurd trivial notCrash
  | _ => exact ⟨[], by simp [System.startCall]⟩

theorem Inv.generation_of_inProgress (inv : Inv s) (inProgress : s.loop.snapshotInProgress = true) :
    s.generations ≠ [] ∨ ∃ m, .generation m ∈ s.senders := by
  have count := inv.phases.generation
  rw [inProgress, Bool.toNat_true] at count
  by_cases running : s.generations = []
  · rw [running, length_nil, Nat.zero_add] at count
    obtain ⟨sender, mem, isGeneration⟩ := countP_pos_iff.mp (by omega : 0 < s.senders.countP Sender.isGeneration)
    cases sender with
    | generation m => exact .inr ⟨m, mem⟩
    | committer => cases isGeneration
    | call i => cases isGeneration
  · exact .inl running

theorem Inv.noneCompleted (inv : Inv s) (running : s.generations ≠ []) (m : Nat) : .generation m ∉ s.senders := by
  intro mem
  have count := inv.phases.generation
  have := length_pos_iff.mpr running
  have := Bool.toNat_le s.loop.snapshotInProgress
  have : 0 < s.senders.countP Sender.isGeneration := countP_pos_iff.mpr ⟨_, mem, rfl⟩
  omega

theorem Inv.notFirst (inv : Inv s) {y : Sender} {senders : List Sender} (mem : .generation m ∈ s.senders)
    (queue : s.senders = y :: senders) (other : y ≠ .generation m) (m' : Nat) (senders' : List Sender) :
    s.senders ≠ .generation m' :: senders' := by
  intro queue'
  have first : y = .generation m' := (List.cons.inj (queue.symm.trans queue')).1
  apply other
  rw [first, inv.phases.completed m mem, inv.phases.completed m' (queue' ▸ mem_cons_self)]

theorem Inv.loop_enabled (inv : Inv s) (blocked : s.senders ≠ [] ∨ s.sending.isSome) : ∃ l, isLoop l ∧ (s.step l).isSome := by
  cases sending : s.sending with
  | some message =>
    cases message with
    | commitProceed =>
      obtain ⟨⟨n, waiting⟩, _⟩ := inv.phases.proceeding.mp sending
      refine ⟨.proceed, trivial, ?_⟩
      simp [System.step, System.proceed, sending, waiting]
    | requestResponse r =>
      obtain ⟨i, answered⟩ := inv.channels.responding r sending
      obtain ⟨request, waiting⟩ := (inv.channels.waiting i).mpr ⟨r, sending, answered⟩
      refine ⟨.respond i, trivial, ?_⟩
      simp [System.step, System.respond, sending, waiting]
  | none =>
    refine ⟨.receive, trivial, ?_⟩
    cases queue : s.senders with
    | nil => simp [queue, sending] at blocked
    | cons sender senders =>
      have first : sender ∈ s.senders := queue ▸ mem_cons_self
      have recv : (s.receiveFrom sender).isSome := by
        cases sender with
        | committer =>
          have isSending := inv.channels.committer.mp first
          rw [System.receiveFrom]
          cases phase : s.committer with
          | sendingStart n => rfl
          | sendingDone n => rfl
          | _ => simp [phase, Committer.isSending] at isSending
        | generation n => rfl
        | call i =>
          obtain ⟨request, found⟩ := (inv.channels.sending i).mp first
          simp [System.receiveFrom, found]
      obtain ⟨⟨event, s'⟩, recv⟩ := isSome_iff_exists.mp recv
      simp [System.step, System.receive, sending, queue, recv]

section

variable {allowed : System → Label → Prop} {σ : Nat → System} {taken : Nat → Option Label}
  (exec : Execution System.step allowed σ taken) (fair : WeaklyFair System.step σ taken isLoop)
  (holds : ∀ i, Inv (σ i))

include exec fair holds

theorem leadsTo_received (x : Sender) (hold goal : System → Prop)
    (stays : ∀ s l t, Inv s → hold s → x ∈ s.senders → allowed s l → l ≠ .receive → s.step l = some t → goal t ∨
      hold t ∧ ¬ isCrash l)
    (passed : ∀ s t y senders, Inv s → hold s → x ∈ s.senders → s.senders = y :: senders → y ≠ x →
      s.step .receive = some t → hold t)
    (recv : ∀ s t senders, Inv s → hold s → s.senders = x :: senders → s.step .receive = some t → goal t)
    (i : Nat) (blocked : x ∈ (σ i).senders) (held : hold (σ i)) : ∃ j ≥ i, goal (σ j) := by
  apply exec.leadsTo_of_rank (fun s => x ∈ s.senders ∧ hold s) goal
    (fun s => 2 * s.senders.idxOf x + s.sending.isSome.toNat) fair holds
  · intro s inv waits
    exact inv.loop_enabled (.inl (ne_nil_of_mem waits.1))
  · intro s l t inv ⟨mem, held⟩ meets isStep
    by_cases isRecv : l = .receive
    · obtain rfl := isRecv
      obtain ⟨y, senders, idle, queue, rest⟩ : ∃ y senders, s.sending = none ∧ s.senders = y :: senders ∧ t.senders = senders := by
        cases moves_of_step isStep with
        | receive idle queue recv => exact ⟨_, _, idle, queue, rfl⟩
      by_cases first : y = x
      · exact .inl (recv s t senders inv held (first ▸ queue) isStep)
      · have place : s.senders.idxOf x = senders.idxOf x + 1 := by rw [queue, idxOf_cons_ne _ first]
        have inRest : x ∈ senders := by
          rw [queue] at mem
          exact (mem_cons.mp mem).resolve_left (Ne.symm first)
        have blockedNext := Bool.toNat_le t.sending.isSome
        simp only [rest, place, idle]
        exact .inr ⟨⟨inRest, passed s t y senders inv held mem queue first isStep⟩, by omega, fun _ => by omega⟩
    · rcases stays s l t inv held mem meets isRecv isStep with isGoal | ⟨held', notCrash⟩
      · exact .inl isGoal
      · obtain ⟨⟨new, senders⟩, loopStep, otherStep⟩ := senders_of_step isStep isRecv notCrash
        have place : t.senders.idxOf x = s.senders.idxOf x := by rw [senders, idxOf_append_of_mem mem]
        have inQueue : x ∈ t.senders := by
          rw [senders]
          exact mem_append_left _ mem
        refine .inr ⟨⟨inQueue, held'⟩, ?_⟩
        rw [place]
        by_cases isLoop : isLoop l
        · obtain ⟨wasSending, after⟩ := loopStep isLoop
          simp [wasSending, after]
        · rw [otherStep isLoop]
          exact ⟨le_rfl, fun isLoop' => absurd isLoop' isLoop⟩
  · exact ⟨blocked, held⟩

end

def Label.CrashFree (s : System) (l : Label) : Prop := ¬ isCrash l ∧ Survivable s l

instance (s : System) (l : Label) : Decidable (Label.CrashFree s l) :=
  inferInstanceAs (Decidable (¬ isCrash l ∧ Survivable s l))

theorem loop_of_step (taken : s.step l = some t) (notReceive : l ≠ .receive) (notCrash : ¬ isCrash l) : t.loop = s.loop := by
  cases moves_of_step taken with
  | receive idle queue recv => exact absurd rfl notReceive
  | crash stored => exact absurd trivial notCrash
  | _ => rfl

theorem processCommitDone_last (loop : EventLoop) (n : Nat) : (loop.processCommitDone n).loop.lastCommittedBlockNumber = n := by
  rw [EventLoop.processCommitDone]
  split
  · rfl
  · rfl

theorem Inv.status_of_receive (inv : Inv s) (waiting : s.committer = .waiting n)
    (noneCompleted : ∀ m senders, s.senders ≠ .generation m :: senders) (taken : s.step .receive = some t) :
    t.committer = s.committer ∧ t.loop.committerStatus = s.loop.committerStatus := by
  cases moves_of_step taken with
  | receive idle queue recv =>
    cases recv with
    | start starting => simp [starting] at waiting
    | done ending => simp [ending] at waiting
    | generation m => exact absurd queue (noneCompleted m _)
    | @call i request found => exact ⟨rfl, (inv.answers_request request).status⟩

variable {σ : Nat → System} {taken : Nat → Option Label} (exec : Execution System.step CrashFree σ taken)
  (fair : WeaklyFair System.step σ taken isLoop) (holds : ∀ i, Inv (σ i)) {c : Committer}

include exec fair holds

theorem call_received (sending : (σ k).calls[i]? = some ⟨request, .sending⟩) :
    ∃ j ≥ k, (σ j).calls[i]? = some ⟨request, .waiting⟩ := by
  apply leadsTo_received exec fair holds (.call i) (fun s => s.calls[i]? = some ⟨request, .sending⟩)
    (fun s => s.calls[i]? = some ⟨request, .waiting⟩)
  · intro s l t _ found _ meets notReceive isStep
    rcases call_of_step isStep meets.1 found with same | ⟨isRecv, _⟩ | ⟨_, state, _⟩
    · exact .inr ⟨same, meets.1⟩
    · exact absurd isRecv notReceive
    · cases state
  · intro s t y senders _ found _ queue other isStep
    rcases call_of_step isStep id found with same | ⟨_, head, _⟩ | ⟨_, state, _⟩
    · exact same
    · rw [queue] at head
      exact absurd (some.inj head) other
    · cases state
  · intro s t senders _ found queue isStep
    cases moves_of_step isStep with
    | receive idle queue' recv =>
      obtain ⟨rfl, _⟩ := List.cons.inj (queue.symm.trans queue')
      cases recv with
      | call isCall =>
        obtain ⟨rfl, _⟩ := Call.mk.inj (some.inj (isCall.symm.trans found))
        exact (getElem?_set_eq_some isCall).mpr (.inl ⟨rfl, rfl⟩)
  · exact ((holds k).channels.sending i).mpr ⟨request, sending⟩
  · exact sending

theorem call_answered (waiting : (σ k).calls[i]? = some ⟨request, .waiting⟩) :
    ∃ j ≥ k, ∃ r, (σ j).calls[i]? = some ⟨request, .returned r⟩ := by
  apply exec.leadsTo_of_rank (fun s => s.calls[i]? = some ⟨request, .waiting⟩)
    (fun s => ∃ r, s.calls[i]? = some ⟨request, .returned r⟩) (fun _ => 0) fair holds
  · intro s inv found
    obtain ⟨r, sending, _⟩ := (inv.channels.waiting i).mp ⟨request, found⟩
    exact inv.loop_enabled (.inr (by simp [sending]))
  · intro s l t inv found meets isStep
    obtain ⟨r, sending, answered⟩ := (inv.channels.waiting i).mp ⟨request, found⟩
    rcases call_of_step isStep meets.1 found with same | ⟨isRecv, _⟩ | ⟨_, _, returned⟩
    · refine .inr ⟨same, le_rfl, fun isLoop => ?_⟩
      cases moves_of_step isStep with
      | receive idle _ _ => simp [sending] at idle
      | proceed proceeds _ => simp [sending] at proceeds
      | @respond j r' request' sending' found' =>
        obtain ⟨_, _, answered'⟩ := (inv.channels.waiting j).mp ⟨request', found'⟩
        rw [answered] at answered'
        obtain ⟨rfl, _⟩ := Prod.mk.inj (some.inj answered')
        rw [getElem?_set_self (List.getElem?_eq_some_iff.mp found).1] at same
        simp at same
      | _ => exact absurd isLoop id
    · obtain rfl := isRecv
      cases moves_of_step isStep with
      | receive idle _ _ => simp [sending] at idle
    · exact .inl returned
  · exact waiting

theorem call_returns {call : Call} (found : (σ k).calls[i]? = some call) :
    ∃ j ≥ k, ∃ r, (σ j).calls[i]? = some ⟨call.request, .returned r⟩ := by
  obtain ⟨request, state⟩ := call
  cases state with
  | sending =>
    obtain ⟨j, later, waiting⟩ := call_received exec fair holds found
    obtain ⟨j', later', returned⟩ := call_answered exec fair holds waiting
    exact ⟨j', later.trans later', returned⟩
  | waiting => exact call_answered exec fair holds found
  | returned r => exact ⟨k, le_rfl, r, found⟩

omit exec fair holds in
theorem committer_stays (isSending : Committer.isSending c = true) (found : s.committer = c)
    (notFirst : l = .receive → s.senders.head? ≠ some .committer) (isStep : s.step l = some t)
    (notCrash : ¬ isCrash l) : t.committer = c := by
  rcases committer_of_step isStep notCrash with same | idle | ⟨m, committing⟩ | ⟨m, waiting, _⟩ | ⟨isRecv, first, _⟩
  · rw [same, found]
  · rw [← found, idle] at isSending
    cases isSending
  · rw [← found, committing] at isSending
    cases isSending
  · rw [← found, waiting] at isSending
    cases isSending
  · exact absurd first (notFirst isRecv)

theorem committer_received (isSending : Committer.isSending c = true) (goal : System → Prop)
    (recv : ∀ s t senders, Inv s → s.committer = c → s.senders = .committer :: senders → s.step .receive = some t → goal t)
    (found : (σ k).committer = c) : ∃ j ≥ k, goal (σ j) := by
  apply leadsTo_received exec fair holds .committer (fun s => s.committer = c) goal
  · intro s l t _ found _ meets notReceive isStep
    exact .inr ⟨committer_stays isSending found (fun isRecv => absurd isRecv notReceive) isStep meets.1, meets.1⟩
  · intro s t y senders _ found _ queue other isStep
    apply committer_stays isSending found _ isStep id
    intro _ first
    rw [queue] at first
    exact other (some.inj first)
  · exact recv
  · rw [(holds k).channels.committer, found]
    exact isSending
  · exact found

theorem commitStart_received (starting : (σ k).committer = .sendingStart n) : ∃ j ≥ k, (σ j).committer = .waiting n := by
  apply committer_received exec fair holds rfl (fun s => s.committer = .waiting n) _ starting
  intro s t senders _ found queue isStep
  cases moves_of_step isStep with
  | receive idle queue' recv =>
    obtain ⟨rfl, _⟩ := List.cons.inj (queue.symm.trans queue')
    cases recv with
    | start starting =>
      obtain rfl := Committer.sendingStart.inj (found.symm.trans starting)
      rfl
    | done ending => simp [found] at ending

theorem commitDone_received (ending : (σ k).committer = .sendingDone n) :
    ∃ j ≥ k, (σ j).committer = .idle ∧ (σ j).loop.lastCommittedBlockNumber = n := by
  apply committer_received exec fair holds rfl
    (fun s => s.committer = .idle ∧ s.loop.lastCommittedBlockNumber = n) _ ending
  intro s t senders _ found queue isStep
  cases moves_of_step isStep with
  | receive idle queue' recv =>
    obtain ⟨rfl, _⟩ := List.cons.inj (queue.symm.trans queue')
    cases recv with
    | start starting => simp [found] at starting
    | done ending =>
      obtain rfl := Committer.sendingDone.inj (found.symm.trans ending)
      exact ⟨rfl, processCommitDone_last _ _⟩

theorem commitProceed_received (waiting : (σ k).committer = .waiting n)
    (inProcess : (σ k).loop.committerStatus = .inProcess) : ∃ j ≥ k, (σ j).committer = .committing n := by
  apply exec.leadsTo_of_rank (fun s => s.committer = .waiting n ∧ s.loop.committerStatus = .inProcess)
    (fun s => s.committer = .committing n) (fun _ => 0) fair holds
  · intro s inv ⟨waiting, inProcess⟩
    exact inv.loop_enabled (.inr (by simp [inv.phases.proceeding.mpr ⟨⟨n, waiting⟩, inProcess⟩]))
  · intro s l t inv ⟨waiting, inProcess⟩ meets isStep
    have sending := inv.phases.proceeding.mpr ⟨⟨n, waiting⟩, inProcess⟩
    cases moves_of_step isStep with
    | startCommit idle => simp [waiting] at idle
    | startCall request => exact .inr ⟨⟨waiting, inProcess⟩, le_rfl, False.elim⟩
    | complete found => exact .inr ⟨⟨waiting, inProcess⟩, le_rfl, False.elim⟩
    | commitFails committing => simp [waiting] at committing
    | commits committing next => simp [waiting] at committing
    | receive idle queue recv => simp [sending] at idle
    | proceed sending' waiting' =>
      obtain rfl := Committer.waiting.inj (waiting.symm.trans waiting')
      exact .inl rfl
    | respond sending' found => simp [sending] at sending'
    | crash stored => exact absurd trivial meets.1
  · exact ⟨waiting, inProcess⟩

def Blocked (n : Nat) (s : System) : Prop := s.committer = .waiting n ∧ s.loop.committerStatus = .blocked

omit exec fair holds in
theorem Blocked.step (blocked : Blocked n s) (inv : Inv s) (isStep : s.step l = some t) (notCrash : ¬ isCrash l)
    (noneCompleted : l = .receive → ∀ m senders, s.senders ≠ .generation m :: senders) : Blocked n t := by
  obtain ⟨waiting, status⟩ := blocked
  by_cases isRecv : l = .receive
  · obtain rfl := isRecv
    obtain ⟨committer, same⟩ := inv.status_of_receive waiting (noneCompleted rfl) isStep
    exact ⟨committer.trans waiting, same.trans status⟩
  · have loop := loop_of_step isStep isRecv notCrash
    have notProceeding : s.sending ≠ some .commitProceed := by
      intro proceeding
      have inProcess := (inv.phases.proceeding.mp proceeding).2
      simp [status] at inProcess
    cases moves_of_step isStep with
    | startCommit idle => simp [waiting] at idle
    | startCall request => exact ⟨waiting, status⟩
    | complete found => exact ⟨waiting, status⟩
    | commitFails committing => simp [waiting] at committing
    | commits committing next => simp [waiting] at committing
    | receive idle queue recv => exact absurd rfl isRecv
    | proceed sending waiting' => exact absurd sending notProceeding
    | respond sending found => exact ⟨waiting, status⟩
    | crash stored => exact absurd trivial notCrash

theorem snapshotDone_received (blocked : Blocked n (σ k)) (completed : .generation m ∈ (σ k).senders) :
    ∃ j ≥ k, (σ j).committer = .waiting n ∧ (σ j).loop.committerStatus = .inProcess := by
  apply leadsTo_received exec fair holds (.generation m) (Blocked n)
    (fun s => s.committer = .waiting n ∧ s.loop.committerStatus = .inProcess)
  · intro s l t inv blocked _ meets notReceive isStep
    have stays := blocked.step inv isStep meets.1 (fun isRecv => absurd isRecv notReceive)
    exact .inr ⟨stays, meets.1⟩
  · intro s t y senders inv blocked mem queue other isStep
    exact blocked.step inv isStep id fun _ => inv.notFirst mem queue other
  · intro s t senders inv ⟨waiting, status⟩ queue isStep
    cases moves_of_step isStep with
    | receive idle queue' recv =>
      obtain ⟨rfl, _⟩ := List.cons.inj (queue.symm.trans queue')
      cases recv
      obtain ⟨_, inProgress⟩ := inv.phases.blocked.mp status
      obtain rfl : m = s.loop.lastCommittedBlockNumber := inv.phases.completed m (queue ▸ mem_cons_self)
      obtain ⟨p, isProcessed, _, _, _, _, _, _, outcome⟩ := processSnapshotDone_spec inv.pending inProgress
      simp only [EventLoop.processEvent, isProcessed]
      rcases outcome with ⟨_, after, _⟩ | ⟨notBlocked, _, _⟩
      · exact ⟨waiting, after⟩
      · exact absurd status notBlocked
  · exact completed
  · exact blocked

omit fair in
theorem generation_completes (fairCompletion : WeaklyFair System.step σ taken isCompletion) (hold : System → Prop)
    (stays : ∀ s l t, Inv s → hold s → (∀ m senders, s.senders ≠ .generation m :: senders) → CrashFree s l →
      s.step l = some t → hold t)
    (held : hold (σ k)) (running : (σ k).generations ≠ []) : ∃ j ≥ k, hold (σ j) ∧ ∃ m, .generation m ∈ (σ j).senders := by
  apply exec.leadsTo_of_rank (fun s => hold s ∧ s.generations ≠ [])
    (fun s => hold s ∧ ∃ m, .generation m ∈ s.senders) (fun _ => 0) fairCompletion holds
  · intro s inv ⟨_, running⟩
    obtain ⟨g, rest, isList⟩ := exists_cons_of_ne_nil running
    refine ⟨.complete 0 false, trivial, ?_⟩
    simp [System.step, System.completeGeneration, isList]
  · intro s l t inv ⟨held, running⟩ meets isStep
    have held' : hold t := by
      apply stays s l t inv held _ meets isStep
      intro m senders queue
      exact inv.noneCompleted running m (queue ▸ mem_cons_self)
    by_cases isCompletion : isCompletion l
    · cases moves_of_step isStep with
      | complete found => exact .inl ⟨held', _, mem_append_right _ (mem_singleton_self _)⟩
      | _ => exact absurd isCompletion id
    · obtain ⟨new, more⟩ := generations_of_step isStep isCompletion meets.1
      refine .inr ⟨⟨held', ?_⟩, le_rfl, fun isCompletion' => absurd isCompletion' isCompletion⟩
      rw [more]
      simp [running]
  · exact ⟨held, running⟩

theorem commit_proceeds (fairCompletion : WeaklyFair System.step σ taken isCompletion)
    (waiting : (σ k).committer = .waiting n) : ∃ j ≥ k, (σ j).committer = .committing n := by
  have inv := holds k
  have fromCompleted : ∀ i m, Blocked n (σ i) → .generation m ∈ (σ i).senders → ∃ j ≥ i, (σ j).committer = .committing n := by
    intro i m blocked completed
    obtain ⟨j, later, waiting, inProcess⟩ := snapshotDone_received exec fair holds blocked completed
    obtain ⟨j', later', committing⟩ := commitProceed_received exec fair holds waiting inProcess
    exact ⟨j', later.trans later', committing⟩
  cases status : (σ k).loop.committerStatus with
  | idle => exact absurd status (inv.phases.waiting n waiting)
  | inProcess => exact commitProceed_received exec fair holds waiting status
  | blocked =>
    rcases inv.generation_of_inProgress (inv.phases.blocked.mp status).2 with running | ⟨m, completed⟩
    · obtain ⟨i, later, blocked, m, completed⟩ := generation_completes exec holds fairCompletion (Blocked n)
        (fun s l t inv blocked notFirst meets isStep => blocked.step inv isStep meets.1 fun _ => notFirst)
        ⟨waiting, status⟩ running
      obtain ⟨j, later', committing⟩ := fromCompleted i m blocked completed
      exact ⟨j, later.trans later', committing⟩
    · exact fromCompleted k m ⟨waiting, status⟩ completed

end Fabric.Proof.SnapshotMgmt
