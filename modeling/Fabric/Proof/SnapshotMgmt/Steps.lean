import Fabric.Lib.Extract
import Fabric.Proof.SnapshotMgmt.Events

/-! # Steps keep the invariant -/

namespace Fabric.Proof.SnapshotMgmt

open Lib Fabric.Ledger.SnapshotMgmt Fabric.Ledger.SnapshotMgmt.Committer SnapshotMgmt.Committer List Option Sender Call

variable {s t s' : System} {sender : Sender} {i n : Nat} {request : Request} {p : Processed} {r : Result Unit}
  {event : Event} {l : Label}

@[simp] theorem isGeneration_committer : isGeneration .committer = false := rfl

@[simp] theorem isGeneration_generation (n : Nat) : isGeneration (.generation n) = true := rfl

@[simp] theorem isGeneration_call (i : Nat) : isGeneration (.call i) = false := rfl

theorem Phases.last_lt (phases : Phases s) : s.loop.lastCommittedBlockNumber < defaultSmallestBlockNumber := by
  have fits := phases.fits
  by_cases fin : ∃ n, s.committer = .sendingDone n
  · obtain ⟨n, fin⟩ := fin
    obtain ⟨_, committed, next⟩ := phases.sendingDone n fin
    omega
  · rw [phases.last (not_exists.mp fin)]
    exact fits

def System.processed (s : System) (sender : Sender) (senders : List Sender) (p : Processed) : System :=
  { s with
    senders := senders
    loop := p.loop
    sending := p.message
    generations := s.generations ++ p.generation.toList
    history := s.history ++ p.entries.map (·, s.committed)
    answers := s.answers ++ System.answer sender p.message }

inductive Receives (s : System) : Sender → Event → System → Prop where
  | start {n : Nat} (starting : s.committer = .sendingStart n) :
      Receives s .committer (.commitStart n) { s with committer := .waiting n }
  | done {n : Nat} (fin : s.committer = .sendingDone n) :
      Receives s .committer (.commitDone n) { s with committer := .idle }
  | generation (n : Nat) : Receives s (.generation n) (.snapshotDone n) s
  | call {i : Nat} {request : Request} (found : s.calls[i]? = some ⟨request, .sending⟩) :
      Receives s (.call i) request.event { s with calls := s.calls.set i ⟨request, .waiting⟩ }

inductive Moves (s : System) : Label → System → Prop where
  | startCommit {n : Nat} (idle : s.committer = .idle) :
      Moves s (.commitLegacy n) { s with committer := .sendingStart n, senders := s.senders ++ [.committer] }
  | startCall (request : Request) : Moves s (.call request) (s.startCall request)
  | complete {i : Nat} {placed : Bool} {g : Generation} (found : s.generations[i]? = some g) :
      Moves s (.complete i placed) { s with
        generations := s.generations.eraseIdx i
        snapshots := if placed then insert s.committed s.snapshots else s.snapshots
        senders := s.senders ++ [.generation (g.requestedBlockNum.getD s.loop.lastCommittedBlockNumber)] }
  | commitFails {n : Nat} (committing : s.committer = .committing n) :
      Moves s (.commitBlock false) { s with committer := .idle }
  | commits {n : Nat} (committing : s.committer = .committing n) (next : n = s.committed + 1) :
      Moves s (.commitBlock true)
        { s with committed := n, committer := .sendingDone n, senders := s.senders ++ [.committer] }
  | receive {sender : Sender} {senders : List Sender} {event : Event} {s' : System} (idle : s.sending = none)
      (queue : s.senders = sender :: senders) (recv : Receives s sender event s') :
      Moves s .receive (System.processed s' sender senders (s'.loop.processEvent s'.snapshots event))
  | proceed {n : Nat} (sending : s.sending = some .commitProceed) (waiting : s.committer = .waiting n) :
      Moves s .proceed { s with sending := none, committer := .committing n }
  | respond {i : Nat} {r : Result Unit} {request : Request} (sending : s.sending = some (.requestResponse r))
      (found : s.calls[i]? = some ⟨request, .waiting⟩) :
      Moves s (.respond i) { s with sending := none, calls := s.calls.set i ⟨request, .returned r⟩ }
  | crash (stored : Bool) : Moves s (.crash stored) (s.crash stored)

theorem receives_of_receiveFrom (recv : s.receiveFrom sender = some (event, s'))
    : Receives s sender event s' := by
  cases sender with
  | committer =>
    rw [System.receiveFrom] at recv
    split at recv
    · rename_i n starting
      cases recv
      exact .start starting
    · rename_i n fin
      cases recv
      exact .done fin
    · cases recv
  | generation n =>
    cases recv
    exact .generation n
  | call i =>
    rw [System.receiveFrom] at recv
    split at recv
    · rename_i request found
      cases recv
      exact .call found
    · cases recv

theorem moves_of_step (taken : s.step l = some t) : Moves s l t := by
  cases l with
  | commitLegacy n =>
    simp only [System.step, System.startCommit] at taken
    split at taken
    · rename_i idle
      obtain rfl := some.inj taken
      exact .startCommit idle
    · cases taken
  | call request =>
    obtain rfl := some.inj taken
    exact .startCall request
  | complete i placed =>
    obtain ⟨g, found, taken⟩ := bind_eq_some_iff.mp taken
    obtain rfl := some.inj taken
    exact .complete found
  | commitBlock success =>
    simp only [System.step, System.commitBlock] at taken
    split at taken
    · rename_i n committing
      cases success with
      | false =>
        obtain rfl := some.inj taken
        exact .commitFails committing
      | true =>
        simp only [not_true_eq_false, if_false] at taken
        split at taken
        · rename_i next
          obtain rfl := some.inj taken
          exact .commits committing next
        · cases taken
    · cases taken
  | receive =>
    simp only [System.step, System.receive] at taken
    split at taken
    · cases taken
    · rename_i notSending
      split at taken
      · cases taken
      · rename_i sender senders queue
        obtain ⟨⟨event, s'⟩, recv, taken⟩ := bind_eq_some_iff.mp taken
        obtain rfl := some.inj taken
        exact .receive (by simpa using notSending) queue (receives_of_receiveFrom recv)
  | proceed =>
    simp only [System.step, System.proceed] at taken
    split at taken
    · rename_i n sending waiting
      obtain rfl := some.inj taken
      exact .proceed sending waiting
    · cases taken
  | respond i =>
    simp only [System.step, System.respond] at taken
    split at taken
    · rename_i r request sending found
      obtain rfl := some.inj taken
      exact .respond sending found
    · cases taken
  | crash stored =>
    obtain rfl := some.inj taken
    exact .crash stored

theorem Inv.startCommit (inv : Inv s) (idle : s.committer = .idle) (n : Nat) :
    Inv { s with committer := .sendingStart n, senders := s.senders ++ [.committer] } := by
  have absent : committer ∉ s.senders := by simp [inv.channels.committer, idle, isSending]
  have last := inv.phases.last (by simp [idle])
  constructor
  · exact { inv.channels with
      nodup := nodup_concat inv.channels.nodup absent
      committer := by simp [isSending]
      sending := by simpa using inv.channels.sending }
  · exact { inv.phases with
      proceeding := by simpa [idle] using inv.phases.proceeding
      blocked := by simpa [idle] using inv.phases.blocked
      waiting := by simp
      committing := by simp
      sendingDone := by simp
      last := fun _ => last
      generation := by simpa using inv.phases.generation
      completed := by simpa using inv.phases.completed }
  · exact inv.pending

theorem Inv.startCall (inv : Inv s) (request : Request) : Inv (s.startCall request) := by
  have absent : call s.calls.length ∉ s.senders := by simp [inv.channels.sending]
  constructor
  · exact {
      nodup := nodup_concat inv.channels.nodup absent
      committer := by simpa [System.startCall] using inv.channels.committer
      sending := by
        intro i
        simp [System.startCall, call.injEq, inv.channels.sending, getElem?_concat_eq_some, mk.injEq, exists_or]
      responding := inv.channels.responding
      waiting := by
        intro i
        simpa [System.startCall, getElem?_concat_eq_some] using inv.channels.waiting i
      returned := by
        intro i request' r found
        apply inv.channels.returned i request' r
        simpa [System.startCall, getElem?_concat_eq_some] using found
      answered := by
        intro i r answered
        obtain ⟨call, found, recv⟩ := inv.channels.answered i r answered
        exact ⟨call, getElem?_concat_eq_some.mpr (.inl found), recv⟩
      once := inv.channels.once }
  · exact { inv.phases with
      generation := by simpa [System.startCall] using inv.phases.generation
      completed := by simpa [System.startCall] using inv.phases.completed }
  · exact inv.pending

theorem Inv.complete (inv : Inv s) {g : Generation} (found : s.generations[i]? = some g) (snapshots : Finset Nat) :
    Inv { s with
      generations := s.generations.eraseIdx i
      snapshots := snapshots
      senders := s.senders ++ [.generation (g.requestedBlockNum.getD s.loop.lastCommittedBlockNumber)] } := by
  have number := inv.phases.running g (mem_of_getElem? found)
  have inside := (List.getElem?_eq_some_iff.mp found).1
  have count := inv.phases.generation
  have single := Bool.toNat_le s.loop.snapshotInProgress
  have none : s.senders.countP isGeneration = 0 := by omega
  have absent : ∀ n, generation n ∉ s.senders := by
    intro n mem
    exact countP_eq_zero.mp none _ mem rfl
  rw [number]
  constructor
  · exact { inv.channels with
      nodup := nodup_concat inv.channels.nodup (absent _)
      committer := by simpa using inv.channels.committer
      sending := by simpa using inv.channels.sending }
  · exact { inv.phases with
      generation := by
        simp only [length_eraseIdx_of_lt inside, countP_append, countP_singleton, isGeneration_generation, if_true]
        omega
      completed := by simp [absent]
      running := fun g mem => inv.phases.running g (mem_of_mem_eraseIdx mem) }
  · exact inv.pending

section

variable (inv : Inv s) {n : Nat} (committing : s.committer = .committing n)

include inv committing

theorem Inv.commitFails : Inv { s with committer := .idle } := by
  have absent : committer ∉ s.senders := by simp [inv.channels.committer, committing, isSending]
  constructor
  · exact { inv.channels with committer := by simpa [isSending] using absent }
  · exact { inv.phases with
      proceeding := by simpa [committing] using inv.phases.proceeding
      blocked := by simpa [committing] using inv.phases.blocked
      waiting := by simp
      committing := by simp
      sendingDone := by simp
      last := fun _ => inv.phases.last (by simp [committing]) }
  · exact inv.pending

theorem Inv.commits (next : n = s.committed + 1) (below : s.committed + 1 < defaultSmallestBlockNumber) :
    Inv { s with committed := n, committer := .sendingDone n, senders := s.senders ++ [.committer] } := by
  have inProcess := inv.phases.committing n committing
  have last := inv.phases.last (by simp [committing])
  have absent : committer ∉ s.senders := by simp [inv.channels.committer, committing, isSending]
  constructor
  · exact { inv.channels with
      nodup := nodup_concat inv.channels.nodup absent
      committer := by simp [isSending]
      sending := by simpa using inv.channels.sending }
  · exact { inv.phases with
      proceeding := by simpa [committing] using inv.phases.proceeding
      blocked := by simpa [committing] using inv.phases.blocked
      waiting := by simp
      committing := by simp
      sendingDone := by
        intro m same
        obtain rfl := sendingDone.inj same
        exact ⟨inProcess, rfl, by rw [last, next]⟩
      last := fun other => absurd rfl (other n)
      generation := by simpa using inv.phases.generation
      completed := by simpa using inv.phases.completed
      fits := by
        rw [next]
        exact below }
  · exact inv.pending

end

theorem Inv.proceed (inv : Inv s) (sending : s.sending = some .commitProceed)
    (waiting : s.committer = .waiting n) : Inv { s with sending := none, committer := .committing n } := by
  obtain ⟨_, inProcess⟩ := inv.phases.proceeding.mp sending
  constructor
  · exact { inv.channels with
      committer := by simpa [waiting, isSending] using inv.channels.committer
      responding := by simp
      waiting := by simpa [sending] using inv.channels.waiting }
  · exact { inv.phases with
      proceeding := by simp
      blocked := by simp [inProcess]
      waiting := by simp
      committing := fun _ _ => inProcess
      sendingDone := by simp
      last := fun _ => inv.phases.last (by simp [waiting]) }
  · exact inv.pending

theorem Inv.respond (inv : Inv s) (sending : s.sending = some (.requestResponse r))
    (found : s.calls[i]? = some ⟨request, .waiting⟩) : Inv { s with sending := none, calls := s.calls.set i ⟨request, .returned r⟩ } := by
  obtain ⟨r', sending', answered⟩ := (inv.channels.waiting i).mp ⟨request, found⟩
  obtain rfl : r = r' := by simpa [sending] using sending'
  constructor
  · exact { inv.channels with
      sending := by
        intro j
        rw [inv.channels.sending]
        simp only [getElem?_set_eq_some found, mk.injEq, reduceCtorEq, and_false, false_or]
        constructor
        · intro ⟨request', inQueue⟩
          refine ⟨request', ?_, inQueue⟩
          rintro rfl
          simp [found] at inQueue
        · intro ⟨request', _, inQueue⟩
          exact ⟨request', inQueue⟩
      responding := by simp
      waiting := by
        intro j
        simp only [getElem?_set_eq_some found, mk.injEq, reduceCtorEq, and_false, false_or, false_and, exists_false, iff_false]
        rintro ⟨request', other, alsoWaiting⟩
        obtain ⟨_, _, alsoAnswered⟩ := (inv.channels.waiting j).mp ⟨request', alsoWaiting⟩
        simp [answered] at alsoAnswered
        exact other alsoAnswered.1.symm
      returned := by
        intro j request' r' isReturned
        rcases (getElem?_set_eq_some found).mp isReturned with ⟨rfl, same⟩ | ⟨_, earlier⟩
        · obtain ⟨_, isResponse⟩ := mk.inj same
          obtain rfl := CallState.returned.inj isResponse
          exact mem_of_getLast? answered
        · exact inv.channels.returned j request' r' earlier
      answered := by
        intro j r' isAnswered
        by_cases same : j = i
        · exact ⟨_, (getElem?_set_eq_some found).mpr (.inl ⟨same, rfl⟩), by simp⟩
        · obtain ⟨call, isCall, recv⟩ := inv.channels.answered j r' isAnswered
          exact ⟨call, (getElem?_set_eq_some found).mpr (.inr ⟨same, isCall⟩), recv⟩ }
  · exact { inv.phases with
      proceeding := by simpa [sending] using inv.phases.proceeding }
  · exact inv.pending

theorem Inv.later_of_inProcess (inv : Inv s) (inProcess : s.loop.committerStatus = .inProcess) :
    ∀ m ∈ s.loop.snapshotRequestBookkeeper.requests, s.loop.lastCommittedBlockNumber + 1 ≤ m := by
  intro m mem
  obtain ⟨least, ifLast⟩ := inv.pending.later m mem
  rw [inv.phases.inProcess inProcess] at ifLast
  have : m ≠ s.loop.lastCommittedBlockNumber := fun same => by simpa using ifLast same
  omega

theorem Inv.later_of_sendingDone (inv : Inv s) (fin : s.committer = .sendingDone n) :
    ∀ m ∈ s.loop.snapshotRequestBookkeeper.requests, n ≤ m := by
  obtain ⟨inProcess, _, next⟩ := inv.phases.sendingDone n fin
  rw [next]
  exact inv.later_of_inProcess inProcess

theorem Inv.inProgress_of_completed (inv : Inv s) (completed : .generation n ∈ s.senders) : s.loop.snapshotInProgress = true := by
  have count := inv.phases.generation
  have : 0 < s.senders.countP isGeneration := countP_pos_iff.mpr ⟨_, completed, rfl⟩
  cases off : s.loop.snapshotInProgress with
  | true => rfl
  | false =>
    rw [off, Bool.toNat_false] at count
    omega

theorem Inv.answers_request (inv : Inv s) (request : Request) : Answers s.loop (s.loop.processEvent s.snapshots request.event) := by
  cases request with
  | submit n => exact answers_requestAdd inv.pending _ (Nat.le_sub_one_of_lt n.toNat_lt) inv.phases.last_lt
  | cancel n => exact answers_requestCancel inv.pending _

section

variable {senders : List Sender} (inv : Inv s) (idle : s.sending = none)

include inv idle

theorem noneWaiting (i : Nat) (request : Request) : s.calls[i]? ≠ some ⟨request, .waiting⟩ := by
  intro waiting
  obtain ⟨r, sending, _⟩ := (inv.channels.waiting i).mp ⟨request, waiting⟩
  simp [idle] at sending

theorem Channels.receiveCall (queue : s.senders = .call i :: senders)
    (found : s.calls[i]? = some ⟨request, .sending⟩) (response : p.message = some (.requestResponse r)) :
    Channels (System.processed { s with calls := s.calls.set i ⟨request, .waiting⟩ } (.call i) senders p) := by
  have nodup := inv.channels.nodup
  rw [queue] at nodup
  obtain ⟨absent, nodup⟩ := nodup_cons.mp nodup
  have fresh : ∀ r, (i, r) ∉ s.answers := by
    intro r answered
    obtain ⟨call, isCall, recv⟩ := inv.channels.answered i r answered
    rw [found] at isCall
    obtain rfl := some.inj isCall
    exact recv rfl
  have answers : s.answers ++ System.answer (.call i) p.message = s.answers ++ [(i, r)] := by
    rw [response]
    rfl
  rw [System.processed, answers]
  exact
    { nodup := nodup
      committer := by
        have committer := inv.channels.committer
        rw [queue] at committer
        simpa using committer
      sending := by
        intro j
        have sending := inv.channels.sending j
        rw [queue] at sending
        simp only [getElem?_set_eq_some found, mk.injEq, reduceCtorEq, and_false, false_or, exists_and_left]
        constructor
        · intro mem
          exact ⟨fun same => absent (same ▸ mem), sending.mp (mem_cons_of_mem _ mem)⟩
        · intro ⟨other, isSending⟩
          rcases mem_cons.mp (sending.mpr isSending) with same | mem
          · exact absurd (call.inj same) other
          · exact mem
      responding := by
        intro r' isSending
        obtain rfl : r = r' := by simpa [response] using isSending
        exact ⟨i, by simp⟩
      waiting := by
        intro j
        simp only [getElem?_set_eq_some found, response, getLast?_concat, some.injEq, Message.requestResponse.injEq, Prod.mk.injEq]
        constructor
        · rintro ⟨request', ⟨rfl, _⟩ | ⟨_, waiting⟩⟩
          · exact ⟨r, rfl, rfl, rfl⟩
          · exact absurd waiting (noneWaiting inv idle j request')
        · rintro ⟨_, _, rfl, _⟩
          exact ⟨request, .inl ⟨rfl, rfl⟩⟩
      returned := by
        intro j request' r' isReturned
        rcases (getElem?_set_eq_some found).mp isReturned with ⟨_, same⟩ | ⟨_, earlier⟩
        · simp at same
        · exact mem_append_left _ (inv.channels.returned j request' r' earlier)
      answered := by
        intro j r' answered
        by_cases same : j = i
        · exact ⟨_, (getElem?_set_eq_some found).mpr (.inl ⟨same, rfl⟩), by simp⟩
        · rcases mem_append.mp answered with earlier | here
          · obtain ⟨call, isCall, recv⟩ := inv.channels.answered j r' earlier
            exact ⟨call, (getElem?_set_eq_some found).mpr (.inr ⟨same, isCall⟩), recv⟩
          · simp [same] at here
      once := by
        rw [map_append]
        apply nodup_concat inv.channels.once
        intro mem
        obtain ⟨⟨_, r'⟩, answered, rfl⟩ := List.mem_map.mp mem
        exact fresh r' answered }

theorem Channels.receiveOther {committer : Committer} (queue : s.senders = sender :: senders)
    (notCall : ∀ i, sender ≠ .call i) (sent : .committer ∈ senders ↔ isSending committer = true)
    (message : ∀ r, p.message ≠ some (.requestResponse r)) :
    Channels (System.processed { s with committer := committer } sender senders p) := by
  have nodup := inv.channels.nodup
  rw [queue] at nodup
  have answers : s.answers ++ System.answer sender p.message = s.answers := by
    cases sender with
    | call i => exact absurd rfl (notCall i)
    | _ => simp [System.answer]
  rw [System.processed, answers]
  exact { inv.channels with
    nodup := (nodup_cons.mp nodup).2
    committer := sent
    sending := by
      intro i
      rw [← inv.channels.sending, queue, mem_cons]
      simp [(notCall i).symm]
    responding := fun r isSending => absurd isSending (message r)
    waiting := by
      intro i
      constructor
      · rintro ⟨request, waiting⟩
        exact absurd waiting (noneWaiting inv idle i request)
      · rintro ⟨r, isSending, _⟩
        exact absurd isSending (message r) }

theorem Inv.receiveCall (queue : s.senders = .call i :: senders) (found : s.calls[i]? = some ⟨request, .sending⟩)
    (answers : Answers s.loop p) : Inv (System.processed { s with calls := s.calls.set i ⟨request, .waiting⟩ } (.call i) senders p) := by
  obtain ⟨r, response⟩ := answers.response
  have notProceeding : ¬ ((∃ n, s.committer = .waiting n) ∧ s.loop.committerStatus = .inProcess) := by
    rw [← inv.phases.proceeding, idle]
    simp
  have count := inv.phases.generation
  rw [queue, countP_cons_of_neg (by simp)] at count
  have completed : ∀ n, .generation n ∈ senders → n = p.loop.lastCommittedBlockNumber := by
    intro n mem
    rw [answers.last]
    exact inv.phases.completed n (queue ▸ mem_cons_of_mem _ mem)
  refine ⟨Channels.receiveCall inv idle queue found response, ?_, answers.pending⟩
  exact
    { proceeding := by simpa [System.processed, response, answers.status] using notProceeding
      blocked := by
        rcases answers.generation with ⟨same, _, _⟩ | ⟨isIdle, _, _, _, _⟩
        · simpa [System.processed, answers.status, same] using inv.phases.blocked
        · simp only [System.processed, answers.status, isIdle, reduceCtorEq, false_iff]
          rintro ⟨⟨n, waiting⟩, _⟩
          exact inv.phases.waiting n waiting isIdle
      waiting := by simpa [System.processed, answers.status] using inv.phases.waiting
      committing := by simpa [System.processed, answers.status] using inv.phases.committing
      sendingDone := by simpa [System.processed, answers.status, answers.last] using inv.phases.sendingDone
      last := by simpa [System.processed, answers.last] using inv.phases.last
      inProcess := by
        rcases answers.generation with ⟨same, _, _⟩ | ⟨isIdle, _, _, _, _⟩
        · simpa [System.processed, answers.status, same] using inv.phases.inProcess
        · simp [System.processed, answers.status, isIdle]
      generation := by
        rcases answers.generation with ⟨same, none, _⟩ | ⟨_, before, after, started, _⟩
        · simpa [System.processed, same, none] using count
        · rw [before, Bool.toNat_false] at count
          simp only [System.processed, after, started, toList_some, length_append, length_singleton, Bool.toNat_true]
          omega
      completed := completed
      running := by
        intro g mem
        rw [System.processed, answers.last]
        rcases mem_append.mp mem with earlier | here
        · exact inv.phases.running g earlier
        · rcases answers.generation with ⟨_, none, _⟩ | ⟨_, _, _, started, _⟩
          · simp [none] at here
          · rw [started] at here
            rw [mem_singleton.mp here]
            rfl
      fits := inv.phases.fits }

theorem Inv.receiveCommitStart (queue : s.senders = .committer :: senders) (starting : s.committer = .sendingStart n) :
    Inv (System.processed { s with committer := .waiting n } .committer senders s.loop.processCommitStart) := by
  have nodup := inv.channels.nodup
  rw [queue] at nodup
  have absent := (nodup_cons.mp nodup).1
  have last := inv.phases.last (by simp [starting])
  have count := inv.phases.generation
  rw [queue, countP_cons_of_neg (by simp)] at count
  have completed : ∀ n, .generation n ∈ senders → n = s.loop.lastCommittedBlockNumber :=
    fun n mem => inv.phases.completed n (queue ▸ mem_cons_of_mem _ mem)
  have sent : .committer ∈ senders ↔ isSending (.waiting n) = true := by
    simp [absent, isSending]
  have general : ∀ status message, (status = .blocked ∧ s.loop.snapshotInProgress = true ∧ message = none ∨
        status = .inProcess ∧ s.loop.snapshotInProgress = false ∧ message = some .commitProceed) →
      Inv (System.processed { s with committer := .waiting n } .committer senders
        ⟨{ s.loop with committerStatus := status }, message, none, []⟩) := by
    intro status message outcome
    have noResponse : ∀ r, message ≠ some (.requestResponse r) := by
      rcases outcome with ⟨_, _, rfl⟩ | ⟨_, _, rfl⟩
      · simp
      · simp
    refine ⟨Channels.receiveOther inv idle queue (by simp) sent noResponse, ?_, ?_⟩
    · exact
        { proceeding := by rcases outcome with ⟨rfl, _, rfl⟩ | ⟨rfl, _, rfl⟩ <;> simp [System.processed]
          blocked := by rcases outcome with ⟨rfl, on, rfl⟩ | ⟨rfl, off, rfl⟩ <;> simp [System.processed, *]
          waiting := by rcases outcome with ⟨rfl, _, rfl⟩ | ⟨rfl, _, rfl⟩ <;> simp [System.processed]
          committing := by simp [System.processed]
          sendingDone := by simp [System.processed]
          last := fun _ => last
          inProcess := by rcases outcome with ⟨rfl, on, rfl⟩ | ⟨rfl, off, rfl⟩ <;> simp [System.processed, *]
          generation := by simpa [System.processed] using count
          completed := completed
          running := by simpa [System.processed] using inv.phases.running
          fits := inv.phases.fits }
    · exact ⟨inv.pending.smallest, inv.pending.served, inv.pending.later, inv.pending.fits⟩
  rw [EventLoop.processCommitStart]
  split
  · rename_i inProgress
    exact general _ _ (.inl ⟨rfl, inProgress, rfl⟩)
  · rename_i notInProgress
    exact general _ _ (.inr ⟨rfl, by simpa using notInProgress, rfl⟩)

theorem Inv.receiveCommitDone (queue : s.senders = .committer :: senders) (fin : s.committer = .sendingDone n) :
    Inv (System.processed { s with committer := .idle } .committer senders (s.loop.processCommitDone n)) := by
  have nodup := inv.channels.nodup
  rw [queue] at nodup
  have absent := (nodup_cons.mp nodup).1
  obtain ⟨inProcess, committed, next⟩ := inv.phases.sendingDone n fin
  have notInProgress := inv.phases.inProcess inProcess
  have count := inv.phases.generation
  rw [queue, countP_cons_of_neg (by simp), notInProgress, Bool.toNat_false] at count
  have noGenerations : s.generations = [] := length_eq_zero_iff.mp (by omega)
  have noneCompleted : ∀ m, .generation m ∉ senders :=
    fun m mem => countP_eq_zero.mp (by omega : senders.countP isGeneration = 0) _ mem rfl
  have later := inv.later_of_sendingDone fin
  have below : n < defaultSmallestBlockNumber := committed ▸ inv.phases.fits
  obtain ⟨p, isProcessed, noMessage, status, last, pending, _, generation⟩ :=
    processCommitDone_spec inv.pending.smallest inv.pending.fits later notInProgress below
  rw [isProcessed]
  have sent : .committer ∈ senders ↔ isSending .idle = true := by simp [absent, isSending]
  refine ⟨Channels.receiveOther inv idle queue (by simp) sent (by simp [noMessage]), ?_, pending⟩
  exact
    { proceeding := by simp [System.processed, noMessage]
      blocked := by simp [System.processed, status]
      waiting := by simp [System.processed]
      committing := by simp [System.processed]
      sendingDone := by simp [System.processed]
      last := by simp [System.processed, last, committed]
      inProcess := by simp [System.processed, status]
      generation := by
        rcases generation with ⟨before, none, _⟩ | ⟨after, started, _⟩
        · simp only [System.processed, none, before, toList_none, append_nil, Bool.toNat_false]
          omega
        · simp only [System.processed, started, after, toList_some, length_append, length_singleton, Bool.toNat_true]
          omega
      completed := fun m mem => absurd mem (noneCompleted m)
      running := by
        intro g mem
        rcases generation with ⟨_, none, _⟩ | ⟨_, started, _⟩
        · simp [System.processed, none, noGenerations] at mem
        · simp only [System.processed, started, noGenerations, toList_some, nil_append, mem_singleton] at mem
          rw [mem]
          rfl
      fits := inv.phases.fits }

theorem Inv.receiveSnapshotDone (queue : s.senders = .generation n :: senders) :
    Inv (System.processed s (.generation n) senders (s.loop.processSnapshotDone n)) := by
  obtain rfl : n = s.loop.lastCommittedBlockNumber := inv.phases.completed n (queue ▸ mem_cons_self)
  have count := inv.phases.generation
  rw [queue, countP_cons_of_pos (by simp)] at count
  have inProgress := inv.inProgress_of_completed (queue ▸ mem_cons_self)
  rw [inProgress, Bool.toNat_true] at count
  obtain ⟨p, isProcessed, noGeneration, _, finished, last, pending, _, outcome⟩ :=
    processSnapshotDone_spec inv.pending inProgress
  rw [isProcessed]
  have sent : .committer ∈ senders ↔ isSending s.committer = true := by
    rw [← inv.channels.committer, queue]
    simp
  have noMessage : ∀ r, p.message ≠ some (.requestResponse r) := by
    rcases outcome with ⟨_, _, message⟩ | ⟨_, _, message⟩
    · simp [message]
    · simp [message]
  have notInProcess : s.loop.committerStatus ≠ .inProcess := by
    intro inProcess
    simp [inv.phases.inProcess inProcess] at inProgress
  refine ⟨Channels.receiveOther inv idle queue (by simp) sent noMessage, ?_, pending⟩
  exact
    { proceeding := by
        rcases outcome with ⟨blocked, after, message⟩ | ⟨notBlocked, same, message⟩
        · simpa [System.processed, message, after] using (inv.phases.blocked.mp blocked).1
        · simp [System.processed, message, same, notInProcess]
      blocked := by
        rcases outcome with ⟨_, after, _⟩ | ⟨notBlocked, same, _⟩
        · simp [System.processed, after, finished]
        · simp [System.processed, same, notBlocked, finished]
      waiting := by
        intro m waiting
        rcases outcome with ⟨_, after, _⟩ | ⟨_, same, _⟩
        · simp [System.processed, after]
        · simpa [System.processed, same] using inv.phases.waiting m waiting
      committing := fun m committing => absurd (inv.phases.committing m committing) notInProcess
      sendingDone := fun m fin => absurd (inv.phases.sendingDone m fin).1 notInProcess
      last := by simpa [System.processed, last] using inv.phases.last
      inProcess := fun _ => finished
      generation := by
        simp only [System.processed, noGeneration, finished, toList_none, append_nil, Bool.toNat_false]
        omega
      completed := by
        intro m mem
        rw [System.processed, last]
        exact inv.phases.completed m (queue ▸ mem_cons_of_mem _ mem)
      running := by simpa [System.processed, noGeneration, last] using inv.phases.running
      fits := inv.phases.fits }

end

theorem Inv.receive (inv : Inv s) {senders : List Sender} (idle : s.sending = none)
    (queue : s.senders = sender :: senders) (recv : Receives s sender event s') :
    Inv (System.processed s' sender senders (s'.loop.processEvent s'.snapshots event)) := by
  cases recv with
  | start starting => exact inv.receiveCommitStart idle queue starting
  | done fin => exact inv.receiveCommitDone idle queue fin
  | generation n => exact inv.receiveSnapshotDone idle queue
  | call found => exact inv.receiveCall idle queue found (inv.answers_request _)

theorem inv_initSnapshotMgr {committed : Nat} {snapshots requests : Finset Nat} (history : List (Entry × Nat))
    (below : committed < defaultSmallestBlockNumber) (fits : ∀ m ∈ requests, m ≤ defaultSmallestBlockNumber)
    (later : ∀ m ∈ requests, committed ≤ m) (missing : committed ∈ requests → committed ∉ snapshots) :
    Inv (System.initSnapshotMgr committed snapshots requests history) := by
  have channels : ∀ loop generations history, Channels ⟨committed, snapshots, loop, none, [], .idle, generations, [], history, []⟩ := by
    intro loop generations history
    exact ⟨by simp, by simp [isSending], by simp, by simp, by simp, by simp, by simp, by simp⟩
  rw [System.initSnapshotMgr]
  split
  · obtain ⟨p, isProcessed, noMessage, status, last, pending, _, generation⟩ :=
      @processCommitDone_spec ⟨.idle, false, committed, newSnapshotRequestBookkeeper requests⟩ committed rfl fits later rfl below
    simp only [EventLoop.processEvent, isProcessed]
    refine ⟨channels _ _ _, ?_, pending⟩
    exact
      { proceeding := by simp
        blocked := by simp [status]
        waiting := by simp
        committing := by simp
        sendingDone := by simp
        last := fun _ => last
        inProcess := by simp [status]
        generation := by
          rcases generation with ⟨off, none, _⟩ | ⟨on, started, _⟩
          · simp [off, none]
          · simp [on, started]
        completed := by simp
        running := by
          intro g mem
          rcases generation with ⟨_, none, _⟩ | ⟨_, started, _⟩
          · simp [none] at mem
          · simp only [started, toList_some, mem_singleton] at mem
            rw [mem]
            rfl
        fits := below }
  · rename_i notMissed
    have absent : committed ∉ requests := by
      intro present
      exact notMissed ⟨(smallestRequest_eq present later).symm, missing present⟩
    refine ⟨channels _ _ _, ?_, ?_⟩
    · exact
        { proceeding := by simp
          blocked := by simp
          waiting := by simp
          committing := by simp
          sendingDone := by simp
          last := fun _ => rfl
          inProcess := by simp
          generation := by simp
          completed := by simp
          running := by simp
          fits := below }
    · refine ⟨rfl, by simp, ?_, fits⟩
      intro m mem
      refine ⟨later m mem, ?_⟩
      rintro rfl
      exact absurd mem absent

theorem Inv.crash (inv : Inv s) {stored : Bool} (below : s.committed + 1 < defaultSmallestBlockNumber)
    (missing : ∀ m ∈ s.loop.snapshotRequestBookkeeper.requests, m ∉ s.snapshots) : Inv (s.crash stored) := by
  rw [System.crash]
  have last := inv.phases.last
  apply inv_initSnapshotMgr
  · split
    · split
      · omega
      · exact inv.phases.fits
    · exact inv.phases.fits
  · exact inv.pending.fits
  · intro m mem
    have least := (inv.pending.later m mem).1
    split
    · rename_i n committing
      have next := inv.later_of_inProcess (inv.phases.committing n committing) m mem
      rw [last (by simp [committing])] at next
      split
      · omega
      · omega
    · by_cases fin : ∃ n, s.committer = .sendingDone n
      · obtain ⟨n, fin⟩ := fin
        obtain ⟨_, committed, _⟩ := inv.phases.sendingDone n fin
        rw [committed]
        exact inv.later_of_sendingDone fin m mem
      · rw [last (not_exists.mp fin)] at least
        exact least
  · exact missing _

/-- There are fewer blocks than numbers, and a crash does not happen between putting a snapshot in its place and
removing its request. -/
def Label.Survivable (s : System) : Label → Prop
  | .commitBlock _ => s.committed + 1 < defaultSmallestBlockNumber
  | .crash _ => s.committed + 1 < defaultSmallestBlockNumber ∧ ∀ m ∈ s.loop.snapshotRequestBookkeeper.requests, m ∉ s.snapshots
  | _ => True

instance (s : System) (l : Label) : Decidable (Label.Survivable s l) :=
  match l with
  | .commitBlock _ => inferInstanceAs (Decidable (s.committed + 1 < defaultSmallestBlockNumber))
  | .crash _ => inferInstanceAs (Decidable (s.committed + 1 < defaultSmallestBlockNumber ∧
      ∀ m ∈ s.loop.snapshotRequestBookkeeper.requests, m ∉ s.snapshots))
  | .commitLegacy _ | .call _ | .complete _ _ | .receive | .proceed | .respond _ => .isTrue trivial

theorem Inv.step (inv : Inv s) (survivable : Label.Survivable s l) (taken : s.step l = some t) : Inv t := by
  cases moves_of_step taken with
  | startCommit idle => exact inv.startCommit idle _
  | startCall request => exact inv.startCall request
  | complete found => exact inv.complete found _
  | commitFails committing => exact inv.commitFails committing
  | commits committing next => exact inv.commits committing next survivable
  | receive idle queue recv => exact inv.receive idle queue recv
  | proceed sending waiting => exact inv.proceed sending waiting
  | respond sending found => exact inv.respond sending found
  | crash stored => exact inv.crash survivable.1 survivable.2

end Fabric.Proof.SnapshotMgmt
