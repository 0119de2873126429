import Fabric.Proof.SnapshotMgmt.Invariant

/-! # What the event loop does with an event -/

namespace Fabric.Proof.SnapshotMgmt

open Lib Fabric.Ledger.SnapshotMgmt

def outstanding (l : EventLoop) (m : Nat) : Nat :=
  if m ∈ l.snapshotRequestBookkeeper.requests ∧ ¬ (l.snapshotInProgress = true ∧ m = l.lastCommittedBlockNumber) then 1 else 0

def Balanced (l : EventLoop) (p : Processed) : Prop :=
  ∀ m, p.entries.count (.accepted m) + outstanding l m =
    p.entries.count (.cancelled m) + p.entries.count (.started m) + outstanding p.loop m

variable {l : EventLoop} (pending : Pending l)

structure Answers (l : EventLoop) (p : Processed) : Prop where
  response : ∃ r, p.message = some (.requestResponse r)
  status : p.loop.committerStatus = l.committerStatus
  last : p.loop.lastCommittedBlockNumber = l.lastCommittedBlockNumber
  pending : Pending p.loop
  balanced : Balanced l p
  generation : p.loop.snapshotInProgress = l.snapshotInProgress ∧ p.generation = none ∧ (∀ n, .started n ∉ p.entries) ∨
    l.committerStatus = .idle ∧ l.snapshotInProgress = false ∧ p.loop.snapshotInProgress = true ∧
      p.generation = some ⟨some l.lastCommittedBlockNumber⟩ ∧ ∀ n, .started n ∈ p.entries → n = l.lastCommittedBlockNumber

include pending

theorem answers_respond (r : Result Unit) : Answers l (l.respond r) where
  response := ⟨r, rfl⟩
  status := rfl
  last := rfl
  pending := pending
  balanced := by simp [Balanced, EventLoop.respond]
  generation := .inl ⟨rfl, rfl, by simp [EventLoop.respond]⟩

theorem answers_requestCancel (n : Nat) : Answers l (l.processRequestCancel n) := by
  rw [EventLoop.processRequestCancel]
  split
  · exact answers_respond pending _
  · rename_i notServed
    by_cases present : n ∈ l.snapshotRequestBookkeeper.requests
    · rw [delete_eq pending.smallest present]
      exact
        { response := ⟨_, rfl⟩
          status := rfl
          last := rfl
          pending :=
            { smallest := rfl
              served := by
                intro inProgress
                apply Finset.mem_erase.mpr
                exact ⟨fun same => notServed ⟨inProgress, same.symm⟩, pending.served inProgress⟩
              later := fun m mem => pending.later m (Finset.mem_of_mem_erase mem)
              fits := fun m mem => pending.fits m (Finset.mem_of_mem_erase mem) }
          balanced := by
            intro m
            simp only [outstanding, newSnapshotRequestBookkeeper, Finset.mem_erase]
            by_cases same : m = n
            · rw [same, if_pos ⟨present, notServed⟩, if_neg (by simp)]
              simp
            · have other : n ≠ m := Ne.symm same
              simp [same, other]
          generation := .inl ⟨rfl, rfl, by simp⟩ }
    · rw [SnapshotRequestBookkeeper.delete, if_pos present]
      exact answers_respond pending _

theorem answers_requestAdd (snapshots : Finset Nat) {n : Nat} (fits : n ≤ defaultSmallestBlockNumber)
    (below : l.lastCommittedBlockNumber < defaultSmallestBlockNumber) : Answers l (l.processRequestAdd snapshots n) := by
  rw [EventLoop.processRequestAdd]
  have least : l.lastCommittedBlockNumber ≤ l.leastAcceptableBlockNum ∧
      (l.leastAcceptableBlockNum = l.lastCommittedBlockNumber → l.committerStatus = .idle) ∧
      l.leastAcceptableBlockNum ≤ defaultSmallestBlockNumber := by
    rw [EventLoop.leastAcceptableBlockNum]
    split
    · exact ⟨by omega, by omega, by omega⟩
    · rename_i idle
      exact ⟨by omega, fun _ => not_not.mp idle, by omega⟩
  obtain ⟨m, isRequested, fitsM⟩ : ∃ m, (if n = 0 then l.leastAcceptableBlockNum else n) = m ∧ m ≤ defaultSmallestBlockNumber := by
    split
    · exact ⟨_, rfl, least.2.2⟩
    · exact ⟨_, rfl, fits⟩
  simp only [isRequested]
  split
  · exact answers_respond pending _
  · rename_i acceptable
    split
    · exact answers_respond pending _
    · by_cases present : m ∈ l.snapshotRequestBookkeeper.requests
      · rw [SnapshotRequestBookkeeper.add, if_pos present]
        exact answers_respond pending _
      · rw [add_eq pending.smallest fitsM present]
        simp only
        split
        · -- The request is for the last block, and its generation starts.
          rename_i isLast
          obtain ⟨idle, rfl⟩ := isLast
          have notInProgress : l.snapshotInProgress = false := by
            by_contra inProgress
            exact present (pending.served (by simpa using inProgress))
          exact
            { response := ⟨_, rfl⟩
              status := rfl
              last := rfl
              pending :=
                { smallest := rfl
                  served := fun _ => Finset.mem_insert_self _ _
                  later := by
                    intro k mem
                    refine ⟨?_, fun _ => rfl⟩
                    rcases Finset.mem_insert.mp mem with rfl | old
                    · exact le_rfl
                    · exact (pending.later k old).1
                  fits := by
                    intro k mem
                    rcases Finset.mem_insert.mp mem with rfl | old
                    · exact fitsM
                    · exact pending.fits k old }
              balanced := by
                intro k
                simp only [outstanding, newSnapshotRequestBookkeeper, Finset.mem_insert, notInProgress]
                by_cases same : k = l.lastCommittedBlockNumber
                · rw [same, if_neg (by simp [present]), if_neg (by simp)]
                  simp
                · have other : l.lastCommittedBlockNumber ≠ k := Ne.symm same
                  simp [same, other]
              generation := .inr ⟨idle, notInProgress, rfl, rfl, by simp⟩ }
        · rename_i notLast
          have later : l.lastCommittedBlockNumber < m := by
            rcases Nat.lt_or_ge l.lastCommittedBlockNumber m with less | notLess
            · exact less
            · have same : m = l.lastCommittedBlockNumber := by omega
              exact absurd ⟨least.2.1 (by omega), same⟩ notLast
          exact
            { response := ⟨_, rfl⟩
              status := rfl
              last := rfl
              pending :=
                { smallest := rfl
                  served := fun inProgress => Finset.mem_insert_of_mem (pending.served inProgress)
                  later := by
                    intro k mem
                    rcases Finset.mem_insert.mp mem with rfl | old
                    · exact ⟨later.le, fun same => absurd same later.ne'⟩
                    · exact pending.later k old
                  fits := by
                    intro k mem
                    rcases Finset.mem_insert.mp mem with rfl | old
                    · exact fitsM
                    · exact pending.fits k old }
              balanced := by
                intro k
                simp only [outstanding, newSnapshotRequestBookkeeper, Finset.mem_insert]
                by_cases same : k = m
                · rw [same, if_neg (by simp [present]), if_pos ⟨.inl rfl, by simp [later.ne']⟩]
                  simp
                · have other : m ≠ k := Ne.symm same
                  simp [same, other]
              generation := .inl ⟨rfl, rfl, by simp⟩ }

theorem processSnapshotDone_spec (inProgress : l.snapshotInProgress = true) :
    ∃ p, l.processSnapshotDone l.lastCommittedBlockNumber = p ∧ p.generation = none ∧ p.entries = [] ∧
      p.loop.snapshotInProgress = false ∧ p.loop.lastCommittedBlockNumber = l.lastCommittedBlockNumber ∧ Pending p.loop ∧ Balanced l p ∧
      (l.committerStatus = .blocked ∧ p.loop.committerStatus = .inProcess ∧ p.message = some .commitProceed ∨
        l.committerStatus ≠ .blocked ∧ p.loop.committerStatus = l.committerStatus ∧ p.message = none) := by
  have present := pending.served inProgress
  have still : ∀ status, Pending ⟨status, false, l.lastCommittedBlockNumber,
      newSnapshotRequestBookkeeper (l.snapshotRequestBookkeeper.requests.erase l.lastCommittedBlockNumber)⟩ := by
    intro status
    exact
      { smallest := rfl
        served := by simp
        later := by
          intro m mem
          obtain ⟨other, old⟩ := Finset.mem_erase.mp mem
          exact ⟨(pending.later m old).1, fun same => absurd same other⟩
        fits := fun m mem => pending.fits m (Finset.mem_of_mem_erase mem) }
  have balanced : ∀ status message, Balanced l ⟨⟨status, false, l.lastCommittedBlockNumber,
      newSnapshotRequestBookkeeper (l.snapshotRequestBookkeeper.requests.erase l.lastCommittedBlockNumber)⟩,
      message, none, []⟩ := by
    intro status message m
    simp [outstanding, newSnapshotRequestBookkeeper, inProgress, and_comm]
  rw [EventLoop.processSnapshotDone, delete_eq pending.smallest present]
  by_cases blocked : l.committerStatus = .blocked
  · exact ⟨_, if_pos blocked, rfl, rfl, rfl, rfl, still _, balanced _ _, .inl ⟨blocked, rfl, rfl⟩⟩
  · exact ⟨_, if_neg blocked, rfl, rfl, rfl, rfl, still _, balanced _ _, .inr ⟨blocked, rfl, rfl⟩⟩

omit pending

theorem processCommitDone_spec {n : Nat}
    (smallest : l.snapshotRequestBookkeeper.smallestRequestBlockNum = smallestRequest l.snapshotRequestBookkeeper.requests)
    (fits : ∀ m ∈ l.snapshotRequestBookkeeper.requests, m ≤ defaultSmallestBlockNumber)
    (later : ∀ m ∈ l.snapshotRequestBookkeeper.requests, n ≤ m) (notInProgress : l.snapshotInProgress = false)
    (below : n < defaultSmallestBlockNumber) : ∃ p, l.processCommitDone n = p ∧ p.message = none ∧ p.loop.committerStatus = .idle ∧
      p.loop.lastCommittedBlockNumber = n ∧ Pending p.loop ∧ Balanced l p ∧
      (p.loop.snapshotInProgress = false ∧ p.generation = none ∧ p.entries = [] ∨
        p.loop.snapshotInProgress = true ∧ p.generation = some ⟨none⟩ ∧ p.entries = [.started n]) := by
  rw [EventLoop.processCommitDone]
  by_cases isSmallest : n = l.snapshotRequestBookkeeper.smallestRequestBlockNum
  · have present : n ∈ l.snapshotRequestBookkeeper.requests :=
      mem_of_smallestRequest_eq (smallest.symm.trans isSmallest.symm) below
    refine ⟨_, if_neg (not_not.mpr isSmallest), rfl, rfl, rfl, ?_, ?_, .inr ⟨rfl, rfl, rfl⟩⟩
    · exact ⟨smallest, fun _ => present, fun m mem => ⟨later m mem, fun _ => rfl⟩, fits⟩
    · intro m
      simp only [outstanding, notInProgress]
      by_cases same : m = n
      · simp [same, present]
      · have other : n ≠ m := Ne.symm same
        simp [same, other]
  · have absent : n ∉ l.snapshotRequestBookkeeper.requests := by
      intro present
      exact isSmallest (smallest.trans (smallestRequest_eq present later)).symm
    refine ⟨_, if_pos isSmallest, rfl, rfl, rfl, ?_, ?_, .inl ⟨notInProgress, rfl, rfl⟩⟩
    · refine ⟨smallest, fun inProgress => ?_, fun m mem => ⟨later m mem, ?_⟩, fits⟩
      · simp [notInProgress] at inProgress
      · rintro rfl
        exact absurd mem absent
    · intro m
      simp [outstanding, notInProgress]

end Fabric.Proof.SnapshotMgmt
