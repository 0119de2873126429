import Fabric.Ledger.SnapshotMgmt

/-! # Where the goroutines of the snapshot manager are -/

namespace Fabric.Proof.SnapshotMgmt

open Fabric.Ledger.SnapshotMgmt

def Committer.isSending : Committer → Bool
  | .sendingStart _ => true
  | .sendingDone _ => true
  | _ => false

def Sender.isGeneration : Sender → Bool
  | .generation _ => true
  | _ => false

structure Channels (s : System) : Prop where
  nodup : s.senders.Nodup
  committer : .committer ∈ s.senders ↔ Committer.isSending s.committer = true
  sending : ∀ i, .call i ∈ s.senders ↔ ∃ request, s.calls[i]? = some ⟨request, .sending⟩
  responding : ∀ r, s.sending = some (.requestResponse r) → ∃ i, s.answers.getLast? = some (i, r)
  waiting : ∀ i, (∃ request, s.calls[i]? = some ⟨request, .waiting⟩) ↔
    ∃ r, s.sending = some (.requestResponse r) ∧ s.answers.getLast? = some (i, r)
  returned : ∀ i request r, s.calls[i]? = some ⟨request, .returned r⟩ → (i, r) ∈ s.answers
  answered : ∀ i r, (i, r) ∈ s.answers → ∃ call, s.calls[i]? = some call ∧ call.state ≠ .sending
  once : (s.answers.map Prod.fst).Nodup

structure Phases (s : System) : Prop where
  proceeding : s.sending = some .commitProceed ↔ (∃ n, s.committer = .waiting n) ∧ s.loop.committerStatus = .inProcess
  blocked : s.loop.committerStatus = .blocked ↔ (∃ n, s.committer = .waiting n) ∧ s.loop.snapshotInProgress = true
  waiting : ∀ n, s.committer = .waiting n → s.loop.committerStatus ≠ .idle
  committing : ∀ n, s.committer = .committing n → s.loop.committerStatus = .inProcess
  sendingDone : ∀ n, s.committer = .sendingDone n →
    s.loop.committerStatus = .inProcess ∧ s.committed = n ∧ n = s.loop.lastCommittedBlockNumber + 1
  last : (∀ n, s.committer ≠ .sendingDone n) → s.loop.lastCommittedBlockNumber = s.committed
  inProcess : s.loop.committerStatus = .inProcess → s.loop.snapshotInProgress = false
  generation : s.generations.length + s.senders.countP Sender.isGeneration = s.loop.snapshotInProgress.toNat
  completed : ∀ n, .generation n ∈ s.senders → n = s.loop.lastCommittedBlockNumber
  running : ∀ g ∈ s.generations, g.requestedBlockNum.getD s.loop.lastCommittedBlockNumber = s.loop.lastCommittedBlockNumber
  fits : s.committed < defaultSmallestBlockNumber

structure Pending (l : EventLoop) : Prop where
  smallest : l.snapshotRequestBookkeeper.smallestRequestBlockNum = smallestRequest l.snapshotRequestBookkeeper.requests
  served : l.snapshotInProgress = true → l.lastCommittedBlockNumber ∈ l.snapshotRequestBookkeeper.requests
  later : ∀ n ∈ l.snapshotRequestBookkeeper.requests, l.lastCommittedBlockNumber ≤ n ∧
    (n = l.lastCommittedBlockNumber → l.snapshotInProgress = true)
  fits : ∀ n ∈ l.snapshotRequestBookkeeper.requests, n ≤ defaultSmallestBlockNumber

structure Inv (s : System) : Prop where
  channels : Channels s
  phases : Phases s
  pending : Pending s.loop

variable {requests : Finset Nat} {n : Nat} {k : SnapshotRequestBookkeeper}

theorem smallestRequest_empty : smallestRequest ∅ = defaultSmallestBlockNumber := rfl

theorem smallestRequest_le (mem : n ∈ requests) : smallestRequest requests ≤ n := by
  obtain ⟨m, isMin⟩ := Finset.min_of_mem mem
  rw [smallestRequest, isMin, WithTop.untopD_coe]
  exact Finset.min_le_of_eq mem isMin

theorem smallestRequest_mem (mem : n ∈ requests) : smallestRequest requests ∈ requests := by
  obtain ⟨m, isMin⟩ := Finset.min_of_mem mem
  rw [smallestRequest, isMin, WithTop.untopD_coe]
  exact Finset.mem_of_min isMin

theorem smallestRequest_eq (mem : n ∈ requests) (least : ∀ m ∈ requests, n ≤ m) : smallestRequest requests = n :=
  le_antisymm (smallestRequest_le mem) (least _ (smallestRequest_mem mem))

theorem mem_of_smallestRequest_eq (least : smallestRequest requests = n) (below : n < defaultSmallestBlockNumber) : n ∈ requests := by
  rcases requests.eq_empty_or_nonempty with rfl | ⟨m, mem⟩
  · rw [smallestRequest_empty] at least
    omega
  · rw [← least]
    exact smallestRequest_mem mem

theorem smallestRequest_insert (fits : n ≤ defaultSmallestBlockNumber) :
    smallestRequest (insert n requests) = if n < smallestRequest requests then n else smallestRequest requests := by
  rcases requests.eq_empty_or_nonempty with rfl | ⟨m, mem⟩
  · rw [smallestRequest_empty]
    have single : smallestRequest (insert n ∅) = n := smallestRequest_eq (by simp) (by simp)
    rw [single]
    split
    · rfl
    · omega
  · split
    · rename_i less
      apply smallestRequest_eq (Finset.mem_insert_self n requests)
      intro k memK
      rcases Finset.mem_insert.mp memK with rfl | old
      · exact le_rfl
      · exact less.le.trans (smallestRequest_le old)
    · rename_i notLess
      apply smallestRequest_eq (Finset.mem_insert_of_mem (smallestRequest_mem mem))
      intro k memK
      rcases Finset.mem_insert.mp memK with rfl | old
      · exact not_lt.mp notLess
      · exact smallestRequest_le old

theorem smallestRequest_erase (other : smallestRequest requests ≠ n) : smallestRequest (requests.erase n) = smallestRequest requests := by
  rcases requests.eq_empty_or_nonempty with rfl | ⟨m, mem⟩
  · rfl
  · apply smallestRequest_eq (Finset.mem_erase.mpr ⟨other, smallestRequest_mem mem⟩)
    intro k memK
    exact smallestRequest_le (Finset.mem_of_mem_erase memK)

theorem add_eq (smallest : k.smallestRequestBlockNum = smallestRequest k.requests)
    (fits : n ≤ defaultSmallestBlockNumber) (absent : n ∉ k.requests) :
    k.add n = .ok (newSnapshotRequestBookkeeper (insert n k.requests)) := by
  rw [SnapshotRequestBookkeeper.add, if_neg absent, newSnapshotRequestBookkeeper, smallestRequest_insert fits, smallest]

theorem delete_eq (smallest : k.smallestRequestBlockNum = smallestRequest k.requests)
    (present : n ∈ k.requests) : k.delete n = .ok (newSnapshotRequestBookkeeper (k.requests.erase n)) := by
  rw [SnapshotRequestBookkeeper.delete, if_neg (not_not.mpr present), newSnapshotRequestBookkeeper, smallest]
  by_cases isSmallest : smallestRequest k.requests = n
  · rw [if_neg (not_not.mpr isSmallest)]
  · rw [if_pos isSmallest, smallestRequest_erase isSmallest]

end Fabric.Proof.SnapshotMgmt
