import Fabric.Etcdraft.Membership

/-! # The Raft index in the metadata of a block -/

namespace Fabric.Proof.Etcdraft

open Lib Fabric.Etcdraft.Membership List Option

variable {o o' : Orderer} {c c' : Chain} {events : List ChainEvent} {lastBlock : Nat} {e : Entry}

/-- A config block whose update writes the consensus type, and with it the list of consenters. -/
def WritesConsenters (block : Block) : Prop := ∃ consenters, block = .config (some consenters)

theorem raftIndex_computeMembershipChanges {metadata : BlockMetadata} {consenters : Map Nat Consenter}
    {new : List Consenter} {changes : MembershipChanges} (computed : computeMembershipChanges metadata consenters new = .ok changes) :
    changes.newBlockMetadata.raftIndex = metadata.raftIndex := by
  unfold computeMembershipChanges at computed
  dsimp only at computed
  split at computed
  all_goals cases computed
  all_goals rfl

theorem writeBlock_cases (run : o.writeBlock e = .ok o') : o'.lastMetadata = some o'.blockMetadata ∧
      (WritesConsenters e.block ∧ o'.blockMetadata.raftIndex = o.blockMetadata.raftIndex ∨
        ¬ WritesConsenters e.block ∧ o'.blockMetadata.raftIndex = e.index) := by
  obtain ⟨index, block⟩ := e
  cases block with
  | normal =>
    cases run
    exact ⟨rfl, .inr ⟨fun ⟨_, same⟩ => (by cases same), rfl⟩⟩
  | ordererTransaction consenters =>
    cases run
    exact ⟨rfl, .inr ⟨fun ⟨_, same⟩ => (by cases same), rfl⟩⟩
  | config consenters =>
    obtain ⟨membership, detected, run⟩ := bind_eq_ok.mp run
    cases run
    refine ⟨rfl, ?_⟩
    cases consenters with
    | none =>
      cases detected
      exact .inr ⟨fun ⟨_, same⟩ => (by cases same), rfl⟩
    | some consenters =>
      unfold Orderer.detectConfChange at detected
      dsimp only at detected
      split at detected
      · rename_i changes computed
        cases detected
        exact .inl ⟨⟨consenters, rfl⟩, raftIndex_computeMembershipChanges computed⟩
      · cases detected

/-- Every block carries the index of its entry, the indices increase along the ledger, and a restart takes the
entries up to the last one that was written, and no others, for applied. -/
structure IndicesRecorded (c : Chain) : Prop where
  carried : ∀ w ∈ c.written, w.metadata.map (·.raftIndex) = some w.entryIndex
  increasing : c.written.Pairwise fun v w => v.metadata.map (·.raftIndex) < w.metadata.map (·.raftIndex)
  replayed : ∀ r, c.restart = .ok r → ∀ w ∈ c.written.getLast?, ∀ e : RaftEntry, e.index ≤ r.appliedIndex ↔ e.index ≤ w.entryIndex

/-- What every run keeps; the second part is about runs without blocks that write the consenters. -/
structure IndexInv (c : Chain) : Prop where
  behind : c.orderer.blockMetadata.raftIndex ≤ c.appliedIndex
  latest : ∀ w ∈ c.written.getLast?, c.orderer.lastMetadata = w.metadata
  stale : ∀ w ∈ c.written, WritesConsenters w.block → w.metadata.map (·.raftIndex) ≠ some w.entryIndex
  current : (∀ w ∈ c.written, ¬ WritesConsenters w.block) →
    (∀ w ∈ c.written, w.metadata.map (·.raftIndex) = some w.entryIndex ∧ w.entryIndex ≤ c.appliedIndex) ∧
      c.written.Pairwise fun v w => v.entryIndex < w.entryIndex

theorem IndexInv.applied (inv : IndexInv c) (index : Nat) : IndexInv (c.applied index) where
  behind := inv.behind.trans (le_max_left _ _)
  latest := inv.latest
  stale := inv.stale
  current none := by
    obtain ⟨recorded, increasing⟩ := inv.current none
    exact ⟨fun w mem => ⟨(recorded w mem).1, (recorded w mem).2.trans (le_max_left _ _)⟩, increasing⟩

theorem IndexInv.written (inv : IndexInv c) {number : Nat} (fresh : c.appliedIndex < e.index)
    (run : c.orderer.writeBlock e = .ok o') : IndexInv (Chain.applied { c with
      orderer := o', lastBlock := number, written := c.written ++ [⟨e.index, e.block, o'.lastMetadata⟩] } e.index) := by
  obtain ⟨recorded, kind⟩ := writeBlock_cases run
  have covers : max c.appliedIndex e.index = e.index := max_eq_right fresh.le
  constructor
  case behind =>
    show o'.blockMetadata.raftIndex ≤ max c.appliedIndex e.index
    rw [covers]
    rcases kind with ⟨_, same⟩ | ⟨_, same⟩
    · exact same.le.trans (inv.behind.trans fresh.le)
    · exact same.le
  case latest =>
    intro w mem
    have mem : w ∈ (c.written ++ [(⟨e.index, e.block, o'.lastMetadata⟩ : Written)]).getLast? := mem
    rw [getLast?_concat, mem_some_iff] at mem
    rw [← mem]
    rfl
  case stale =>
    intro w mem writes
    rcases mem_append.mp mem with earlier | last
    · exact inv.stale w earlier writes
    · obtain rfl := mem_singleton.mp last
      rcases kind with ⟨_, same⟩ | ⟨not, _⟩
      · have older := inv.behind.trans_lt fresh
        simp only [recorded, map_some, ne_eq, some.injEq, same]
        exact older.ne
      · exact absurd writes not
  case current =>
    intro none
    obtain ⟨earlier, increasing⟩ := inv.current fun w mem => none w (mem_append_left _ mem)
    have notThis := none _ (mem_append_right _ (mem_singleton_self _))
    have index : o'.blockMetadata.raftIndex = e.index := by
      rcases kind with ⟨writes, _⟩ | ⟨_, same⟩
      · exact absurd writes notThis
      · exact same
    constructor
    · intro w mem
      show _ ∧ w.entryIndex ≤ max c.appliedIndex e.index
      rw [covers]
      rcases mem_append.mp mem with before | last
      · exact ⟨(earlier w before).1, (earlier w before).2.trans fresh.le⟩
      · obtain rfl := mem_singleton.mp last
        exact ⟨by rw [recorded, map_some, index], le_rfl⟩
    · refine pairwise_append.mpr ⟨increasing, pairwise_singleton _ _, ?_⟩
      intro v before w last
      obtain rfl := mem_singleton.mp last
      exact (earlier v before).2.trans_lt fresh

theorem IndexInv.applyEntry (inv : IndexInv c) {e : RaftEntry} (run : c.applyEntry e = .ok c') : IndexInv c' := by
  unfold Chain.applyEntry at run
  split at run
  · cases run
    exact inv.applied _
  · cases run
    exact inv.applied _
  · cases run
    exact inv
  · split at run
    · cases run
      exact inv
    · rename_i notApplied
      obtain ⟨d, wrote, result⟩ := bind_eq_ok.mp run
      cases result
      unfold Chain.writeBlock at wrote
      split at wrote
      · cases wrote
      · split at wrote
        · cases wrote
          exact inv.applied _
        · obtain ⟨o', written, result⟩ := bind_eq_ok.mp wrote
          cases result
          exact IndexInv.written inv (e := ⟨e.index, _⟩) (Nat.lt_of_not_le notApplied) written

theorem IndexInv.apply (inv : IndexInv c) {ents : List RaftEntry} (run : c.apply ents = .ok c') : IndexInv c' := by
  cases ents with
  | nil =>
    cases run
    exact inv
  | cons e ents =>
    simp only [Chain.apply] at run
    split at run
    · cases run
    · exact foldlM_invariant (fun _ d => IndexInv d) run inv fun _ _ _ _ _ before step => before.applyEntry step

theorem restart_eq_ok (run : c.restart = .ok c') : c'.written = c.written ∧ c'.orderer.lastMetadata = c.orderer.lastMetadata ∧
      c'.appliedIndex = c'.orderer.blockMetadata.raftIndex ∧
      ∀ metadata, c.orderer.lastMetadata = some metadata → c'.orderer.blockMetadata = metadata := by
  obtain ⟨o, opened, result⟩ := bind_eq_ok.mp run
  cases result
  obtain ⟨consenters, _, result⟩ := bind_eq_ok.mp opened
  cases result
  refine ⟨rfl, rfl, rfl, ?_⟩
  intro metadata last
  simp [newChain, readBlockMetadata, last]

theorem IndexInv.restart (inv : IndexInv c) (run : c.restart = .ok c') : IndexInv c' := by
  obtain ⟨written, last, index, read⟩ := restart_eq_ok run
  constructor
  case behind => exact index.ge
  case latest =>
    rw [written, last]
    exact inv.latest
  case stale =>
    rw [written]
    exact inv.stale
  case current =>
    rw [written]
    intro none
    obtain ⟨recorded, increasing⟩ := inv.current none
    refine ⟨fun w mem => ⟨(recorded w mem).1, ?_⟩, increasing⟩
    obtain ⟨before, final, split⟩ := eq_nil_or_concat c.written |>.resolve_left (ne_nil_of_mem mem)
    rw [concat_eq_append] at split
    have listed : final ∈ c.written := by simp [split]
    obtain ⟨metadata, isMetadata, carried⟩ := map_eq_some_iff.mp (recorded final listed).1
    have latest := inv.latest final (by simp [split])
    rw [index, read metadata (latest.trans isMetadata), carried]
    rw [split] at mem increasing
    rcases mem_append.mp mem with earlier | isFinal
    · exact ((pairwise_append.mp increasing).2.2 w earlier final (mem_singleton_self _)).le
    · rw [mem_singleton.mp isFinal]

theorem indexInv_of_run
    (run : events.foldlM Chain.handle (newChain o lastBlock []) = .ok c) : IndexInv c := by
  refine foldlM_invariant (fun _ d => IndexInv d) run ?_ ?_
  · exact ⟨le_rfl, by simp [newChain], by simp [newChain], by simp [newChain]⟩
  · intro _ event a b _ inv step
    cases event with
    | apply ents => exact inv.apply step
    | restart => exact inv.restart step

/-- Of a chain that starts with any ledger, applies entries and restarts. -/
theorem raftIndex_recorded_iff
    (run : events.foldlM Chain.handle (newChain o lastBlock []) = .ok c) :
    IndicesRecorded c ↔ ∀ w ∈ c.written, ¬ WritesConsenters w.block := by
  have inv := indexInv_of_run run
  constructor
  · intro indices w mem writes
    exact inv.stale w mem writes (indices.carried w mem)
  · intro none
    obtain ⟨recorded, increasing⟩ := inv.current none
    constructor
    · exact fun w mem => (recorded w mem).1
    · refine increasing.imp_of_mem fun {v w} memV memW less => ?_
      rw [(recorded v memV).1, (recorded w memW).1]
      exact some_lt_some.mpr less
    · intro r opened w last e
      obtain ⟨_, _, index, read⟩ := restart_eq_ok opened
      obtain ⟨metadata, isMetadata, carried⟩ := map_eq_some_iff.mp (recorded w (mem_of_getLast? last)).1
      rw [index, read metadata ((inv.latest w last).trans isMetadata), carried]

def soleConsenter : Consenter := ⟨[1], 7050, [1], [1]⟩

def plainEvents : List ChainEvent :=
  [.apply [⟨1, .empty⟩, ⟨2, .block 1 .normal⟩], .restart, .apply [⟨2, .block 1 .normal⟩, ⟨3, .block 2 (.config none)⟩]]

theorem plainBlocks_recorded : ∃ c, plainEvents.foldlM Chain.handle (newChain (newOrderer [soleConsenter]) 0 []) = .ok c ∧
    c.written.map (·.entryIndex) = [2, 3] ∧ IndicesRecorded c := by
  refine ⟨_, rfl, rfl, (@raftIndex_recorded_iff (newOrderer [soleConsenter]) _ plainEvents 0 rfl).mpr ?_⟩
  rintro w mem ⟨consenters, writes⟩
  rcases mem_pair.mp mem with rfl | rfl
  · cases writes
  · cases writes

/-- The block of entry 2 lists the consenters in its config update, and carries the index 1. -/
theorem consenterUpdate_stale : ∃ c w, [ChainEvent.apply [⟨1, .block 1 .normal⟩,
      ⟨2, .block 2 (.config (some [soleConsenter]))⟩]].foldlM Chain.handle (newChain (newOrderer [soleConsenter]) 0 []) = .ok c ∧
    w ∈ c.written ∧ w.entryIndex = 2 ∧ w.metadata.map (·.raftIndex) = some 1 :=
  ⟨_, _, rfl, mem_cons_of_mem _ mem_cons_self, rfl, rfl⟩

end Fabric.Proof.Etcdraft
