import Fabric.Lib.Extract
import Fabric.Etcdraft.Snapshots

/-! # Snapshots carry the last block before their index -/

namespace Fabric.Proof.Etcdraft.Snapshots

open Lib Fabric.Etcdraft.Snapshots List Option

variable {base : Block} {log : List Entry} {n n' : Node} {s : Snapshot} {pull : Nat → Option LedgerBlock}
  {b : Block} {i size limit : Nat} {entry : Entry}

def blocksOf (log : List Entry) : List Block := log.filterMap Entry.block?

def height (log : List Entry) (i : Nat) : Nat := (blocksOf (log.take i)).length

def Paired (log : List Entry) (s : Snapshot) : Prop := (blocksOf (log.take s.index)).getLast? = some s.block

structure Consecutive (base : Block) (log : List Entry) : Prop where
  first : base.number = 0
  next : ∀ k b, (blocksOf log)[k]? = some b → b.number = k + 1

theorem Consecutive.number (inOrder : Consecutive base log) {k : Nat} (found : (base :: blocksOf log)[k]? = some b) : b.number = k := by
  cases k with
  | zero =>
    cases found
    exact inOrder.first
  | succ k => exact inOrder.next k b found

theorem height_succ (found : log[i]? = some entry) : height log (i + 1) = height log i + entry.block?.toList.length :=
  extracted_succ found

theorem block_at_height (base : Block) (found : log[i]? = some (.normal b size)) : (base :: blocksOf log)[height log i + 1]? = some b := by
  rw [getElem?_cons_succ]
  exact getElem?_extracted found rfl

theorem Paired.block_at (base : Block) (paired : Paired log s) : (base :: blocksOf log)[height log s.index]? = some s.block := by
  unfold Paired at paired
  have nonempty : 0 < height log s.index := by
    unfold height
    cases blocks : blocksOf (log.take s.index) with
    | nil => simp [blocks] at paired
    | cons b bs => simp
  obtain ⟨k, same⟩ := Nat.exists_eq_succ_of_ne_zero (Nat.pos_iff_ne_zero.mp nonempty)
  rw [same, getElem?_cons_succ]
  rw [getLast?_eq_getElem?, show (blocksOf (log.take s.index)).length - 1 = k by unfold height at same; omega] at paired
  exact getElem?_of_isPrefix filterMap_take_isPrefix paired

structure LedgerInv (base : Block) (log : List Entry) (n : Node) : Prop where
  part : n.ledger.map (·.block) <+: base :: blocksOf log
  last : n.ledger.getLast?.map (·.block) = some n.lastBlock
  recorded : ∀ k b, n.ledger[k]? = some b → height log b.raftIndex ≤ k
  remembered : height log n.raftIndex < n.ledger.length

theorem LedgerInv.lastNumber (inv : LedgerInv base log n) (inOrder : Consecutive base log) : n.lastBlock.number + 1 = n.ledger.length := by
  obtain ⟨b, found, same⟩ := map_eq_some_iff.mp inv.last
  have nonempty : 0 < n.ledger.length := by
    cases ledger : n.ledger with
    | nil => simp [ledger] at found
    | cons b bs => simp
  rw [getLast?_eq_getElem?] at found
  have mapped : (n.ledger.map (·.block))[n.ledger.length - 1]? = some b.block := by simp [found]
  have whole := getElem?_of_isPrefix inv.part mapped
  have := inOrder.number whole
  rw [← same]
  omega

theorem LedgerInv.append (inv : LedgerInv base log n) {b : LedgerBlock}
    (next : (base :: blocksOf log)[n.ledger.length]? = some b.block) (recorded : height log b.raftIndex ≤ n.ledger.length)
    (ledger : n'.ledger = n.ledger ++ [b]) (lastBlock : n'.lastBlock = b.block)
    (remembered : height log n'.raftIndex ≤ n.ledger.length) : LedgerInv base log n' where
  part := by
    rw [ledger, map_append, map_singleton]
    obtain ⟨rest, whole⟩ := inv.part
    rw [← whole] at next ⊢
    rw [getElem?_append_right (by simp), length_map, Nat.sub_self] at next
    cases rest with
    | nil => simp at next
    | cons first rest =>
      cases next
      exact ⟨rest, by simp⟩
  last := by simp [ledger, lastBlock]
  recorded := by
    intro k c found
    rw [ledger] at found
    by_cases old : k < n.ledger.length
    · rw [getElem?_append_left old] at found
      exact inv.recorded k c found
    · rw [getElem?_append_right (Nat.le_of_not_lt old)] at found
      have here : k - n.ledger.length = 0 := by
        cases gap : k - n.ledger.length with
        | zero => rfl
        | succ m => simp [gap] at found
      rw [here] at found
      cases found
      omega
  remembered := by
    rw [ledger, length_append, length_singleton]
    omega

structure NodeInv (base : Block) (log : List Entry) (n : Node) : Prop extends LedgerInv base log n where
  covered : height log n.appliedIndex < n.ledger.length
  applied : n.delivered ≤ n.appliedIndex
  stored : n.delivered ≤ n.lastIndex
  snapshot : ∀ s, n.snapshot = some s → Paired log s ∧ s.index ≤ n.delivered
  gc : ∀ s, n.gc = some s → Paired log s ∧ s.index ≤ n.delivered
  taken : ∀ s ∈ n.taken, Paired log s

structure SameSnapshots (n n' : Node) : Prop where
  snapshot : n'.snapshot = n.snapshot
  lastIndex : n'.lastIndex = n.lastIndex
  gc : n'.gc = n.gc
  taken : n'.taken = n.taken

theorem setSizeLimit_eq (n : Node) (metadata : Option ConfigMetadata) : ∃ size, n.setSizeLimit metadata = { n with sizeLimit := size } := by
  unfold Node.setSizeLimit
  split
  · split
    · exact ⟨_, rfl⟩
    · exact ⟨n.sizeLimit, rfl⟩
  · exact ⟨n.sizeLimit, rfl⟩

-- The next block is appended with the index of its entry or, for new consenters, with an earlier one.
theorem writeBlock_eq (index : Nat) (next : b.number = n.lastBlock.number + 1) :
    ∃ size r, n.writeBlock b index = .ok { n with
        sizeLimit := size, raftIndex := r, ledger := n.ledger ++ [⟨b, r⟩], lastBlock := b } ∧
      (r = index ∨ r = n.raftIndex) := by
  unfold Node.writeBlock
  rw [if_neg (by omega), if_neg (by omega)]
  match b.type with
  | .normal => exact ⟨n.sizeLimit, index, rfl, .inl rfl⟩
  | .ordererTransaction _ => exact ⟨n.sizeLimit, index, rfl, .inl rfl⟩
  | .config none => exact ⟨n.sizeLimit, index, rfl, .inl rfl⟩
  | .config (some m) =>
    obtain ⟨size, limited⟩ := setSizeLimit_eq n (some m)
    refine ⟨size, n.raftIndex, ?_, .inr rfl⟩
    simp [Node.writeConfigBlock, limited, Node.append]

theorem writeBlock_spec (inOrder : Consecutive base log) (inv : LedgerInv base log n) {d : Nat}
    (found : log[d]? = some (.normal b size)) (covered : height log d < n.ledger.length) :
    ∃ n', n.writeBlock b (d + 1) = .ok n' ∧ LedgerInv base log n' ∧ height log (d + 1) < n'.ledger.length ∧
      SameSnapshots n n' ∧ n'.delivered = n.delivered ∧ n'.appliedIndex = n.appliedIndex := by
  have placed := block_at_height base found
  have number := inOrder.number placed
  have last := inv.lastNumber inOrder
  have above : height log (d + 1) = height log d + 1 := height_succ found
  by_cases old : b.number < n.lastBlock.number + 1
  · refine ⟨n, ?_, inv, by omega, ⟨rfl, rfl, rfl, rfl⟩, rfl, rfl⟩
    unfold Node.writeBlock
    rw [if_neg (by omega), if_pos old]
  · have here : height log d + 1 = n.ledger.length := by omega
    rw [here] at placed
    obtain ⟨size, r, written, index⟩ := writeBlock_eq (n := n) (b := b) (d + 1) (by omega)
    have recorded : height log r ≤ n.ledger.length := by
      cases index with
      | inl now =>
        rw [now, above]
        omega
      | inr before =>
        rw [before]
        exact Nat.le_of_lt inv.remembered
    refine ⟨_, written, inv.append placed recorded rfl rfl recorded, ?_, ⟨rfl, rfl, rfl, rfl⟩, rfl, rfl⟩
    show height log (d + 1) < (n.ledger ++ [_]).length
    rw [length_append, length_singleton]
    omega

theorem applyEntry_spec (inOrder : Consecutive base log) (inv : LedgerInv base log n)
    (covered : height log n.appliedIndex < n.ledger.length) (applied : n.delivered ≤ n.appliedIndex)
    (found : log[n.delivered]? = some entry) :
    ∃ n', n.applyEntry entry = .ok n' ∧ LedgerInv base log n' ∧ height log n'.appliedIndex < n'.ledger.length ∧
      SameSnapshots n n' ∧ n'.delivered = n.delivered + 1 ∧ n'.appliedIndex = max n.appliedIndex (n.delivered + 1) := by
  have advance : ∀ m : Node, LedgerInv base log m → height log (max n.appliedIndex (n.delivered + 1)) < m.ledger.length →
      SameSnapshots n m → m.delivered = n.delivered → m.appliedIndex = n.appliedIndex →
      ∃ n', (Except.ok { m with delivered := n.delivered + 1, appliedIndex := max m.appliedIndex (n.delivered + 1) } : Result Node) =
          .ok n' ∧ LedgerInv base log n' ∧ height log n'.appliedIndex < n'.ledger.length ∧
        SameSnapshots n n' ∧ n'.delivered = n.delivered + 1 ∧ n'.appliedIndex = max n.appliedIndex (n.delivered + 1) := by
    intro m inv' covered' same _ index
    refine ⟨_, rfl, { inv' with }, ?_, { same with }, rfl, by rw [index]⟩
    rw [index]
    exact covered'
  have quiet : entry.block? = none → height log (max n.appliedIndex (n.delivered + 1)) < n.ledger.length := by
    intro none
    by_cases replayed : n.delivered + 1 ≤ n.appliedIndex
    · rwa [max_eq_left replayed]
    · have same : n.appliedIndex = n.delivered := by omega
      rw [max_eq_right (by omega), height_succ found, none, ← same]
      simpa using covered
  match entry, found, quiet with
  | .empty, _, quiet => exact advance n inv (quiet rfl) ⟨rfl, rfl, rfl, rfl⟩ rfl rfl
  | .confChange, _, quiet => exact advance n inv (quiet rfl) ⟨rfl, rfl, rfl, rfl⟩ rfl rfl
  | .normal block size, found, _ =>
    let m : Node := { n with accDataSize := (n.accDataSize + size) % 2 ^ 32 }
    have inv' : LedgerInv base log m := { inv with }
    by_cases replayed : n.delivered + 1 ≤ n.appliedIndex
    · have skipped : n.applyEntry (.normal block size) =
          .ok { m with delivered := n.delivered + 1, appliedIndex := max m.appliedIndex (n.delivered + 1) } := by
        simp only [Node.applyEntry, replayed, if_true]
        rfl
      rw [skipped]
      exact advance m inv' (by rwa [max_eq_left replayed]) ⟨rfl, rfl, rfl, rfl⟩ rfl rfl
    · have same : n.appliedIndex = n.delivered := by omega
      obtain ⟨m', written, inv'', covered', kept, delivered, index⟩ := writeBlock_spec inOrder inv' found (same ▸ covered)
      have taken : n.applyEntry (.normal block size) =
          .ok { m' with delivered := n.delivered + 1, appliedIndex := max m'.appliedIndex (n.delivered + 1) } := by
        simp only [Node.applyEntry, replayed, if_false]
        exact bind_eq_ok.mpr ⟨m', written, rfl⟩
      rw [taken]
      apply advance m' inv'' _ { kept with } delivered index
      rwa [max_eq_right (by omega)]

theorem foldlM_applyEntry_spec (inOrder : Consecutive base log) (ents : List Entry) (inv : LedgerInv base log n)
    (covered : height log n.appliedIndex < n.ledger.length) (applied : n.delivered ≤ n.appliedIndex) (batch : ents <+: log.drop n.delivered) :
    ∃ n', ents.foldlM Node.applyEntry n = .ok n' ∧ LedgerInv base log n' ∧ height log n'.appliedIndex < n'.ledger.length ∧
      SameSnapshots n n' ∧ n'.delivered = n.delivered + ents.length ∧ n'.appliedIndex = max n.appliedIndex (n.delivered + ents.length) := by
  induction ents generalizing n with
  | nil => exact ⟨n, rfl, inv, covered, ⟨rfl, rfl, rfl, rfl⟩, rfl, (max_eq_left applied).symm⟩
  | cons entry ents ih =>
    have found : log[n.delivered]? = some entry := by
      have first := getElem?_of_isPrefix batch (i := 0) (a := entry) rfl
      rwa [getElem?_drop, Nat.add_zero] at first
    obtain ⟨m, taken, inv', covered', same, delivered, index⟩ := applyEntry_spec inOrder inv covered applied found
    have rest : ents <+: log.drop m.delivered := by
      obtain ⟨later, whole⟩ := batch
      refine ⟨later, ?_⟩
      rw [delivered, ← drop_drop, ← whole]
      rfl
    have ahead : m.delivered ≤ m.appliedIndex := by
      rw [delivered, index]
      exact le_max_right _ _
    obtain ⟨n', ran, inv'', covered'', same', delivered', index'⟩ := ih inv' covered' ahead rest
    refine ⟨n', ?_, inv'', covered'', ?_, ?_, ?_⟩
    · rw [foldlM_cons]
      exact bind_eq_ok.mpr ⟨m, taken, ran⟩
    · exact ⟨same'.snapshot.trans same.snapshot, same'.lastIndex.trans same.lastIndex, same'.gc.trans same.gc, same'.taken.trans same.taken⟩
    · rw [delivered', delivered, length_cons]
      omega
    · rw [index', index, delivered, length_cons]
      omega

def accumulated (acc : Nat) (ents : List Entry) : Nat :=
  ents.foldl (fun acc entry => match entry with
    | .normal _ size => (acc + size) % 2 ^ 32
    | _ => acc) acc

theorem foldlM_applyEntry_replayed (ents : List Entry) (replayed : n.delivered + ents.length ≤ n.appliedIndex) :
    ents.foldlM Node.applyEntry n = .ok { n with delivered := n.delivered + ents.length, accDataSize := accumulated n.accDataSize ents } := by
  induction ents generalizing n with
  | nil => rfl
  | cons entry ents ih =>
    rw [length_cons] at replayed
    have here : n.delivered + 1 ≤ n.appliedIndex := by omega
    have step : n.applyEntry entry = .ok { n with delivered := n.delivered + 1, accDataSize := accumulated n.accDataSize [entry] } := by
      cases entry with
      | normal block size =>
        simp only [Node.applyEntry, here, if_true]
        simp [bind, Except.bind, accumulated, max_eq_left here]
      | empty => simp [Node.applyEntry, bind, Except.bind, accumulated, max_eq_left here]
      | confChange => simp [Node.applyEntry, bind, Except.bind, accumulated, max_eq_left here]
    rw [foldlM_cons, step]
    have later := ih (n := { n with delivered := n.delivered + 1, accDataSize := accumulated n.accDataSize [entry] })
      (by simp only; omega)
    refine later.trans ?_
    simp only [length_cons, accumulated, foldl_cons, foldl_nil]
    congr 2
    omega

/-- Entries that are replayed do not reach the size at which a snapshot is due. -/
def ReplayFits (n : Node) (ents : List Entry) : Prop :=
  n.delivered + ents.length < n.appliedIndex → accumulated n.accDataSize ents < n.sizeLimit

theorem NodeInv.apply (inOrder : Consecutive base log) (inv : NodeInv base log n) {ents : List Entry} {gcIdle : Bool}
    (batch : ents <+: log.drop n.delivered) (stored : n.delivered + ents.length ≤ n.lastIndex) (fits : ReplayFits n ents) :
    ∃ n', n.apply ents gcIdle = .ok n' ∧ NodeInv base log n' := by
  obtain ⟨m, ran, inv', covered, same, delivered, index⟩ :=
    foldlM_applyEntry_spec inOrder ents inv.toLedgerInv inv.covered inv.applied batch
  have inv'' : NodeInv base log m := by
    refine ⟨inv', covered, ?_, ?_, ?_, ?_, ?_⟩
    · rw [delivered, index]
      exact le_max_right _ _
    · rw [delivered, same.lastIndex]
      exact stored
    · rw [same.snapshot, delivered]
      intro s taken
      exact ⟨(inv.snapshot s taken).1, Nat.le_add_right_of_le (inv.snapshot s taken).2⟩
    · rw [same.gc, delivered]
      intro s requested
      exact ⟨(inv.gc s requested).1, Nat.le_add_right_of_le (inv.gc s requested).2⟩
    · rw [same.taken]
      exact inv.taken
  have started : ¬ n.appliedIndex + 1 < n.delivered + 1 := by
    have := inv.applied
    omega
  have result : n.apply ents gcIdle = (ents.filterMap Entry.block?).getLast?.elim (.ok m) fun block =>
      if m.sizeLimit ≤ m.accDataSize ∧ gcIdle = true ∧ m.gc = none then .ok (m.requestSnapshot block) else .ok m := by
    unfold Node.apply
    rw [if_neg started, ran]
    cases (ents.filterMap Entry.block?).getLast? <;> rfl
  rw [result]
  cases position : (ents.filterMap Entry.block?).getLast? with
  | none => exact ⟨m, rfl, inv''⟩
  | some block =>
    rw [Option.elim_some]
    by_cases due : m.sizeLimit ≤ m.accDataSize ∧ gcIdle = true ∧ m.gc = none
    · rw [if_pos due]
      -- The batch reaches the applied index, or the accumulated size would be too small.
      have reached : m.appliedIndex = n.delivered + ents.length := by
        by_contra short
        have replayed : n.delivered + ents.length < n.appliedIndex := by omega
        rw [foldlM_applyEntry_replayed ents (Nat.le_of_lt replayed)] at ran
        cases ran
        have := fits replayed
        exact absurd due.1 (by simpa using this)
      have paired : Paired log ⟨m.appliedIndex, block⟩ := by
        have split : log.take (n.delivered + ents.length) = log.take n.delivered ++ ents := by
          rw [take_add]
          congr 1
          exact (prefix_iff_eq_take.mp batch).symm
        show (blocksOf (log.take m.appliedIndex)).getLast? = some block
        rw [reached, split]
        unfold blocksOf
        rw [filterMap_append, getLast?_append, position]
        rfl
      refine ⟨_, rfl, { inv'' with gc := ?_, taken := ?_ }⟩
      · intro s requested
        cases requested
        refine ⟨paired, ?_⟩
        show m.appliedIndex ≤ m.delivered
        omega
      · intro s mem
        cases mem_append.mp mem with
        | inl old => exact inv''.taken s old
        | inr new =>
          cases mem_singleton.mp new
          exact paired
    · rw [if_neg due]
      exact ⟨m, rfl, inv''⟩

theorem NodeInv.takeSnapshot (inv : NodeInv base log n) (requested : n.gc = some s) :
    ∃ n', n.takeSnapshot s = .ok n' ∧ NodeInv base log n' := by
  obtain ⟨paired, delivered⟩ := inv.gc s requested
  have stored : s.index ≤ n.lastIndex := delivered.trans inv.stored
  unfold Node.takeSnapshot
  split
  · exact ⟨_, rfl, { inv with gc := nofun }⟩
  · rw [if_neg (by omega)]
    refine ⟨_, rfl, { inv with snapshot := ?_, gc := nofun }⟩
    intro t same
    cases same
    exact ⟨paired, delivered⟩

def Pulls (base : Block) (log : List Entry) (pull : Nat → Option LedgerBlock) (limit : Nat) : Prop :=
  ∀ k ≤ limit, ∃ b, pull k = some b ∧ (base :: blocksOf log)[k]? = some b.block ∧ height log b.raftIndex ≤ k

structure Fetched (n n' : Node) : Prop extends SameSnapshots n n' where
  delivered : n'.delivered = n.delivered
  appliedIndex : n'.appliedIndex = n.appliedIndex

theorem Fetched.trans {m : Node} (first : Fetched n m) (second : Fetched m n') : Fetched n n' :=
  ⟨⟨second.snapshot.trans first.snapshot, second.lastIndex.trans first.lastIndex, second.gc.trans first.gc,
    second.taken.trans first.taken⟩, second.delivered.trans first.delivered, second.appliedIndex.trans first.appliedIndex⟩

theorem LedgerInv.commitBlock (inv : LedgerInv base log n) {b : LedgerBlock}
    (next : (base :: blocksOf log)[n.ledger.length]? = some b.block) (recorded : height log b.raftIndex ≤ n.ledger.length) :
    LedgerInv base log (n.commitBlock b) ∧ (n.commitBlock b).ledger.length = n.ledger.length + 1 ∧ Fetched n (n.commitBlock b) := by
  have remembered := Nat.le_of_lt inv.remembered
  unfold Node.commitBlock
  split
  · exact ⟨inv.append next recorded rfl rfl remembered, by simp [Node.append], ⟨⟨rfl, rfl, rfl, rfl⟩, rfl, rfl⟩⟩
  all_goals
    rename_i metadata _
    obtain ⟨size, limited⟩ := setSizeLimit_eq (n.append b.block b.raftIndex) metadata
    rw [limited]
    exact ⟨inv.append next recorded rfl rfl remembered, by simp [Node.append], ⟨⟨rfl, rfl, rfl, rfl⟩, rfl, rfl⟩⟩

theorem pullBlocks_spec (inOrder : Consecutive base log) (pulls : Pulls base log pull limit) (missing : Nat)
    (inv : LedgerInv base log n) (enough : n.lastBlock.number + missing ≤ limit) :
    ∃ n', n.pullBlocks pull missing = .ok n' ∧ LedgerInv base log n' ∧ n'.ledger.length = n.ledger.length + missing ∧ Fetched n n' := by
  induction missing generalizing n with
  | zero => exact ⟨n, rfl, inv, rfl, ⟨⟨rfl, rfl, rfl, rfl⟩, rfl, rfl⟩⟩
  | succ missing ih =>
    obtain ⟨b, pulled, next, recorded⟩ := pulls (n.lastBlock.number + 1) (by omega)
    rw [inv.lastNumber inOrder] at next recorded
    obtain ⟨inv', length, fetched⟩ := inv.commitBlock next recorded
    have number := inv.lastNumber inOrder
    have number' := inv'.lastNumber inOrder
    obtain ⟨n', ran, inv'', length', fetched'⟩ := ih inv' (by omega)
    refine ⟨n', ?_, inv'', by omega, fetched.trans fetched'⟩
    rw [Node.pullBlocks, pulled]
    exact ran

theorem catchUp_spec (inOrder : Consecutive base log) (paired : Paired log s)
    (pulls : Pulls base log pull s.block.number) (inv : LedgerInv base log n) :
    ∃ n', n.catchUp s pull = .ok n' ∧ LedgerInv base log n' ∧ height log s.index < n'.ledger.length ∧
      n.ledger.length ≤ n'.ledger.length ∧
      Fetched n n' := by
  have placed := paired.block_at base
  have number := inOrder.number placed
  have last := inv.lastNumber inOrder
  unfold Node.catchUp
  by_cases behind : s.block.number ≤ n.lastBlock.number
  · rw [if_pos behind]
    exact ⟨n, rfl, inv, by omega, Nat.le_refl _, ⟨⟨rfl, rfl, rfl, rfl⟩, rfl, rfl⟩⟩
  · rw [if_neg behind]
    by_cases next : s.block.number = n.lastBlock.number + 1
    · rw [if_pos next]
      have here : height log s.index = n.ledger.length := by omega
      rw [here] at placed
      obtain ⟨inv', length, fetched⟩ := inv.commitBlock (b := ⟨s.block, 0⟩) placed (Nat.zero_le _)
      exact ⟨_, rfl, inv', by omega, by omega, fetched⟩
    · rw [if_neg next]
      obtain ⟨n', ran, inv', length, fetched⟩ := pullBlocks_spec inOrder pulls (s.block.number - n.lastBlock.number) inv (by omega)
      exact ⟨n', ran, inv', by omega, by omega, fetched⟩

structure Restarted (base : Block) (log : List Entry) (n : Node) (s : Snapshot) : Prop extends LedgerInv base log n where
  covered : height log n.appliedIndex < n.ledger.length
  delivered : n.delivered = s.index
  stored : s.index ≤ n.lastIndex
  snapshot : n.snapshot = some s
  gc : ∀ t, n.gc = some t → Paired log t ∧ t.index ≤ n.delivered
  taken : ∀ t ∈ n.taken, Paired log t

section

variable (inOrder : Consecutive base log)
include inOrder

theorem Restarted.recover (paired : Paired log s) (pulls : Pulls base log pull s.block.number) (inv : Restarted base log n s) :
    ∃ n', n.recover s pull = .ok n' ∧ NodeInv base log n' := by
  unfold Node.recover
  have snapshots : ∀ t, n.snapshot = some t → Paired log t ∧ t.index ≤ n.delivered := by
    intro t same
    rw [inv.snapshot] at same
    cases same
    exact ⟨paired, inv.delivered.ge⟩
  by_cases ahead : s.index ≤ n.appliedIndex
  · rw [if_pos ahead]
    exact ⟨n, rfl, ⟨inv.toLedgerInv, inv.covered, inv.delivered ▸ ahead, inv.delivered ▸ inv.stored, snapshots, inv.gc, inv.taken⟩⟩
  · rw [if_neg ahead]
    have inv' : LedgerInv base log { n with appliedIndex := s.index } := { inv with }
    obtain ⟨n', ran, inv'', covered, -, fetched⟩ := catchUp_spec inOrder paired pulls inv'
    refine ⟨n', ran, ⟨inv'', ?_, ?_, ?_, ?_, ?_, ?_⟩⟩
    · rw [fetched.appliedIndex]
      exact covered
    · rw [fetched.delivered, fetched.appliedIndex]
      exact Nat.le_of_eq inv.delivered
    · rw [fetched.delivered, fetched.lastIndex]
      exact inv.delivered ▸ inv.stored
    · rw [fetched.snapshot, fetched.delivered]
      exact snapshots
    · rw [fetched.gc, fetched.delivered]
      exact inv.gc
    · rw [fetched.taken]
      exact inv.taken

theorem LedgerInv.surviving (inv : LedgerInv base log n) (lost : Bool) :
    ∃ last, (n.survivingLedger lost).getLast? = some last ∧ (n.survivingLedger lost).map (·.block) <+: base :: blocksOf log ∧
      (∀ k b, (n.survivingLedger lost)[k]? = some b → height log b.raftIndex ≤ k) ∧
      height log last.raftIndex < (n.survivingLedger lost).length := by
  have length := inv.lastNumber inOrder
  have shorter : n.survivingLedger lost <+: n.ledger ∧ n.survivingLedger lost ≠ [] := by
    unfold Node.survivingLedger
    split
    · rename_i gone
      simp only [Bool.and_eq_true, decide_eq_true_eq] at gone
      constructor
      · exact dropLast_prefix _
      · intro none
        have := congrArg List.length none
        rw [length_dropLast, length_nil] at this
        omega
    · refine ⟨prefix_refl _, ?_⟩
      intro none
      rw [none] at length
      simp at length
  obtain ⟨part, nonempty⟩ := shorter
  have recorded : ∀ k b, (n.survivingLedger lost)[k]? = some b → height log b.raftIndex ≤ k := by
    intro k b found
    exact inv.recorded k b (getElem?_of_isPrefix part found)
  refine ⟨_, getLast?_eq_some_getLast nonempty, (List.IsPrefix.map _ part).trans inv.part, recorded, ?_⟩
  have last := getLast?_eq_some_getLast nonempty
  rw [getLast?_eq_getElem?] at last
  have positive := length_pos_of_ne_nil nonempty
  have := recorded _ _ last
  omega

theorem NodeInv.restart (inv : NodeInv base log n) (lost : Bool) (pulls : ∀ s, n.snapshot = some s → Pulls base log pull s.block.number) :
    ∃ n', n.restart lost base pull = .ok n' ∧ NodeInv base log n' := by
  obtain ⟨last, found, part, recorded, covered⟩ := inv.toLedgerInv.surviving inOrder lost
  unfold Node.restart
  simp only [found, getD_some]
  cases taken : n.snapshot with
  | none =>
    refine ⟨_, rfl, ⟨⟨part, by simp [found], recorded, covered⟩, covered, Nat.zero_le _, Nat.zero_le _, ?_, ?_, inv.taken⟩⟩
    · intro s same
      cases same
    · intro s same
      cases same
  | some s =>
    obtain ⟨paired, delivered⟩ := inv.snapshot s taken
    apply Restarted.recover inOrder paired (pulls s taken)
    refine ⟨⟨part, by simp [found], recorded, covered⟩, covered, rfl, delivered.trans inv.stored, rfl, ?_, inv.taken⟩
    intro t same
    cases same

theorem NodeInv.restore (inv : NodeInv base log n) (paired : Paired log s)
    (pulls : Pulls base log pull s.block.number) (newer : n.delivered < s.index) :
    ∃ n', Node.recover { n with snapshot := some s, lastIndex := s.index, delivered := s.index } s pull = .ok n' ∧ NodeInv base log n' := by
  apply Restarted.recover inOrder paired pulls
  refine ⟨{ inv.toLedgerInv with }, inv.covered, rfl, Nat.le_refl _, rfl, ?_, inv.taken⟩
  intro t requested
  exact ⟨(inv.gc t requested).1, ((inv.gc t requested).2.trans_lt newer).le⟩

end

theorem NodeInv.newNode : NodeInv base log (newNode base) := by
  refine ⟨⟨?_, rfl, ?_, ?_⟩, ?_, Nat.le_refl _, Nat.le_refl _, ?_, ?_, ?_⟩
  · exact ⟨blocksOf log, rfl⟩
  · intro k b found
    cases k with
    | zero =>
      cases found
      exact Nat.le_refl _
    | succ k => simp [Etcdraft.Snapshots.newNode] at found
  · exact Nat.one_pos
  · exact Nat.one_pos
  · intro s same
    cases same
  · intro s same
    cases same
  · intro s mem
    cases mem

variable {c c' : Cluster}

def Available (c : Cluster) : Step → Prop
  | .restart node _ source => ∀ s, (c node).snapshot = some s → ∀ k ≤ s.block.number, (c.pull source k).isSome
  | .restore _ sender source => ∀ s, (c sender).snapshot = some s → ∀ k ≤ s.block.number, (c.pull source k).isSome
  | _ => True

def StepFits (log : List Entry) (c : Cluster) : Step → Prop
  | .apply node count _ => ReplayFits (c node) (c.batch log node count)
  | _ => True

theorem pulls_of_available (inv : ∀ node, NodeInv base log (c node)) {source : Nat → Nat}
    (available : ∀ k ≤ limit, (c.pull source k).isSome) : Pulls base log (c.pull source) limit := by
  intro k small
  obtain ⟨b, found⟩ := isSome_iff_exists.mp (available k small)
  refine ⟨b, found, ?_, (inv (source k)).recorded k b found⟩
  apply getElem?_of_isPrefix (inv (source k)).part
  rw [List.getElem?_map, show (c (source k)).ledger[k]? = some b from found]
  rfl

theorem inv_update (inv : ∀ node, NodeInv base log (c node)) {node : Nat} (changed : NodeInv base log n) :
    ∀ other, NodeInv base log (Function.update c node n other) := by
  intro other
  by_cases same : other = node
  · subst same
    rwa [Function.update_self]
  · rw [Function.update_of_ne same]
    exact inv other

theorem step_spec (inOrder : Consecutive base log) (inv : ∀ node, NodeInv base log (c node)) (step : Step)
    (available : Available c step) (fits : StepFits log c step) :
    (∃ c', c.step base log step = .ok c' ∧ ∀ node, NodeInv base log (c' node)) ∨ ∃ msg, c.step base log step = .error (.error msg) := by
  have update : ∀ (node : Nat) (x : Result Node), (∃ n', x = .ok n' ∧ NodeInv base log n') →
      ∃ c', (x >>= fun n => (.ok (Function.update c node n) : Result Cluster)) = .ok c' ∧ ∀ node, NodeInv base log (c' node) := by
    intro node x ⟨n', ran, inv'⟩
    rw [ran]
    exact ⟨_, rfl, inv_update inv inv'⟩
  cases step with
  | store node lastIndex =>
    simp only [Cluster.step]
    split
    · rename_i kept
      obtain ⟨ledger, covered, applied, -, snapshot, gc, taken⟩ := inv node
      exact .inl ⟨_, rfl, inv_update inv ⟨{ ledger with }, covered, applied, kept, snapshot, gc, taken⟩⟩
    · exact .inr ⟨_, rfl⟩
  | apply node count gcIdle =>
    simp only [Cluster.step]
    split
    · rename_i enough
      have length : (c.batch log node count).length = count := by
        unfold Cluster.batch
        rw [length_take, length_drop]
        omega
      refine .inl (update node _ ((inv node).apply inOrder ?_ ?_ fits))
      · exact take_prefix _ _
      · rw [length]
        omega
    · exact .inr ⟨_, rfl⟩
  | takeSnapshot node =>
    simp only [Cluster.step]
    split
    · exact .inr ⟨_, rfl⟩
    · rename_i s requested
      exact .inl (update node _ ((inv node).takeSnapshot requested))
  | restart node lost source =>
    apply Or.inl
    apply update node
    apply (inv node).restart inOrder
    intro s taken
    exact pulls_of_available inv (available s taken)
  | restore node sender source =>
    simp only [Cluster.step]
    split
    · exact .inr ⟨_, rfl⟩
    · rename_i s taken
      split
      · rename_i newer
        exact .inl (update node _ ((inv node).restore inOrder ((inv sender).snapshot s taken).1
          (pulls_of_available inv (available s taken)) newer))
      · exact .inr ⟨_, rfl⟩

/-- If the log holds one block after the other and replayed entries stay below the snapshot size, every snapshot carries
the last block at or below its index, the ledgers are parts of one chain, and no step panics. -/
theorem snapshots_carry_last_block (inOrder : Consecutive base log) {steps : List Step}
    (run : Reaches (fun c step => (c.step base log step).toOption) (fun c step => Available c step ∧ StepFits log c step)
      (newCluster base) steps c) :
    (∀ node, ∀ s ∈ (c node).taken, Paired log s) ∧
    (∀ node, (c node).ledger.map (·.block) <+: base :: blocksOf log ∧ height log (c node).appliedIndex < (c node).ledger.length) ∧
    ∀ step, Available c step → StepFits log c step → ∀ msg, c.step base log step ≠ .error (.panic msg) := by
  have inv : ∀ node, NodeInv base log (c node) := by
    apply run.invariant (fun _ c => ∀ node, NodeInv base log (c node)) (fun _ => NodeInv.newNode)
    intro _ c step c' inv allowed taken
    have result := toOption_eq_some.mp taken
    cases step_spec inOrder inv step allowed.1 allowed.2 with
    | inl done =>
      obtain ⟨c'', same, inv'⟩ := done
      cases result.symm.trans same
      exact inv'
    | inr failed =>
      obtain ⟨msg, same⟩ := failed
      cases result.symm.trans same
  refine ⟨fun node => (inv node).taken, fun node => ⟨(inv node).part, (inv node).covered⟩, ?_⟩
  intro step available fits msg panicked
  cases step_spec inOrder inv step available fits with
  | inl done =>
    obtain ⟨c', same, -⟩ := done
    cases panicked.symm.trans same
  | inr failed =>
    obtain ⟨msg', same⟩ := failed
    cases panicked.symm.trans same

def genesisBlock : Block := ⟨0, .config (some ⟨100⟩), []⟩

def numbered (number : Nat) : Block := ⟨number, .normal, [0]⟩

def threeBlocks : List Entry := [.empty, .normal (numbered 1) 120, .normal (numbered 2) 10, .normal (numbered 3) 10]

-- The snapshot of the first block is not on disk when the node stops; it is requested again during the replay.
def interruptedSnapshot : List Step :=
  [.store 0 4, .apply 0 2 true, .apply 0 1 true, .restart 0 false fun _ => 0, .apply 0 2 true, .takeSnapshot 0,
   .restore 1 0 fun _ => 0, .store 1 4]

theorem consecutive_threeBlocks : Consecutive genesisBlock threeBlocks := by
  refine ⟨rfl, ?_⟩
  intro k b found
  have blocks : blocksOf threeBlocks = [numbered 1, numbered 2, numbered 3] := rfl
  rw [blocks] at found
  match k with
  | 0 => cases found; rfl
  | 1 => cases found; rfl
  | 2 => cases found; rfl
  | k + 3 => cases found

instance decidableAvailable (c : Cluster) : (step : Step) → Decidable (Available c step)
  | .store _ _ | .apply _ _ _ | .takeSnapshot _ => inferInstanceAs (Decidable True)
  | .restart node _ source =>
    decidable_of_iff (∀ s ∈ (c node).snapshot, ∀ k < s.block.number + 1, (c.pull source k).isSome = true) (by
      simp only [Available, mem_def, Nat.lt_succ_iff])
  | .restore _ sender source =>
    decidable_of_iff (∀ s ∈ (c sender).snapshot, ∀ k < s.block.number + 1, (c.pull source k).isSome = true) (by
      simp only [Available, mem_def, Nat.lt_succ_iff])

instance decidableStepFits (log : List Entry) (c : Cluster) : (step : Step) → Decidable (StepFits log c step)
  | .store _ _ | .takeSnapshot _ | .restart _ _ _ | .restore _ _ _ => inferInstanceAs (Decidable True)
  | .apply node count _ => inferInstanceAs (Decidable ((c node).delivered + (c.batch log node count).length < (c node).appliedIndex →
      accumulated (c node).accDataSize (c.batch log node count) < (c node).sizeLimit))

/-- The snapshot requested during the replay has the index of the last block and an earlier block, and a node restored
from it panics at the next entry. -/
theorem interruptedSnapshot_mispaired : Consecutive genesisBlock threeBlocks ∧
    ∃ c, Reaches (fun c step => (c.step genesisBlock threeBlocks step).toOption) Available (newCluster genesisBlock)
        interruptedSnapshot c ∧
      (∃ s ∈ (c 0).taken, ¬ Paired threeBlocks s) ∧
      c.step genesisBlock threeBlocks (.apply 1 1 false) = .error (.panic "Got block [3], expect block [2]") := by
  refine ⟨consecutive_threeBlocks, ?_⟩
  have evaluated : ((checkRun (fun c step => (c.step genesisBlock threeBlocks step).toOption) Available
      (newCluster genesisBlock) interruptedSnapshot).any fun c =>
        (c 0).taken.any (fun s => (blocksOf (threeBlocks.take s.index)).getLast? != some s.block) &&
        match c.step genesisBlock threeBlocks (.apply 1 1 false) with
        | .error failure => failure == .panic "Got block [3], expect block [2]"
        | .ok _ => false) = true := by
    decide +kernel
  obtain ⟨c, run, read⟩ := (Option.any_eq_true ..).mp evaluated
  rw [Bool.and_eq_true] at read
  refine ⟨c, reaches_of_checkRun run, ?_, ?_⟩
  · obtain ⟨s, mem, differ⟩ := List.any_eq_true.mp read.1
    exact ⟨s, mem, by simpa [Paired] using differ⟩
  · have panicked := read.2
    split at panicked
    · rename_i failure result
      rw [result, beq_iff_eq.mp panicked]
    · cases panicked

def finishedSnapshot : List Step :=
  [.store 0 4, .apply 0 2 true, .takeSnapshot 0, .apply 0 1 true, .restart 0 false fun _ => 0, .apply 0 1 true,
   .restore 1 0 fun _ => 0, .store 1 4, .apply 1 2 true]

theorem finishedSnapshot_carriesLastBlock :
    ∃ c : Cluster, (c 1).lastBlock = numbered 3 ∧ (c 0).taken ≠ [] ∧ ∀ node, ∀ s ∈ (c node).taken, Paired threeBlocks s := by
  have evaluated : ((checkRun (fun c step => (c.step genesisBlock threeBlocks step).toOption)
      (fun c step => Available c step ∧ StepFits threeBlocks c step)
      (newCluster genesisBlock) finishedSnapshot).any fun c =>
        (c 1).lastBlock == numbered 3 && !(c 0).taken.isEmpty) = true := by
    decide +kernel
  obtain ⟨c, run, read⟩ := (Option.any_eq_true ..).mp evaluated
  simp only [Bool.and_eq_true, beq_iff_eq, Bool.not_eq_true', isEmpty_eq_false_iff] at read
  exact ⟨c, read.1, read.2, (snapshots_carry_last_block consecutive_threeBlocks (reaches_of_checkRun run)).1⟩

end Fabric.Proof.Etcdraft.Snapshots
