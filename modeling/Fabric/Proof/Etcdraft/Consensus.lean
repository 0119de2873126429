import Fabric.Lib.Extract
import Fabric.Etcdraft.Consensus

/-! # Writing the blocks of committed entries -/

namespace Fabric.Proof.Etcdraft.Consensus

open Lib Fabric.Etcdraft.Consensus List

variable {Config : Type} {env : Env Config} {n n' : Node Config} {bs cs : List Block} {b : Block} {known : List Entry}

def blocksOf (entries : List Entry) : List Block := entries.filterMap Entry.block?

def lastOf (env : Env Config) (bs : List Block) : Block := bs.getLast?.getD env.genesis

structure Follows (env : Env Config) (before : List Block) (b : Block) : Prop where
  number : b.header.number = before.length + 1
  hash : b.header.previousHash = env.blockHeaderHash (lastOf env before).header
  config : ∀ envelope newConsenters, b.data = .config envelope newConsenters →
    env.validate (readConfig env before) envelope = true

def Linked (env : Env Config) (bs : List Block) : Prop := ∀ k b, bs[k]? = some b → Follows env (bs.take k) b

theorem linked_nil : Linked env [] := by
  intro k b found
  simp at found

theorem Linked.of_isPrefix (linked : Linked env cs) (part : bs <+: cs) : Linked env bs := by
  intro k b found
  have follows := linked k b (getElem?_of_isPrefix part found)
  obtain ⟨rest, rfl⟩ := part
  obtain ⟨inside, _⟩ := List.getElem?_eq_some_iff.mp found
  rw [take_append_of_le_length inside.le] at follows
  exact follows

theorem Linked.concat (linked : Linked env bs) (follows : Follows env bs b) : Linked env (bs ++ [b]) := by
  intro k c found
  by_cases inside : k < bs.length
  · rw [getElem?_append_left inside] at found
    rw [take_append_of_le_length inside.le]
    exact linked k c found
  · have last : k = bs.length := by
      have := (List.getElem?_eq_some_iff.mp found).1
      rw [length_append, length_singleton] at this
      omega
    subst last
    rw [getElem?_append_right (Nat.le_refl _), Nat.sub_self] at found
    cases found
    rw [take_left]
    exact follows

@[simp] theorem lastOf_concat : lastOf env (bs ++ [b]) = b := by
  simp [lastOf]

theorem Linked.lastOf_number (linked : Linked env bs) : (lastOf env bs).header.number = bs.length := by
  cases bs using reverseRecOn with
  | nil => exact env.first
  | append_singleton bs b =>
    rw [lastOf_concat, length_append, length_singleton]
    have follows := linked bs.length b (by simp)
    rw [take_left] at follows
    exact follows.number

theorem readConfig_append : readConfig env (bs ++ cs) = cs.foldl (fun config b => match b.data with
    | .config envelope _ => env.createBundle envelope
    | .normal _ => config) (readConfig env bs) := by
  rw [readConfig, foldl_append]
  rfl

theorem readConfig_normal (normal : ∀ c ∈ cs, isNormal c.data = true) : readConfig env (bs ++ cs) = readConfig env bs := by
  induction cs using reverseRecOn with
  | nil => rw [append_nil]
  | append_singleton cs c ih =>
    have plain := normal c (by simp)
    rw [← append_assoc, readConfig_append, ih fun d member => normal d (by simp [member])]
    cases data : c.data with
    | normal envelopes => simp [data]
    | config envelope newConsenters => simp [isNormal, data] at plain

/-- Consecutive numbers from 0 on, and each block has the hash of the one before. -/
structure HashChain (env : Env Config) (ledger : List Block) : Prop where
  numbers : ∀ (k : Nat) (b : Block), ledger[k]? = some b → b.header.number = k
  hashes : ∀ (k : Nat) (b c : Block), ledger[k]? = some b → ledger[k + 1]? = some c → c.header.previousHash = env.blockHeaderHash b.header

theorem lastOf_take {k : Nat} (found : (env.genesis :: bs)[k]? = some b) : lastOf env (bs.take k) = b := by
  cases k with
  | zero =>
    cases found
    rfl
  | succ k =>
    rw [getElem?_cons_succ] at found
    rw [take_add_one, found]
    exact lastOf_concat

theorem Linked.hashChain (linked : Linked env bs) : HashChain env (env.genesis :: bs) where
  numbers := by
    intro k b found
    cases k with
    | zero =>
      cases found
      exact env.first
    | succ k =>
      obtain ⟨inside, _⟩ := List.getElem?_eq_some_iff.mp found
      rw [length_cons] at inside
      rw [(linked k b found).number, length_take]
      omega
  hashes := by
    intro k b c found next
    rw [(linked k c next).hash, lastOf_take found]

def written (n : Node Config) : List Block := (n.ledger.map (·.block)).tail

structure Written (env : Env Config) (known : List Entry) (n : Node Config) : Prop where
  start : n.ledger.map (·.block) = env.genesis :: written n
  part : written n <+: blocksOf known
  lastBlock : n.lastBlock = lastOf env (written n)
  config : n.config = readConfig env (written n)
  ahead : n.delivered ≤ n.appliedIndex
  bound : n.appliedIndex ≤ known.length
  covered : extracted Entry.block? known n.appliedIndex ≤ (written n).length
  recorded : ∀ (k : Nat) (b : LedgerBlock), n.ledger[k]? = some b → b.raftIndex ≤ known.length ∧
    extracted Entry.block? known b.raftIndex ≤ k
  remembered : n.raftIndex ≤ known.length ∧ extracted Entry.block? known n.raftIndex ≤ (written n).length

theorem Written.ledger_length (inv : Written env known n) : n.ledger.length = (written n).length + 1 := by
  have lengths := congrArg List.length inv.start
  simpa using lengths

theorem Written.ledger_last (inv : Written env known n) : (n.ledger.getLast?.map (·.block)).getD env.genesis = lastOf env (written n) := by
  rw [← getLast?_map, inv.start, lastOf]
  cases written n <;> simp [getLast?_cons]

theorem Written.grow {known' : List Entry} (inv : Written env known n) (part : known <+: known') : Written env known' n where
  start := inv.start
  part := inv.part.trans (part.filterMap _)
  lastBlock := inv.lastBlock
  config := inv.config
  ahead := inv.ahead
  bound := inv.bound.trans part.length_le
  covered := by
    rw [extracted_of_isPrefix part inv.bound]
    exact inv.covered
  recorded := by
    intro k b found
    obtain ⟨bound, at_most⟩ := inv.recorded k b found
    rw [extracted_of_isPrefix part bound]
    exact ⟨bound.trans part.length_le, at_most⟩
  remembered := by
    rw [extracted_of_isPrefix part inv.remembered.1]
    exact ⟨inv.remembered.1.trans part.length_le, inv.remembered.2⟩

structure SameRaft (n n' : Node Config) : Prop where
  storage : n'.storage = n.storage
  log : n'.log = n.log
  commit : n'.commit = n.commit
  raftLead : n'.raftLead = n.raftLead
  applyC : n'.applyC = n.applyC
  lead : n'.lead = n.lead
  justElected : n'.justElected = n.justElected
  bc : n'.bc = n.bc
  propC : n'.propC = n.propC

theorem SameRaft.refl : SameRaft n n := ⟨rfl, rfl, rfl, rfl, rfl, rfl, rfl, rfl, rfl⟩

theorem SameRaft.trans {n'' : Node Config} (first : SameRaft n n') (second : SameRaft n' n'') : SameRaft n n'' :=
  ⟨second.storage.trans first.storage, second.log.trans first.log, second.commit.trans first.commit,
    second.raftLead.trans first.raftLead, second.applyC.trans first.applyC, second.lead.trans first.lead,
    second.justElected.trans first.justElected, second.bc.trans first.bc, second.propC.trans first.propC⟩

inductive Extends (n n' : Node Config) : Prop where
  | same (blocks : written n' = written n) (inflight : n'.configInflight = n.configInflight)
  | next (b : Block) (blocks : written n' = written n ++ [b])
      (inflight : n'.configInflight = (n.configInflight && isNormal b.data))

theorem written_append (start : n.ledger.map (·.block) = env.genesis :: written n) {raftIndex : Nat}
    (ledger : n'.ledger = n.ledger ++ [⟨b, raftIndex⟩]) : n'.ledger.map (·.block) = env.genesis :: (written n ++ [b]) := by
  rw [ledger, map_append, start]
  rfl

structure Appended (env : Env Config) (n : Node Config) (b : Block) (index : Nat) (n' : Node Config) : Prop where
  ledger : n'.ledger = n.ledger ++ [⟨b, n'.raftIndex⟩]
  raftIndex : n'.raftIndex = index ∨ n'.raftIndex = n.raftIndex
  lastBlock : n'.lastBlock = b
  config : n'.config = readConfig env (written n ++ [b])
  inflight : n'.configInflight = (n.configInflight && isNormal b.data)
  delivered : n'.delivered = n.delivered
  appliedIndex : n'.appliedIndex = n.appliedIndex
  raft : SameRaft n n'

theorem append_spec (inv : Written env known n) (follows : Follows env (written n) b) {m : Node Config} {index : Nat}
    (ledger : m.ledger = n.ledger) (raftIndex : m.raftIndex = index ∨ m.raftIndex = n.raftIndex) (lastBlock : m.lastBlock = b)
    (config : m.config = readConfig env (written n ++ [b]))
    (inflight : m.configInflight = (n.configInflight && isNormal b.data)) (delivered : m.delivered = n.delivered)
    (appliedIndex : m.appliedIndex = n.appliedIndex) (raft : SameRaft n m) :
    ∃ n', m.append env b m.raftIndex = .ok n' ∧ Appended env n b index n' := by
  have number : ¬ b.header.number ≠ m.ledger.length := by
    rw [ledger, inv.ledger_length, follows.number]
    simp
  have hash : ¬ b.header.previousHash ≠
      env.blockHeaderHash ((m.ledger.getLast?.map (·.block)).getD env.genesis).header := by
    rw [ledger, inv.ledger_last, follows.hash]
    simp
  refine ⟨{ m with ledger := m.ledger ++ [⟨b, m.raftIndex⟩] }, ?_, ?_⟩
  · unfold Node.append
    rw [if_neg number, if_neg hash]
  · exact ⟨congrArg (· ++ _) ledger, raftIndex, lastBlock, config, inflight, delivered, appliedIndex, { raft with }⟩

theorem readConfig_concat (env : Env Config) (bs : List Block) (b : Block) : readConfig env (bs ++ [b]) = match b.data with
    | .config envelope _ => env.createBundle envelope
    | .normal _ => readConfig env bs :=
  readConfig_append

theorem writeBlock_next (inv : Written env known n) (follows : Follows env (written n) b)
    (linked : Linked env (written n)) (index : Nat) : ∃ n', n.writeBlock env b index = .ok n' ∧ Appended env n b index n' := by
  have number : b.header.number = n.lastBlock.header.number + 1 := by
    rw [inv.lastBlock, linked.lastOf_number, follows.number]
  have config := readConfig_concat env (written n) b
  unfold Node.writeBlock
  rw [if_neg (by omega), if_neg (by omega)]
  cases data : b.data with
  | normal envelopes =>
    rw [data, ← inv.config] at config
    have inflight : n.configInflight = (n.configInflight && isNormal b.data) := by simp [data, isNormal]
    exact append_spec (m := { n with lastBlock := b, raftIndex := index }) inv follows rfl (.inl rfl) rfl config.symm inflight
      rfl rfl ⟨rfl, rfl, rfl, rfl, rfl, rfl, rfl, rfl, rfl⟩
  | config envelope newConsenters =>
    rw [data] at config
    have inflight : false = (n.configInflight && isNormal b.data) := by simp [data, isNormal]
    have valid : env.validate n.config envelope = true := by
      rw [inv.config]
      exact follows.config envelope newConsenters data
    simp only [Node.writeConfigBlock]
    cases newConsenters with
    | true =>
      simp only [if_true, valid]
      let m : Node Config := { n with lastBlock := b, configInflight := false, config := env.createBundle envelope }
      exact append_spec (m := m) inv follows rfl (.inr rfl) rfl config.symm inflight rfl rfl
        ⟨rfl, rfl, rfl, rfl, rfl, rfl, rfl, rfl, rfl⟩
    | false =>
      simp only [Bool.false_eq_true, if_false, valid, if_true]
      let m : Node Config :=
        { n with lastBlock := b, configInflight := false, raftIndex := index, config := env.createBundle envelope }
      exact append_spec (m := m) inv follows rfl (.inl rfl) rfl config.symm inflight rfl rfl
        ⟨rfl, rfl, rfl, rfl, rfl, rfl, rfl, rfl, rfl⟩

theorem Written.of_appended {d : Nat} (inv : Written env known n) (next : (blocksOf known)[(written n).length]? = some b)
    (inside : d + 1 ≤ known.length) (height : extracted Entry.block? known (d + 1) ≤ (written n).length + 1)
    (appended : Appended env n b (d + 1) n') : written n' = written n ++ [b] ∧ Written env known n' := by
  have start := written_append inv.start appended.ledger
  have blocks : written n' = written n ++ [b] := by rw [written, start, tail_cons]
  have longer : (written n').length = (written n).length + 1 := by rw [blocks, length_append, length_singleton]
  have remembered : n'.raftIndex ≤ known.length ∧ extracted Entry.block? known n'.raftIndex ≤ (written n).length + 1 := by
    cases appended.raftIndex with
    | inl index =>
      rw [index]
      exact ⟨inside, height⟩
    | inr old =>
      rw [old]
      exact ⟨inv.remembered.1, inv.remembered.2.trans (Nat.le_succ _)⟩
  refine ⟨blocks, ?_⟩
  constructor
  case start => rw [start, blocks]
  case part =>
    rw [blocks]
    exact concat_isPrefix inv.part next
  case lastBlock => rw [appended.lastBlock, blocks, lastOf_concat]
  case config => rw [appended.config, blocks]
  case ahead =>
    rw [appended.delivered, appended.appliedIndex]
    exact inv.ahead
  case bound =>
    rw [appended.appliedIndex]
    exact inv.bound
  case covered =>
    rw [appended.appliedIndex, longer]
    exact inv.covered.trans (Nat.le_succ _)
  case recorded =>
    intro k c found
    rw [appended.ledger] at found
    by_cases old : k < n.ledger.length
    · rw [getElem?_append_left old] at found
      exact inv.recorded k c found
    · obtain ⟨inside', _⟩ := List.getElem?_eq_some_iff.mp found
      rw [length_append, length_singleton] at inside'
      obtain rfl : k = n.ledger.length := by omega
      rw [getElem?_append_right (Nat.le_refl _), Nat.sub_self] at found
      cases found
      rw [inv.ledger_length]
      exact remembered
  case remembered =>
    rw [longer]
    exact remembered

theorem writeBlock_spec (inv : Written env known n) (linked : Linked env (blocksOf known)) {d : Nat}
    (found : known[d]? = some (.normal b)) (height : extracted Entry.block? known d ≤ (written n).length) :
    ∃ n', n.writeBlock env b (d + 1) = .ok n' ∧ Written env known n' ∧ SameRaft n n' ∧ Extends n n' ∧
      extracted Entry.block? known (d + 1) ≤ (written n').length ∧ n'.delivered = n.delivered ∧ n'.appliedIndex = n.appliedIndex := by
  have placed : (blocksOf known)[extracted Entry.block? known d]? = some b := getElem?_extracted found rfl
  have above : extracted Entry.block? known (d + 1) = extracted Entry.block? known d + 1 := extracted_succ found
  have follows := linked _ _ placed
  obtain ⟨inside, _⟩ := List.getElem?_eq_some_iff.mp found
  obtain ⟨inside', _⟩ := List.getElem?_eq_some_iff.mp placed
  have number : b.header.number = extracted Entry.block? known d + 1 := by
    rw [follows.number, length_take]
    omega
  have linked' : Linked env (written n) := linked.of_isPrefix inv.part
  have last : n.lastBlock.header.number = (written n).length := by rw [inv.lastBlock, linked'.lastOf_number]
  by_cases old : extracted Entry.block? known d < (written n).length
  · refine ⟨n, ?_, inv, .refl, .same rfl rfl, by omega, rfl, rfl⟩
    unfold Node.writeBlock
    rw [if_neg (by omega), if_pos (by omega)]
  · have same : extracted Entry.block? known d = (written n).length := by omega
    rw [same] at placed follows
    rw [← prefix_iff_eq_take.mp inv.part] at follows
    obtain ⟨n', wrote, appended⟩ := writeBlock_next inv follows linked' (d + 1)
    obtain ⟨blocks, inv'⟩ := inv.of_appended placed inside (by omega) appended
    refine ⟨n', wrote, inv', appended.raft, .next b blocks appended.inflight, ?_, appended.delivered, appended.appliedIndex⟩
    rw [blocks, length_append, length_singleton]
    omega

def proposed (n : Node Config) : List Block := blocksOf n.log ++ n.propC

/-- A serving leader creates blocks on top of what it has proposed, with at most one config block in flight. -/
structure Serving (env : Env Config) (n : Node Config) : Prop where
  linked : Linked env (proposed n)
  creator : n.bc = some ⟨env.blockHeaderHash (lastOf env (proposed n)).header, (proposed n).length⟩
  part : written n <+: proposed n
  inflight : ((proposed n).drop (written n).length).countP (fun b => !isNormal b.data) ≤ n.configInflight.toNat

theorem Serving.start (linked : Linked env (written n)) (whole : proposed n = written n) (lastBlock : n.lastBlock = lastOf env (written n))
    (creator : n.bc = some ⟨env.blockHeaderHash n.lastBlock.header, n.lastBlock.header.number⟩) : Serving env n where
  linked := whole ▸ linked
  creator := by
    rw [creator, whole, lastBlock, linked.lastOf_number]
  part := by rw [whole]
  inflight := by
    rw [whole, drop_length]
    exact Nat.zero_le _

theorem Serving.extend (serving : Serving env n) (raft : SameRaft n n') (extends' : Extends n n')
    (part : written n' <+: proposed n') : Serving env n' := by
  have same : proposed n' = proposed n := by rw [proposed, raft.log, raft.propC, proposed]
  refine ⟨same ▸ serving.linked, by rw [raft.bc, same, serving.creator], part, ?_⟩
  rw [same] at part ⊢
  cases extends' with
  | same blocks inflight =>
    rw [blocks, inflight]
    exact serving.inflight
  | next b blocks inflight =>
    rw [blocks] at part
    obtain ⟨rest, whole⟩ := part
    have before := serving.inflight
    rw [← whole, append_assoc, drop_left] at before
    rw [blocks, ← whole, drop_left, inflight]
    cases normal : isNormal b.data <;> cases waiting : n.configInflight <;> simp [normal, waiting] at before ⊢ <;> omega

theorem Serving.config (serving : Serving env n) (idle : n.configInflight = false) :
    readConfig env (proposed n) = readConfig env (written n) := by
  obtain ⟨rest, whole⟩ := serving.part
  have inflight := serving.inflight
  rw [← whole, drop_left, idle, Bool.toNat_false, Nat.le_zero, countP_eq_zero] at inflight
  rw [← whole]
  apply readConfig_normal
  intro b member
  simpa using inflight b member

theorem Serving.propose {data : BlockData} (serving : Serving env n) (idle : n.configInflight = false)
    (valid : ∀ envelope newConsenters, data = .config envelope newConsenters → env.validate (readConfig env (written n)) envelope = true) :
    ∃ b inflight, n.propose env data = .ok { n with
        bc := some ⟨env.blockHeaderHash b.header, (proposed n).length + 1⟩, propC := n.propC ++ [b], configInflight := inflight } ∧
      Follows env (proposed n) b ∧ (!isNormal b.data).toNat ≤ inflight.toNat := by
  let b : Block := ⟨⟨(proposed n).length + 1, env.blockHeaderHash (lastOf env (proposed n)).header, env.blockDataHash data⟩, data⟩
  have follows : Follows env (proposed n) b := by
    refine ⟨rfl, rfl, ?_⟩
    intro envelope newConsenters config
    rw [serving.config idle]
    exact valid envelope newConsenters config
  unfold Node.propose
  rw [serving.creator]
  cases data with
  | normal envelopes => exact ⟨b, n.configInflight, rfl, follows, by simp [b, isNormal]⟩
  | config envelope newConsenters => exact ⟨b, true, rfl, follows, by simp [b, isNormal]⟩

theorem Serving.concat {inflight : Bool} (serving : Serving env n) (idle : n.configInflight = false) (follows : Follows env (proposed n) b)
    (counted : (!isNormal b.data).toNat ≤ inflight.toNat) : Serving env { n with
      bc := some ⟨env.blockHeaderHash b.header, (proposed n).length + 1⟩, propC := n.propC ++ [b], configInflight := inflight } := by
  generalize later : ({ n with
    bc := some ⟨env.blockHeaderHash b.header, (proposed n).length + 1⟩, propC := n.propC ++ [b],
    configInflight := inflight } : Node Config) = m
  have longer : proposed m = proposed n ++ [b] := by
    rw [← later]
    simp [proposed]
  have blocks : written m = written n := by rw [← later]; rfl
  have before := serving.inflight
  rw [idle, Bool.toNat_false, Nat.le_zero] at before
  constructor
  case linked =>
    rw [longer]
    exact serving.linked.concat follows
  case creator =>
    rw [longer, lastOf_concat, length_append, length_singleton, ← later]
  case part =>
    rw [longer, blocks]
    exact serving.part.trans (prefix_append _ _)
  case inflight =>
    have single : [b].countP (fun b => !isNormal b.data) = (!isNormal b.data).toNat := by
      cases normal : isNormal b.data <;> simp [normal]
    rw [longer, blocks, drop_append_of_le_length serving.part.length_le, countP_append, before, single, Nat.zero_add, ← later]
    exact counted

end Fabric.Proof.Etcdraft.Consensus
