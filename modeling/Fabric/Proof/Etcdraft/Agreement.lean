import Fabric.Proof.Etcdraft.Consensus

/-! # Orderers agree when no cancelled proposer reaches Raft -/

namespace Fabric.Proof.Etcdraft.Consensus

open Lib Fabric.Etcdraft.Consensus List Entry

variable {Config : Type} {env : Env Config} {n n' : Node Config} {b : Block} {known : List Entry}
  {entry : Entry} {data : BlockData} {app : Apply}

def knownEntries (n : Node Config) : List Entry := n.log.take n.commit

def Told (n : Node Config) : Prop := n.lead = true ∨ ∃ app, n.applyC = some app ∧ app.lead = true

structure RaftInv (env : Env Config) (n : Node Config) : Prop where
  commit : n.commit ≤ n.log.length
  stored : n.storage.take n.commit = knownEntries n
  log : Linked env (blocksOf n.log)
  storage : Linked env (blocksOf n.storage)
  ledger : Written env (knownEntries n) n

structure NodeInv (env : Env Config) (n : Node Config) : Prop extends RaftInv env n where
  handed : ∀ app, n.applyC = some app → app.entries <+: (knownEntries n).drop n.delivered
  idle : n.lead = false ∨ n.justElected = true → n.propC = []
  fresh : n.raftLead = true → Told n → (n.lead = true → n.justElected = true) → blocksOf n.storage = blocksOf n.log
  serving : n.raftLead = true → n.lead = true → n.justElected = false → Serving env n

theorem Serving.congr (serving : Serving env n) (same : proposed n' = proposed n) (blocks : written n' = written n)
    (creator : n'.bc = n.bc) (inflight : n'.configInflight = n.configInflight) : Serving env n' where
  linked := same ▸ serving.linked
  creator := by rw [creator, same, serving.creator]
  part := by rw [same, blocks]; exact serving.part
  inflight := by rw [same, blocks, inflight]; exact serving.inflight

theorem Told.leads (told : Told n) (taken : n.applyC = none) : n.lead = true := by
  rcases told with lead | ⟨app, found, _⟩
  · exact lead
  · rw [taken] at found
    cases found

theorem knownEntries_length (inv : RaftInv env n) : (knownEntries n).length = n.commit := by
  rw [knownEntries, length_take]
  exact Nat.min_eq_left inv.commit

theorem blocksOf_knownEntries_isPrefix : blocksOf (knownEntries n) <+: blocksOf n.log := filterMap_take_isPrefix

theorem RaftInv.congr (inv : RaftInv env n) (storage : n'.storage = n.storage) (log : n'.log = n.log) (commit : n'.commit = n.commit)
    (ledger : Written env (knownEntries n) n') : RaftInv env n' := by
  have known : knownEntries n' = knownEntries n := by rw [knownEntries, log, commit, knownEntries]
  constructor
  case commit => rw [commit, log]; exact inv.commit
  case stored => rw [storage, commit, known]; exact inv.stored
  case log => rw [log]; exact inv.log
  case storage => rw [storage]; exact inv.storage
  case ledger => rw [known]; exact ledger

theorem applyEntry_spec {entries : List Entry} (inv : Written env entries n) (linked : Linked env (blocksOf entries))
    (found : entries[n.delivered]? = some entry) :
    ∃ n', n.applyEntry env entry = .ok n' ∧ Written env entries n' ∧ SameRaft n n' ∧ Extends n n' ∧ n'.delivered = n.delivered + 1 := by
  obtain ⟨inside, _⟩ := List.getElem?_eq_some_iff.mp found
  have finish (m : Node Config) (inv' : Written env entries m) (raft : SameRaft n m) (more : Extends n m)
      (delivered : m.delivered = n.delivered) (applied : m.appliedIndex = n.appliedIndex)
      (covered : extracted block? entries (n.delivered + 1) ≤ (written m).length) :
      ∃ n', (.ok { m with delivered := n.delivered + 1, appliedIndex := max m.appliedIndex (n.delivered + 1) } :
          Result (Node Config)) = .ok n' ∧
        Written env entries n' ∧ SameRaft n n' ∧ Extends n n' ∧ n'.delivered = n.delivered + 1 := by
    refine ⟨_, rfl, ?_, { raft with }, ?_, rfl⟩
    · refine { inv' with ahead := Nat.le_max_right _ _, bound := Nat.max_le.mpr ⟨inv'.bound, inside⟩, covered := ?_ }
      show extracted _ _ (max m.appliedIndex (n.delivered + 1)) ≤ _
      rcases Nat.le_total m.appliedIndex (n.delivered + 1) with below | above
      · rw [Nat.max_eq_right below]
        exact covered
      · rw [Nat.max_eq_left above]
        exact inv'.covered
    · cases more with
      | same blocks inflight => exact .same blocks inflight
      | next b blocks inflight => exact .next b blocks inflight
  have ahead := inv.ahead
  -- An entry that is skipped or has no block adds nothing to the blocks that are covered.
  have nothing (empty : entry.block? = none ∨ n.delivered + 1 ≤ n.appliedIndex) :
      extracted block? entries (n.delivered + 1) ≤ (written n).length := by
    cases empty with
    | inl empty =>
      rw [extracted_succ found, empty]
      exact (extracted_mono ahead).trans inv.covered
    | inr skipped => exact (extracted_mono skipped).trans inv.covered
  unfold Node.applyEntry
  match entry, found, nothing with
  | .empty, _, nothing | .confChange, _, nothing =>
    exact finish n inv .refl (.same rfl rfl) rfl rfl (nothing (.inl rfl))
  | .normal b, found, nothing =>
    by_cases skipped : n.delivered + 1 ≤ n.appliedIndex
    · simp only [if_pos skipped]
      exact finish n inv .refl (.same rfl rfl) rfl rfl (nothing (.inr skipped))
    · obtain ⟨m, wrote, inv', raft, more, covered, delivered, applied⟩ :=
        writeBlock_spec inv linked found ((extracted_mono ahead).trans inv.covered)
      simp only [if_neg skipped, wrote]
      exact finish m inv' raft more delivered applied covered

structure LeaderInv (env : Env Config) (n : Node Config) : Prop where
  idle : n.lead = false ∨ n.justElected = true → n.propC = []
  fresh : n.raftLead = true → n.lead = true → n.justElected = true → blocksOf n.storage = blocksOf n.log
  serving : n.raftLead = true → n.lead = true → n.justElected = false → Serving env n

theorem LeaderInv.extend (inv : LeaderInv env n) (raft : SameRaft n n') (more : Extends n n') (part : written n' <+: blocksOf n'.log) :
    LeaderInv env n' where
  idle := by
    rw [raft.lead, raft.justElected, raft.propC]
    exact inv.idle
  fresh := by
    rw [raft.raftLead, raft.lead, raft.justElected, raft.storage, raft.log]
    exact inv.fresh
  serving := by
    rw [raft.raftLead, raft.lead, raft.justElected]
    intro raftLead lead elected
    exact (inv.serving raftLead lead elected).extend raft more (part.trans (prefix_append _ _))

theorem apply_spec {ents : List Entry} (linked : Linked env (blocksOf known)) (inv : Written env known n) (leader : LeaderInv env n)
    (next : ents <+: known.drop n.delivered) (part : blocksOf known <+: blocksOf n.log) :
    ∃ n', n.apply env ents = .ok n' ∧ Written env known n' ∧ SameRaft n n' ∧ LeaderInv env n' := by
  have ahead := inv.ahead
  unfold Node.apply
  rw [if_neg (by omega)]
  clear ahead
  induction ents generalizing n with
  | nil => exact ⟨n, rfl, inv, .refl, leader⟩
  | cons entry ents ih =>
    have found : known[n.delivered]? = some entry := by
      have first := getElem?_of_isPrefix next (i := 0) (a := entry) rfl
      rwa [getElem?_drop, Nat.add_zero] at first
    obtain ⟨m, applied, inv', raft, more, delivered⟩ := applyEntry_spec inv linked found
    have leader' : LeaderInv env m := by
      apply leader.extend raft more
      rw [raft.log]
      exact inv'.part.trans part
    have rest : ents <+: known.drop m.delivered := by
      obtain ⟨inside, same⟩ := List.getElem?_eq_some_iff.mp found
      rw [drop_eq_getElem_cons inside, same, cons_prefix_cons] at next
      rw [delivered]
      exact next.2
    obtain ⟨n', ran, inv'', raft', leader''⟩ := ih inv' leader' rest (raft.log ▸ part)
    refine ⟨n', ?_, inv'', raft.trans raft', leader''⟩
    rw [foldlM_cons, applied]
    exact ran

theorem written_of_applied (inv : RaftInv env n) (applied : n.storage.length ≤ n.appliedIndex) : written n = blocksOf n.storage := by
  have bound := inv.ledger.bound
  rw [knownEntries_length inv] at bound
  have whole : knownEntries n = n.storage := by rw [← inv.stored, take_of_length_le (applied.trans bound)]
  have covered := inv.ledger.covered
  have part := inv.ledger.part
  rw [whole] at covered part
  rw [extracted, take_of_length_le applied] at covered
  exact part.eq_of_length_le covered

theorem NodeInv.serve (inv : NodeInv env n) (taken : n.applyC = none) : NodeInv env (n.serve env) := by
  unfold Node.serve
  split
  case isFalse => exact inv
  case isTrue ready =>
    obtain ⟨elected, applied, inflight⟩ := ready
    have all := written_of_applied inv.toRaftInv applied
    have queue := inv.idle (.inr elected)
    constructor
    case toRaftInv => exact { inv.toRaftInv with ledger := { inv.ledger with } }
    case handed => exact inv.handed
    case idle => exact fun _ => queue
    case fresh =>
      intro raftLead told elected'
      cases elected' (told.leads taken)
    case serving =>
      intro raftLead lead _
      have stored := inv.fresh raftLead (.inl lead) fun _ => elected
      have whole : blocksOf n.log ++ n.propC = written n := by rw [queue, append_nil, ← stored, all]
      have linked : Linked env (written n) := by
        rw [all]
        exact inv.storage
      exact .start linked whole inv.ledger.lastBlock rfl

theorem NodeInv.observe (inv : NodeInv env n) (handed : n.applyC = some app) :
    NodeInv env ({ n with applyC := none }.observe app.lead) := by
  have told : app.lead = true → Told n := fun lead => .inr ⟨app, handed, lead⟩
  unfold Node.observe
  by_cases same : app.lead = n.lead
  · rw [if_pos same]
    refine { inv with ledger := { inv.ledger with }, handed := nofun, fresh := ?_, serving := ?_ }
    · exact fun raftLead still elected => inv.fresh raftLead (.inl (still.leads rfl)) elected
    · exact fun raftLead lead elected => { inv.serving raftLead lead elected with }
  · rw [if_neg same]
    cases lead : app.lead with
    | true =>
      have follower : n.lead = false := by
        rw [lead] at same
        simpa using Ne.symm same
      refine { inv with ledger := { inv.ledger with }, handed := nofun, idle := fun _ => rfl, fresh := ?_, serving := nofun }
      intro raftLead _ _
      exact inv.fresh raftLead (told lead) fun lead => by rw [follower] at lead; cases lead
    | false =>
      refine { inv with ledger := { inv.ledger with }, handed := nofun, idle := fun _ => rfl, fresh := ?_, serving := nofun }
      intro _ still _
      cases still.leads rfl

theorem NodeInv.toLeaderInv (inv : NodeInv env n) : LeaderInv env n where
  idle := inv.idle
  fresh := fun raftLead lead elected => inv.fresh raftLead (.inl lead) fun _ => elected
  serving := inv.serving

theorem observe_frame (n : Node Config) (lead : Bool) : (n.observe lead).log = n.log ∧ (n.observe lead).delivered = n.delivered ∧
    (n.observe lead).commit = n.commit ∧ (n.observe lead).applyC = n.applyC := by
  unfold Node.observe
  split
  · exact ⟨rfl, rfl, rfl, rfl⟩
  · split <;> exact ⟨rfl, rfl, rfl, rfl⟩

theorem serve_frame (env : Env Config) (n : Node Config) : (n.serve env).log = n.log ∧ (n.serve env).commit = n.commit := by
  unfold Node.serve
  split <;> exact ⟨rfl, rfl⟩

theorem NodeInv.handle (inv : NodeInv env n) (handed : n.applyC = some app) :
    ∃ n', n.handle env app = .ok n' ∧ NodeInv env n' ∧ knownEntries n' = knownEntries n := by
  have observed := inv.observe handed
  obtain ⟨log, delivered, commit, applyC⟩ := observe_frame { n with applyC := none } app.lead
  unfold Node.handle
  generalize { n with applyC := none }.observe app.lead = m at observed log delivered commit applyC
  have known : knownEntries m = knownEntries n := by rw [knownEntries, log, commit, knownEntries]
  have next : app.entries <+: (knownEntries m).drop m.delivered := by
    rw [known, delivered]
    exact inv.handed app handed
  obtain ⟨m', applied, ledger, raft, leader⟩ := apply_spec (observed.log.of_isPrefix blocksOf_knownEntries_isPrefix) observed.ledger
    observed.toLeaderInv next blocksOf_knownEntries_isPrefix
  have taken : m'.applyC = none := raft.applyC.trans applyC
  have inv' : NodeInv env m' := by
    constructor
    case toRaftInv => exact observed.toRaftInv.congr raft.storage raft.log raft.commit ledger
    case handed => intro app found; rw [taken] at found; cases found
    case idle => exact leader.idle
    case fresh =>
      intro raftLead told elected
      have lead := told.leads taken
      exact leader.fresh raftLead lead (elected lead)
    case serving => exact leader.serving
  refine ⟨m'.serve env, ?_, inv'.serve taken, ?_⟩
  · exact bind_eq_ok.mpr ⟨m', applied, rfl⟩
  · obtain ⟨log', commit'⟩ := serve_frame env m'
    rw [← known, knownEntries, log', commit', raft.log, raft.commit, knownEntries]

theorem knownEntries_append (inv : RaftInv env n) (entry : Entry) : (n.log ++ [entry]).take n.commit = knownEntries n :=
  take_append_of_le_length inv.commit

theorem NodeInv.handed_append (inv : NodeInv env n) (entry : Entry) (app : Apply) (found : n.applyC = some app) :
    app.entries <+: ((n.log ++ [entry]).take n.commit).drop n.delivered := by
  rw [knownEntries_append inv.toRaftInv]
  exact inv.handed app found

theorem RaftInv.append (inv : RaftInv env n) (linked : Linked env (blocksOf (n.log ++ [entry])))
    (storage : n'.storage = n.storage) (log : n'.log = n.log ++ [entry]) (commit : n'.commit = n.commit)
    (ledger : Written env (knownEntries n) n') : RaftInv env n' := by
  have same : knownEntries n' = knownEntries n := by
    rw [knownEntries, log, commit]
    exact knownEntries_append inv entry
  constructor
  case commit =>
    rw [commit, log, length_append]
    exact inv.commit.trans (Nat.le_add_right _ _)
  case stored => rw [storage, commit, same]; exact inv.stored
  case log => rw [log]; exact linked
  case storage => rw [storage]; exact inv.storage
  case ledger => rw [same]; exact ledger

theorem blocksOf_append (es fs : List Entry) : blocksOf (es ++ fs) = blocksOf es ++ blocksOf fs := filterMap_append

theorem blocksOf_concat_none (none : entry.block? = none) (es : List Entry) : blocksOf (es ++ [entry]) = blocksOf es := by
  rw [blocksOf_append, blocksOf, blocksOf, filterMap_cons, none]
  simp

section

variable (inv : NodeInv env n)
include inv

theorem NodeInv.elect (lead : n.lead = false) (told : n.applyC.all (fun app => !app.lead) = true) :
    NodeInv env { n with raftLead := true, log := n.log ++ [.empty] } := by
  have linked : Linked env (blocksOf (n.log ++ [.empty])) := by
    rw [blocksOf_concat_none rfl]
    exact inv.log
  constructor
  case toRaftInv => exact inv.toRaftInv.append linked rfl rfl rfl { inv.ledger with }
  case handed => exact inv.handed_append _
  case idle => exact inv.idle
  case fresh =>
    intro _ still _
    cases still with
    | inl leads => rw [show n.lead = true from leads] at lead; cases lead
    | inr later =>
      obtain ⟨app, found, leads⟩ := later
      rw [show n.applyC = some app from found] at told
      simp [leads] at told
  case serving =>
    intro _ leads _
    rw [show n.lead = true from leads] at lead
    cases lead

theorem NodeInv.stepDown : NodeInv env { n with raftLead := false } := by
  exact { inv with ledger := { inv.ledger with }, fresh := nofun, serving := nofun }

theorem NodeInv.replicate {log : List Entry} (follower : n.raftLead = false) (linked : Linked env (blocksOf log))
    (long : n.commit ≤ log.length) (same : log.take n.commit = n.log.take n.commit) : NodeInv env { n with log } := by
  constructor
  case toRaftInv =>
    refine ⟨long, inv.stored.trans same.symm, linked, inv.storage, ?_⟩
    show Written env (log.take n.commit) _
    rw [same]
    exact { inv.ledger with }
  case handed =>
    intro app found
    show app.entries <+: (log.take n.commit).drop n.delivered
    rw [same]
    exact inv.handed app found
  case idle => exact inv.idle
  case fresh => intro raftLead; rw [show n.raftLead = true from raftLead] at follower; cases follower
  case serving => intro raftLead; rw [show n.raftLead = true from raftLead] at follower; cases follower

theorem NodeInv.learn {length : Nat} (later : n.commit ≤ length) (long : length ≤ n.log.length)
    (same : n.storage.take length = n.log.take length) : NodeInv env { n with commit := length } := by
  have grown : knownEntries n <+: n.log.take length := take_isPrefix_take.mpr (.inl later)
  constructor
  case toRaftInv =>
    exact ⟨long, same, inv.log, inv.storage, { inv.ledger.grow grown with }⟩
  case handed =>
    intro app found
    exact (inv.handed app found).trans (grown.drop _)
  case idle => exact inv.idle
  case fresh => exact inv.fresh
  case serving => exact fun raftLead lead elected => { inv.serving raftLead lead elected with }

theorem NodeInv.ready {count : Nat} (fits : n.delivered + count ≤ n.commit) :
    NodeInv env { n with storage := n.log, applyC := some ⟨(n.log.drop n.delivered).take count, n.raftLead⟩ } := by
  constructor
  case toRaftInv =>
    exact ⟨inv.commit, rfl, inv.log, inv.log, { inv.ledger with }⟩
  case handed =>
    intro app found
    cases found
    show (n.log.drop n.delivered).take count <+: (n.log.take n.commit).drop n.delivered
    rw [drop_take]
    refine take_isPrefix_take.mpr (.inl ?_)
    omega
  case idle => exact inv.idle
  case fresh => intro _ _ _; rfl
  case serving => exact fun raftLead lead elected => { inv.serving raftLead lead elected with }

theorem NodeInv.propose {rest : List Block} (queue : n.propC = b :: rest) (raftLead : n.raftLead = true) :
    NodeInv env { n with propC := rest, log := n.log ++ [.normal b] } := by
  have active : n.lead = true ∧ n.justElected = false := by
    by_contra inactive
    have empty : n.propC = [] := by
      apply inv.idle
      cases lead : n.lead <;> cases elected : n.justElected <;> simp_all
    rw [queue] at empty
    cases empty
  obtain ⟨lead, elected⟩ := active
  have serving := inv.serving raftLead lead elected
  have moved : blocksOf (n.log ++ [.normal b]) ++ rest = proposed n := by
    rw [proposed, queue, blocksOf_append, append_assoc]
    rfl
  have linked : Linked env (blocksOf (n.log ++ [.normal b])) := by
    apply serving.linked.of_isPrefix
    rw [← moved]
    exact prefix_append _ _
  constructor
  case toRaftInv => exact inv.toRaftInv.append linked rfl rfl rfl { inv.ledger with }
  case handed => exact inv.handed_append _
  case idle =>
    intro inactive
    rw [show (_ ∨ _) = (n.lead = false ∨ n.justElected = true) from rfl, lead, elected] at inactive
    simp at inactive
  case fresh =>
    intro _ _ still
    rw [show n.justElected = true from still lead] at elected
    cases elected
  case serving => exact fun _ _ _ => serving.congr moved rfl rfl rfl

theorem NodeInv.proposeConfChange : NodeInv env { n with log := n.log ++ [.confChange] } := by
  have blocks : blocksOf (n.log ++ [.confChange]) = blocksOf n.log := blocksOf_concat_none rfl n.log
  constructor
  case toRaftInv =>
    exact inv.toRaftInv.append (blocks ▸ inv.log) rfl rfl rfl { inv.ledger with }
  case handed => exact inv.handed_append _
  case idle => exact inv.idle
  case fresh =>
    intro raftLead told elected
    show _ = blocksOf (n.log ++ [.confChange])
    rw [blocks]
    exact inv.fresh raftLead told elected
  case serving =>
    intro raftLead lead elected
    exact (inv.serving raftLead lead elected).congr (congrArg (· ++ n.propC) blocks) rfl rfl rfl

theorem NodeInv.quit {leftover : List (List Block)} : NodeInv env { n with leftover } := by
  refine { inv with ledger := { inv.ledger with }, serving := ?_ }
  exact fun raftLead lead elected => { inv.serving raftLead lead elected with }

end

theorem ordered_ok (ordered : n.ordered env data = .ok n') :
    (n.lead = true ∧ n.justElected = false ∧ n.configInflight = false) ∧ n.propose env data = .ok n' ∧
      ∀ envelope newConsenters, data = .config envelope newConsenters → env.validate n.config envelope = true := by
  unfold Node.ordered at ordered
  split at ordered
  case isFalse => cases ordered
  case isTrue open' =>
    cases data with
    | normal envelopes => exact ⟨open', ordered, fun _ _ config => by cases config⟩
    | config envelope newConsenters =>
      simp only at ordered
      split at ordered
      case isFalse => cases ordered
      case isTrue valid =>
        refine ⟨open', ordered, ?_⟩
        intro _ _ config
        cases config
        exact valid

theorem ordered_error {failure : Failure} (ordered : n.ordered env data = .error failure) : ∃ message, failure = .error message := by
  have propose (refused : n.propose env data = .error failure) : ∃ message, failure = .error message := by
    unfold Node.propose at refused
    cases creator : n.bc with
    | none =>
      rw [creator] at refused
      cases refused
      exact ⟨_, rfl⟩
    | some bc =>
      rw [creator] at refused
      cases refused
  unfold Node.ordered at ordered
  split at ordered
  case isFalse =>
    cases ordered
    exact ⟨_, rfl⟩
  case isTrue =>
    cases data with
    | normal envelopes => exact propose ordered
    | config envelope newConsenters =>
      simp only at ordered
      split at ordered
      case isTrue => exact propose ordered
      case isFalse =>
        cases ordered
        exact ⟨_, rfl⟩

theorem propose_ok (proposed : n.propose env data = .ok n') : ∃ bc propC configInflight, n' = { n with bc, propC, configInflight } := by
  unfold Node.propose at proposed
  cases creator : n.bc with
  | none =>
    rw [creator] at proposed
    cases proposed
  | some bc =>
    rw [creator] at proposed
    cases proposed
    exact ⟨_, _, _, rfl⟩

theorem NodeInv.ordered (inv : NodeInv env n) (ordered : n.ordered env data = .ok n') :
    NodeInv env n' ∧ knownEntries n' = knownEntries n := by
  obtain ⟨⟨lead, elected, idle⟩, made, valid⟩ := ordered_ok ordered
  obtain ⟨bc, propC, configInflight, rfl⟩ := propose_ok made
  refine ⟨?_, rfl⟩
  constructor
  case toRaftInv => exact { inv.toRaftInv with ledger := { inv.ledger with } }
  case handed => exact inv.handed
  case idle =>
    intro inactive
    rw [show (_ ∨ _) = (n.lead = false ∨ n.justElected = true) from rfl, lead, elected] at inactive
    simp at inactive
  case fresh =>
    intro _ _ still
    rw [show n.justElected = true from still lead] at elected
    cases elected
  case serving =>
    intro raftLead _ _
    have serving := inv.serving raftLead lead elected
    obtain ⟨b, inflight, same, follows, counted⟩ := serving.propose idle fun envelope newConsenters config =>
      inv.ledger.config ▸ valid envelope newConsenters config
    rw [made] at same
    injection same with same
    rw [same]
    exact serving.concat idle follows counted

theorem survivingLedger_isPrefix (lost : Bool) : n.survivingLedger lost <+: n.ledger := by
  unfold Node.survivingLedger
  split
  · exact n.ledger.dropLast_prefix
  · exact prefix_rfl

theorem survivingLedger_ne_nil (inv : Written env known n) (linked : Linked env (blocksOf known)) (lost : Bool) :
    n.survivingLedger lost ≠ [] := by
  have length := inv.ledger_length
  have number := (linked.of_isPrefix inv.part).lastOf_number
  rw [← inv.lastBlock] at number
  unfold Node.survivingLedger
  split
  case isTrue gone =>
    have written : n.lastBlock.header.number ≠ 0 := by simp_all
    apply ne_nil_of_length_pos
    rw [length_dropLast]
    omega
  case isFalse =>
    apply ne_nil_of_length_pos
    omega

theorem Written.restart (inv : Written env known n) (linked : Linked env (blocksOf known)) (lost : Bool) :
    Written env known (n.restart env lost) := by
  have part := survivingLedger_isPrefix (n := n) lost
  obtain ⟨first, rest, ledger⟩ := exists_cons_of_ne_nil (survivingLedger_ne_nil inv linked lost)
  have mapped := part.map (·.block)
  rw [inv.start, ledger, map_cons, cons_prefix_cons] at mapped
  let last := rest.getLast?.getD first
  have found : (n.survivingLedger lost).getLast? = some last := by rw [ledger, getLast?_cons]
  obtain ⟨bound, height⟩ := inv.recorded ((n.survivingLedger lost).length - 1) last (by
    apply getElem?_of_isPrefix part
    rw [← found, getLast?_eq_getElem?])
  rw [ledger, length_cons, Nat.add_sub_cancel] at height
  have lastBlock : last.block = lastOf env (rest.map (·.block)) := by
    simp only [last, lastOf, getLast?_map]
    cases rest.getLast? <;> simp [mapped.1]
  have restarted : n.restart env lost = { n with
      log := n.storage, raftLead := false, applyC := none, ledger := first :: rest, config := readConfig env (rest.map (·.block)),
      delivered := 0, appliedIndex := last.raftIndex, lastBlock := last.block, raftIndex := last.raftIndex, lead := false,
      justElected := false, configInflight := false, bc := none, propC := [], leftover := [] } := by
    simp only [Node.restart, found, Option.getD_some]
    rw [ledger]
    rfl
  rw [restarted]
  constructor
  case start => exact congrArg (· :: _) mapped.1
  case part => exact mapped.2.trans inv.part
  case lastBlock => exact lastBlock
  case config => rfl
  case ahead => exact Nat.zero_le _
  case bound => exact bound
  case covered => exact height.trans (by simp [written])
  case recorded =>
    intro k b found
    apply inv.recorded k b
    rw [ledger] at part
    exact getElem?_of_isPrefix part found
  case remembered => exact ⟨bound, height.trans (by simp [written])⟩

theorem NodeInv.restart (inv : NodeInv env n) (lost : Bool) : NodeInv env (n.restart env lost) := by
  have long : n.commit ≤ n.storage.length := by
    have lengths := congrArg List.length inv.stored
    rw [length_take, knownEntries_length inv.toRaftInv] at lengths
    omega
  constructor
  case toRaftInv =>
    refine ⟨long, rfl, inv.storage, inv.storage, ?_⟩
    show Written env (n.storage.take n.commit) _
    rw [inv.stored]
    exact inv.ledger.restart (inv.log.of_isPrefix blocksOf_knownEntries_isPrefix) lost
  case handed => intro app found; cases found
  case idle => intro _; rfl
  case fresh => intro raftLead; cases raftLead
  case serving => intro raftLead; cases raftLead

theorem nodeInv_newNode (env : Env Config) : NodeInv env (newNode env) := by
  constructor
  case toRaftInv =>
    refine ⟨Nat.le_refl _, rfl, linked_nil, linked_nil, ?_⟩
    refine ⟨rfl, prefix_rfl, rfl, rfl, Nat.le_refl _, Nat.le_refl _, Nat.le_refl _, ?_, Nat.le_refl _, Nat.le_refl _⟩
    intro k b found
    cases k with
    | zero => cases found; exact ⟨Nat.le_refl _, Nat.le_refl _⟩
    | succ k => cases found
  case handed => intro app found; cases found
  case idle => intro _; rfl
  case fresh => intro raftLead; cases raftLead
  case serving => intro raftLead; cases raftLead

structure ClusterInv (env : Env Config) (c : Cluster Config) : Prop where
  node : ∀ i, NodeInv env (c.nodes i)
  agrees : ∀ i, knownEntries (c.nodes i) <+: c.committed

variable {c c' : Cluster Config} {steps : List Step}

theorem ClusterInv.set (inv : ClusterInv env c) {i : Nat} (node : NodeInv env n) (agrees : knownEntries n <+: c.committed) :
    ClusterInv env (c.set i n) where
  node := by
    intro j
    by_cases same : j = i
    · subst same
      simpa [Cluster.set] using node
    · simpa [Cluster.set, Function.update_of_ne same] using inv.node j
  agrees := by
    intro j
    by_cases same : j = i
    · subst same
      simpa [Cluster.set] using agrees
    · simpa [Cluster.set, Function.update_of_ne same] using inv.agrees j

def Stale : Step → Prop
  | .proposeLeftover _ _ => True
  | _ => False

def Fine (env : Env Config) (r : Result (Cluster Config)) : Prop :=
  (∃ message, r = .error (.error message)) ∨ ∃ c', r = .ok c' ∧ ClusterInv env c'

theorem ClusterInv.step (inv : ClusterInv env c) (step : Step) (fresh : ¬ Stale step) : Fine env (c.step env step) := by
  cases step with
  | elect i =>
    simp only [Cluster.step]
    split
    case isFalse => exact .inl ⟨_, rfl⟩
    case isTrue elected =>
      refine .inr ⟨_, rfl, inv.set ((inv.node i).elect elected.1 elected.2.1) ?_⟩
      show ((c.nodes i).log ++ [empty]).take (c.nodes i).commit <+: c.committed
      rw [knownEntries_append (inv.node i).toRaftInv]
      exact inv.agrees i
  | stepDown i => exact .inr ⟨_, rfl, inv.set (inv.node i).stepDown (inv.agrees i)⟩
  | replicate i leader length =>
    simp only [Cluster.step]
    split
    case isFalse => exact .inl ⟨_, rfl⟩
    case isTrue appended =>
      obtain ⟨_, follower, long, same⟩ := appended
      have linked := (inv.node leader).log.of_isPrefix (filterMap_take_isPrefix (i := length))
      refine .inr ⟨_, rfl, inv.set ((inv.node i).replicate follower linked long same) ?_⟩
      show ((c.nodes leader).log.take length).take (c.nodes i).commit <+: c.committed
      rw [same]
      exact inv.agrees i
  | commit leader length =>
    simp only [Cluster.step]
    split
    case isFalse => exact .inl ⟨_, rfl⟩
    case isTrue committed => exact .inr ⟨_, rfl, inv.node, fun i => (inv.agrees i).trans committed.2⟩
  | learn i length =>
    simp only [Cluster.step]
    split
    case isFalse => exact .inl ⟨_, rfl⟩
    case isTrue learned =>
      obtain ⟨later, short, log, storage⟩ := learned
      have long : length ≤ (c.nodes i).log.length := by
        have lengths := congrArg List.length log
        rw [length_take, length_take] at lengths
        omega
      refine .inr ⟨_, rfl, inv.set ((inv.node i).learn later long (storage.trans log.symm)) ?_⟩
      show (c.nodes i).log.take length <+: c.committed
      rw [log]
      exact take_prefix length c.committed
  | ready i count =>
    simp only [Cluster.step]
    split
    case isFalse => exact .inl ⟨_, rfl⟩
    case isTrue ready => exact .inr ⟨_, rfl, inv.set ((inv.node i).ready ready.2) (inv.agrees i)⟩
  | handle i =>
    simp only [Cluster.step]
    split
    case h_1 => exact .inl ⟨_, rfl⟩
    case h_2 app handed =>
      obtain ⟨n', handled, node, known⟩ := (inv.node i).handle handed
      refine .inr ⟨c.set i n', ?_, inv.set node (known ▸ inv.agrees i)⟩
      exact bind_eq_ok.mpr ⟨n', handled, rfl⟩
  | ordered i data =>
    simp only [Cluster.step]
    cases ordered : (c.nodes i).ordered env data with
    | error failure =>
      obtain ⟨message, rfl⟩ := ordered_error ordered
      exact .inl ⟨message, rfl⟩
    | ok n' =>
      obtain ⟨node, known⟩ := (inv.node i).ordered ordered
      exact .inr ⟨c.set i n', rfl, inv.set node (known ▸ inv.agrees i)⟩
  | propose i =>
    simp only [Cluster.step]
    split
    case h_1 => exact .inl ⟨_, rfl⟩
    case h_2 b rest queue =>
      split
      case isFalse => exact .inl ⟨_, rfl⟩
      case isTrue raftLead =>
        refine .inr ⟨_, rfl, inv.set ((inv.node i).propose queue raftLead) ?_⟩
        show ((c.nodes i).log ++ [normal b]).take (c.nodes i).commit <+: c.committed
        rw [knownEntries_append (inv.node i).toRaftInv]
        exact inv.agrees i
  | proposeConfChange i =>
    simp only [Cluster.step]
    split
    case isFalse => exact .inl ⟨_, rfl⟩
    case isTrue raftLead =>
      refine .inr ⟨_, rfl, inv.set (inv.node i).proposeConfChange ?_⟩
      show ((c.nodes i).log ++ [confChange]).take (c.nodes i).commit <+: c.committed
      rw [knownEntries_append (inv.node i).toRaftInv]
      exact inv.agrees i
  | proposeLeftover i proposer => exact absurd trivial fresh
  | quit i proposer => exact .inr ⟨_, rfl, inv.set (inv.node i).quit (inv.agrees i)⟩
  | restart i lost =>
    refine .inr ⟨_, rfl, inv.set ((inv.node i).restart lost) ?_⟩
    show (c.nodes i).storage.take (c.nodes i).commit <+: c.committed
    rw [(inv.node i).stored]
    exact inv.agrees i

def Cluster.next (env : Env Config) (c : Cluster Config) (step : Step) : Option (Cluster Config) := (c.step env step).toOption

theorem reached_inv (run : Reaches (Cluster.next env) (fun _ step => ¬ Stale step) (newCluster env) steps c) :
    ClusterInv env c := by
  apply run.invariant fun _ c => ClusterInv env c
  · exact ⟨fun _ => nodeInv_newNode env, fun _ => nil_prefix⟩
  · intro _ c step c' inv fresh taken
    rw [Cluster.next, toOption_eq_some] at taken
    rcases inv.step step fresh with ⟨_, failed⟩ | ⟨_, reached, inv'⟩
    · rw [failed] at taken
      cases taken
    · rw [reached] at taken
      cases taken
      exact inv'

theorem orderers_agree
    (run : Reaches (Cluster.next env) (fun _ step => ¬ Stale step) (newCluster env) steps c) :
    (∀ i, HashChain env ((c.nodes i).ledger.map (·.block))) ∧
    (∀ i j, (c.nodes i).ledger.map (·.block) <+: (c.nodes j).ledger.map (·.block) ∨
      (c.nodes j).ledger.map (·.block) <+: (c.nodes i).ledger.map (·.block)) ∧
    ∀ i message, c.step env (.handle i) ≠ .error (.panic message) := by
  have inv := reached_inv run
  have part (i : Nat) : (c.nodes i).ledger.map (·.block) <+: env.genesis :: blocksOf c.committed := by
    rw [(inv.node i).ledger.start, prefix_cons_inj]
    exact (inv.node i).ledger.part.trans ((inv.agrees i).filterMap _)
  refine ⟨?_, ?_, ?_⟩
  · intro i
    rw [(inv.node i).ledger.start]
    have written := (inv.node i).ledger.part.trans blocksOf_knownEntries_isPrefix
    exact ((inv.node i).log.of_isPrefix written).hashChain
  · intro i j
    exact prefix_or_prefix_of_prefix (part i) (part j)
  · intro i message panicked
    rcases inv.step (.handle i) (fun stale => stale) with ⟨_, failed⟩ | ⟨_, reached, _⟩
    · rw [failed] at panicked
      cases panicked
    · rw [reached] at panicked
      cases panicked

instance decidableStale : (step : Step) → Decidable (Stale step)
  | .proposeLeftover _ _ => inferInstanceAs (Decidable True)
  | .elect _ | .stepDown _ | .replicate _ _ _ | .commit _ _ | .learn _ _ | .ready _ _ | .handle _ | .ordered _ _ | .propose _
  | .proposeConfChange _ | .quit _ _ | .restart _ _ => inferInstanceAs (Decidable False)

-- Hashes that keep what they hash.
def plainEnv : Env Unit where
  blockDataHash
    | .normal envelopes => envelopes.flatten
    | .config envelope _ => envelope
  blockHeaderHash header := UInt8.ofNat header.number :: header.dataHash
  validate _ _ := true
  createBundle _ := ()
  genesis := ⟨⟨0, [], []⟩, .normal []⟩
  genesisConfig := ()
  first := rfl

def electedTwice : List Step :=
  [.elect 0, .ready 0 0, .handle 0, .commit 0 1, .learn 0 1, .ready 0 1, .handle 0, .ordered 0 (.normal [[1]]),
   .stepDown 0, .ready 0 0, .handle 0,
   .elect 0, .ready 0 0, .handle 0, .commit 0 2, .learn 0 2, .ready 0 1, .handle 0, .ordered 0 (.normal [[2]])]

def leftoverBlock : List Step :=
  electedTwice ++ [.proposeLeftover 0 0, .propose 0, .ordered 0 (.normal [[3]]), .propose 0,
    .ready 0 0, .handle 0, .commit 0 5, .learn 0 5, .ready 0 3]

theorem leftoverBlock_panics : ∃ c, Reaches (Cluster.next plainEnv) (fun _ _ => True) (newCluster plainEnv) leftoverBlock c ∧
      c.step plainEnv (.handle 0) = .error (.panic "Could not append block: unexpected Previous block hash") := by
  have evaluated : ((checkRun (Cluster.next plainEnv) (fun _ _ => True) (newCluster plainEnv) leftoverBlock).any fun c =>
      match c.step plainEnv (.handle 0) with
      | .error failure => failure == .panic "Could not append block: unexpected Previous block hash"
      | .ok _ => false) = true := by
    decide +kernel
  obtain ⟨c, run, panicked⟩ := (Option.any_eq_true ..).mp evaluated
  refine ⟨c, reaches_of_checkRun run, ?_⟩
  split at panicked
  · rename_i failure result
    rw [result, beq_iff_eq.mp panicked]
  · cases panicked

def leftoverQuits : List Step :=
  electedTwice ++ [.quit 0 0, .propose 0, .ordered 0 (.normal [[3]]), .propose 0, .replicate 1 0 4,
    .ready 0 0, .handle 0, .commit 0 4, .learn 0 4, .ready 0 2, .handle 0,
    .ready 1 0, .handle 1, .learn 1 3, .ready 1 3, .handle 1, .restart 0 true]

theorem leftoverQuits_agrees : ∃ c : Cluster Unit, (c.nodes 0).ledger.length = 2 ∧ (c.nodes 1).ledger.length = 2 ∧
      (∀ i, HashChain plainEnv ((c.nodes i).ledger.map (·.block))) ∧
      (∀ i j, (c.nodes i).ledger.map (·.block) <+: (c.nodes j).ledger.map (·.block) ∨
        (c.nodes j).ledger.map (·.block) <+: (c.nodes i).ledger.map (·.block)) ∧
      ∀ i message, c.step plainEnv (.handle i) ≠ .error (.panic message) := by
  have evaluated : ((checkRun (Cluster.next plainEnv) (fun _ step => ¬ Stale step) (newCluster plainEnv) leftoverQuits).any
      fun c => (c.nodes 0).ledger.length == 2 && (c.nodes 1).ledger.length == 2) = true := by
    decide +kernel
  obtain ⟨c, run, read⟩ := (Option.any_eq_true ..).mp evaluated
  simp only [Bool.and_eq_true, beq_iff_eq] at read
  exact ⟨c, read.1, read.2, orderers_agree (reaches_of_checkRun run)⟩

end Fabric.Proof.Etcdraft.Consensus
