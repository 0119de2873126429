import Fabric.Proof.Etcdraft.MembershipChanges

/-! # The membership does not depend on how the blocks arrive -/

namespace Fabric.Proof.Etcdraft

open Lib Fabric.Ledger Fabric.Etcdraft.Membership List

variable {o o' : Orderer} {l : List (Nat × Consenter)} {cs : List Consenter} {checks : Checks} {e : Entry}
  {a b a' b' : Orderer} {metadata : Option BlockMetadata} {ch : MembershipChanges}

theorem nodup_of_metadataHasDuplication {seen : List Bytes} (fine : metadataHasDuplication seen cs = false) :
    (cs.map (·.clientTlsCert)).Nodup ∧ ∀ c ∈ cs, c.clientTlsCert ∉ seen := by
  induction cs generalizing seen with
  | nil => simp
  | cons c cs ih =>
    simp only [metadataHasDuplication, Bool.or_eq_false_iff, decide_eq_false_iff_not] at fine
    obtain ⟨⟨-, unseen⟩, later⟩ := fine
    obtain ⟨nodup, fresh⟩ := ih later
    rw [map_cons, nodup_cons]
    refine ⟨⟨?_, nodup⟩, ?_⟩
    · intro mem
      obtain ⟨c', listed, same⟩ := mem_map.mp mem
      exact fresh c' listed (same ▸ mem_cons_self)
    · intro c' mem
      cases mem_cons.mp mem with
      | inl here => exact here ▸ unseen
      | inr after => exact fun old => fresh c' after (mem_cons_of_mem _ (mem_cons_of_mem _ old))

theorem nodup_of_verifyConfigMetadata (verified : verifyConfigMetadata checks cs = .ok ()) : (cs.map (·.clientTlsCert)).Nodup := by
  unfold verifyConfigMetadata at verified
  split at verified
  · cases verified
  · split at verified
    · cases verified
    · split at verified
      · cases verified
      · rename_i fine
        exact (nodup_of_metadataHasDuplication (Bool.eq_false_iff.mpr fine)).1

structure Remembers (o : Orderer) (l : List (Nat × Consenter)) : Prop where
  ids : o.blockMetadata.consenterIds = l.map (·.1)
  consenters : o.consenters = consentersOf l
  config : o.config = l.map (·.2)
  distinct : Distinct l
  below : ∀ e ∈ l, e.1 < o.blockMetadata.nextConsenterId

structure Assigned (o : Orderer) (l : List (Nat × Consenter)) : Prop extends Remembers o l where
  lastIds : (readBlockMetadata o.lastMetadata o.config).consenterIds = l.map (·.1)
  lastNext : (readBlockMetadata o.lastMetadata o.config).nextConsenterId = o.blockMetadata.nextConsenterId

theorem zip_eq (l : List (Nat × Consenter)) : (l.map (·.1)).zip (l.map (·.2)) = l := by
  rw [← unzip_fst, ← unzip_snd, zip_unzip]

theorem createConsentersMap_eq {md : BlockMetadata} (ids : md.consenterIds = l.map (·.1)) :
    createConsentersMap md (l.map (·.2)) = .ok (consentersOf l) := by
  unfold createConsentersMap
  rw [ids, zip_eq]
  simp [consentersOf]

structure SameMembership (a b : Orderer) : Prop where
  ids : a.blockMetadata.consenterIds = b.blockMetadata.consenterIds
  next : a.blockMetadata.nextConsenterId = b.blockMetadata.nextConsenterId
  consenters : a.consenters = b.consenters

theorem Remembers.sameMembership (left : Remembers a l) (right : Remembers b l)
    (next : b.blockMetadata.nextConsenterId = a.blockMetadata.nextConsenterId) : SameMembership a b :=
  ⟨left.ids.trans right.ids.symm, next.symm, left.consenters.trans right.consenters.symm⟩

theorem Assigned.handleChain (given : Assigned o l) :
    ∃ o', o.handleChain = .ok o' ∧ Assigned o' l ∧ o'.blockMetadata.nextConsenterId = o.blockMetadata.nextConsenterId := by
  have created := createConsentersMap_eq given.lastIds
  rw [← given.config] at created
  refine ⟨{ o with blockMetadata := readBlockMetadata o.lastMetadata o.config, consenters := consentersOf l }, ?_, ?_, given.lastNext⟩
  · unfold Orderer.handleChain
    simp only [created]
    rfl
  · refine ⟨⟨given.lastIds, rfl, given.config, given.distinct, ?_⟩, given.lastIds, rfl⟩
    intro e mem
    show e.1 < (readBlockMetadata o.lastMetadata o.config).nextConsenterId
    rw [given.lastNext]
    exact given.below e mem

theorem Assigned.newOrderer (certs : (cs.map (·.clientTlsCert)).Nodup) : Assigned (newOrderer cs) ((List.range' 1 cs.length).zip cs) := by
  have ids : ((List.range' 1 cs.length).zip cs).map (·.1) = List.range' 1 cs.length := by
    rw [map_fst_zip]
    simp
  have config : ((List.range' 1 cs.length).zip cs).map (·.2) = cs := by
    rw [map_snd_zip]
    simp
  refine ⟨⟨ids.symm, rfl, config.symm, ⟨?_, ?_⟩, ?_⟩, ids.symm, rfl⟩
  · rw [ids]
    exact nodup_range'
  · rw [show (fun e : Nat × Consenter => e.2.clientTlsCert) = (·.clientTlsCert) ∘ (·.2) from rfl, ← map_map, config]
    exact certs
  · intro e mem
    have listed : e.1 ∈ List.range' 1 cs.length := ids ▸ mem_map.mpr ⟨e, mem, rfl⟩
    simp only [mem_range'_1] at listed
    show e.1 < cs.length + 1
    omega

theorem Remembers.append (knows : Remembers o l) : Remembers (o.append none metadata) l :=
  { knows with }

theorem Remembers.setMembership {fresh : Nat} (moved : Reassigned l cs fresh ch)
    : Remembers ((o.setMembership ch).append (some cs) metadata) (reassign l fresh cs) where
  ids := moved.ids
  consenters := moved.consenters
  config := by
    show cs = _
    simp [reassign, Function.comp_def]
  distinct := moved.distinct
  below := moved.below

def Plain : Block → Prop
  | .config (some _) => False
  | _ => True

theorem writeBlock_plain (plain : Plain e.block) :
    o.writeBlock e = .ok ((o.setRaftIndex e.index).append none (some (o.setRaftIndex e.index).blockMetadata)) := by
  unfold Orderer.writeBlock
  match e.block, plain with
  | .normal, _ => rfl
  | .ordererTransaction _, _ => rfl
  | .config none, _ => rfl

theorem writeBlock_config (block : e.block = .config (some cs)) (comp : computeMembershipChanges o.blockMetadata o.consenters cs = .ok ch) :
    o.writeBlock e = .ok ((o.setMembership ch).append (some cs) (some ch.newBlockMetadata)) := by
  unfold Orderer.writeBlock
  simp only [block, Orderer.detectConfChange, comp]
  rfl

theorem Remembers.compute_of_accept (knows : Remembers o l) (accepted : o.accept checks (.config (some cs)) = .ok ()) :
    ∃ ch fresh, computeMembershipChanges o.blockMetadata (consentersOf l) cs = .ok ch ∧ Reassigned l cs fresh ch := by
  unfold Orderer.accept Orderer.validateConsensusMetadata at accepted
  obtain ⟨_, verified, rest⟩ := bind_eq_ok.mp accepted
  obtain ⟨old, created, rest⟩ := bind_eq_ok.mp rest
  rw [knows.config, createConsentersMap_eq knows.ids] at created
  cases created
  obtain ⟨ch, comp, -⟩ := bind_eq_ok.mp rest
  obtain ⟨fresh, moved, -⟩ := computeMembershipChanges_spec knows.distinct knows.below
    (nodup_of_verifyConfigMetadata verified) comp
  exact ⟨ch, fresh, comp, moved⟩

theorem known_of_accept (accepted : o.accept checks (.ordererTransaction (some cs)) = .ok ()) :
    (cs.map (·.clientTlsCert)).Nodup ∧ ∀ c ∈ cs, c.clientTlsCert ∈ o.config.map (·.clientTlsCert) := by
  unfold Orderer.accept Orderer.validateConsensusMetadata at accepted
  obtain ⟨_, verified, rest⟩ := bind_eq_ok.mp accepted
  refine ⟨nodup_of_verifyConfigMetadata verified, ?_⟩
  simp only [if_true] at rest
  split at rest
  · rename_i known
    simpa using known
  · cases rest

def blockConfig (config : List Consenter) : Block → List Consenter
  | .config (some cs) => cs
  | _ => config

theorem commitBlock_changed {block : Block} (update : block = .config (some cs) ∨ block = .ordererTransaction (some cs))
    (comp : computeMembershipChanges o.blockMetadata o.consenters cs = .ok ch) (changed : ch.changed = true) :
    o.commitBlock block metadata = .ok ⟨ch.newBlockMetadata, ch.newConsenters, blockConfig o.config block, metadata⟩ := by
  obtain rfl | rfl := update <;>
    simp [Orderer.commitBlock, Orderer.detectConfChange, Orderer.append, comp, changed, Option.filter, bind, Except.bind,
      blockConfig, Orderer.setMembership]

theorem commitBlock_unchanged {block : Block} (update : block = .config (some cs) ∨ block = .ordererTransaction (some cs))
    (comp : computeMembershipChanges o.blockMetadata o.consenters cs = .ok ch) (unchanged : ch.changed = false) :
    o.commitBlock block metadata = .ok ⟨o.blockMetadata, o.consenters, blockConfig o.config block, metadata⟩ := by
  obtain rfl | rfl := update <;>
    simp [Orderer.commitBlock, Orderer.detectConfChange, Orderer.append, comp, unchanged, Option.filter, bind, Except.bind, blockConfig]

theorem commitBlock_ok {block : Block} (committed : o.commitBlock block metadata = .ok o')
    (update : block = .config (some cs) ∨ block = .ordererTransaction (some cs)) :
    ∃ ch, computeMembershipChanges o.blockMetadata o.consenters cs = .ok ch := by
  cases comp : computeMembershipChanges o.blockMetadata o.consenters cs with
  | ok ch => exact ⟨ch, rfl⟩
  | error failure =>
    obtain rfl | rfl := update <;>
      simp [Orderer.commitBlock, Orderer.detectConfChange, Orderer.append, comp, bind, Except.bind] at committed

theorem commitBlock_none {block : Block} (silent : ∀ cs, block ≠ .config (some cs) ∧ block ≠ .ordererTransaction (some cs)) :
    o.commitBlock block metadata = .ok (o.append none metadata) := by
  match block with
  | .normal => rfl
  | .config none => rfl
  | .ordererTransaction none => rfl
  | .config (some cs) => exact absurd rfl (silent cs).1
  | .ordererTransaction (some cs) => exact absurd rfl (silent cs).2

/-- The consenters stay as they are unless a certificate changes; a new channel has the consenters of this one. -/
def KeepsConsenters (config : List Consenter) : Block → Prop
  | .config (some cs) => SameCerts config cs → cs = config
  | .ordererTransaction (some cs) => SameCerts config cs
  | _ => True

inductive Effect (l : List (Nat × Consenter)) (next : Nat) : Block → List (Nat × Consenter) → Nat → Prop where
  | plain {block : Block} (plain : Plain block) : Effect l next block l next
  | config {cs : List Consenter} {md : BlockMetadata} {ch : MembershipChanges} {fresh : Nat} (same : md.nextConsenterId = next)
      (comp : computeMembershipChanges md (consentersOf l) cs = .ok ch) (moved : Reassigned l cs fresh ch) :
      Effect l next (.config (some cs)) (reassign l fresh cs) ch.newBlockMetadata.nextConsenterId

variable {l' : List (Nat × Consenter)} {next' : Nat} {block : Block}

theorem Remembers.effect (knows : Remembers o l) (accepted : o.accept checks block = .ok ()) :
    ∃ l' next', Effect l o.blockMetadata.nextConsenterId block l' next' := by
  by_cases plain : Plain block
  · exact ⟨l, _, .plain plain⟩
  · match block, plain with
    | .config (some cs), _ =>
      obtain ⟨ch, fresh, comp, moved⟩ := knows.compute_of_accept accepted
      exact ⟨_, _, .config rfl comp moved⟩
    | .config none, plain => exact absurd trivial plain
    | .normal, plain => exact absurd trivial plain
    | .ordererTransaction _, plain => exact absurd trivial plain

theorem Assigned.writeBlock (given : Assigned o l) (effect : Effect l o.blockMetadata.nextConsenterId block l' next') (index : Nat) :
    ∃ o', o.writeBlock ⟨index, block⟩ = .ok o' ∧ Assigned o' l' ∧ o'.blockMetadata.nextConsenterId = next' := by
  cases effect with
  | plain plain =>
    refine ⟨_, writeBlock_plain plain, ⟨?_, given.ids, rfl⟩, rfl⟩
    exact { given with }
  | config same comp moved =>
    obtain ⟨ch', mine, moved', next⟩ := computeMembershipChanges_congr same.symm comp moved
    rw [← given.consenters] at mine
    exact ⟨_, writeBlock_config rfl mine, ⟨Remembers.setMembership moved', moved'.ids, rfl⟩, next⟩

theorem Remembers.commitBlock (knows : Remembers o l) (effect : Effect l o.blockMetadata.nextConsenterId block l' next')
    (keeps : KeepsConsenters o.config block) (metadata : Option BlockMetadata) :
    ∃ o', o.commitBlock block metadata = .ok o' ∧ Remembers o' l' ∧ o'.blockMetadata.nextConsenterId = next' ∧
      o'.lastMetadata = metadata := by
  cases effect with
  | plain plain =>
    match block, plain, keeps with
    | .normal, _, _ => exact ⟨_, rfl, knows.append, rfl, rfl⟩
    | .config none, _, _ => exact ⟨_, rfl, knows.append, rfl, rfl⟩
    | .ordererTransaction none, _, _ => exact ⟨_, rfl, knows.append, rfl, rfl⟩
    | .ordererTransaction (some cs), _, keeps =>
      have same : SameCerts (l.map (·.2)) cs := knows.config ▸ keeps
      obtain ⟨ch, comp, unchanged⟩ := computeMembershipChanges_of_sameCerts knows.distinct same
      rw [← knows.consenters] at comp
      exact ⟨_, commitBlock_unchanged (.inr rfl) comp unchanged, knows.append, rfl, rfl⟩
  | @config cs md ch fresh same comp moved =>
    obtain ⟨ch', mine, moved', next⟩ := computeMembershipChanges_congr same.symm comp moved
    cases changed : ch'.changed with
    | true =>
      rw [← knows.consenters] at mine
      refine ⟨_, commitBlock_changed (.inl rfl) mine changed, ?_, next, rfl⟩
      exact Remembers.setMembership (o := o) moved'
    | false =>
      have kept : cs = l.map (·.2) := by
        rw [← knows.config]
        apply keeps
        rw [knows.config]
        exact moved'.changed.mp changed
      have sameNext := next_of_unchanged mine changed
      rw [← knows.consenters] at mine
      refine ⟨_, commitBlock_unchanged (.inl rfl) mine changed, ?_, sameNext.symm.trans next, rfl⟩
      rw [kept, reassign_self knows.distinct]
      exact { knows with config := rfl }

variable {p q : Pair} {event : Event} {events : List Event}

structure Consistent (p : Pair) (l : List (Nat × Consenter)) : Prop where
  applied : Assigned p.applied l
  other : Assigned p.other l
  next : p.other.blockMetadata.nextConsenterId = p.applied.blockMetadata.nextConsenterId

/-- Both orderers have the same membership, and a restart of the second one does not change it. -/
structure Agree (p : Pair) : Prop where
  same : SameMembership p.applied p.other
  restarted : ∃ o, p.other.handleChain = .ok o ∧ SameMembership p.other o

theorem Consistent.agree (inv : Consistent p l) : Agree p where
  same := inv.applied.toRemembers.sameMembership inv.other.toRemembers inv.next
  restarted := by
    obtain ⟨o, restarted, given, next⟩ := inv.other.handleChain
    exact ⟨o, restarted, inv.other.toRemembers.sameMembership given.toRemembers next⟩

/-- The ids are still those that a channel without consenter metadata would get. -/
def InOrder (o : Orderer) : Prop :=
  o.blockMetadata.consenterIds = List.range' 1 o.config.length ∧ o.blockMetadata.nextConsenterId = o.config.length + 1

/-- A snapshot brings its block without metadata, whose ids then have to be those that a new channel would have. -/
def EventOk (applied : Orderer) : Event → Prop
  | .restart | .deliver _ .raft => True
  | .deliver e .pulled => KeepsConsenters applied.config e.block
  | .deliver e .snapshot => KeepsConsenters applied.config e.block ∧ ∀ applied', applied.writeBlock e = .ok applied' → InOrder applied'

def EventsOk (applied : Orderer) : List Event → Prop
  | [] => True
  | .restart :: events => EventsOk applied events
  | .deliver e route :: events => EventOk applied (.deliver e route) ∧
      ∀ applied', applied.writeBlock e = .ok applied' → EventsOk applied' events

theorem Assigned.of_remembers (knows : Remembers o l) (applied : Assigned o' l)
    (next : o.blockMetadata.nextConsenterId = o'.blockMetadata.nextConsenterId)
    (ids : (readBlockMetadata o.lastMetadata o.config).consenterIds = o'.blockMetadata.consenterIds)
    (lastNext : (readBlockMetadata o.lastMetadata o.config).nextConsenterId = o'.blockMetadata.nextConsenterId) : Assigned o l :=
  ⟨knows, ids.trans applied.ids, lastNext.trans next.symm⟩

theorem Consistent.deliver {route : Route} (inv : Consistent p l) (accepted : p.applied.accept checks e.block = .ok ())
    (fine : EventOk p.applied (.deliver e route)) : ∃ q l', p.step (.deliver e route) = .ok q ∧ Consistent q l' ∧
      p.applied.writeBlock e = .ok q.applied := by
  obtain ⟨l', next', effect⟩ := inv.applied.toRemembers.effect accepted
  obtain ⟨applied, written, given, next⟩ := inv.applied.writeBlock effect e.index
  have config : p.other.config = p.applied.config := inv.other.config.trans inv.applied.config.symm
  rw [← inv.next] at effect
  suffices other : ∃ other, p.other.receive e applied.lastMetadata route = .ok other ∧ Assigned other l' ∧
      other.blockMetadata.nextConsenterId = applied.blockMetadata.nextConsenterId by
    obtain ⟨other, taken, given', next''⟩ := other
    refine ⟨⟨applied, other⟩, l', ?_, ⟨given, given', next''⟩, written⟩
    simp only [Pair.step]
    exact bind_eq_ok.mpr ⟨applied, written, bind_eq_ok.mpr ⟨other, taken, rfl⟩⟩
  cases route with
  | raft =>
    obtain ⟨other, taken, given', next''⟩ := inv.other.writeBlock effect e.index
    exact ⟨other, taken, given', next''.trans next.symm⟩
  | pulled =>
    obtain ⟨other, taken, knows, next'', last⟩ := inv.other.toRemembers.commitBlock effect (config ▸ fine) applied.lastMetadata
    refine ⟨other, taken, Assigned.of_remembers knows given (next''.trans next.symm) ?_ ?_, next''.trans next.symm⟩
    · rw [last, knows.config, ← given.config, given.lastIds, given.ids]
    · rw [last, knows.config, ← given.config, given.lastNext]
  | snapshot =>
    obtain ⟨keeps, ordered⟩ := fine
    obtain ⟨inOrder, nextInOrder⟩ := ordered applied written
    obtain ⟨other, taken, knows, next'', last⟩ := inv.other.toRemembers.commitBlock effect (config ▸ keeps) none
    refine ⟨other, taken, Assigned.of_remembers knows given (next''.trans next.symm) ?_ ?_, next''.trans next.symm⟩
    · rw [last, knows.config, ← given.config, inOrder]
      rfl
    · rw [last, knows.config, ← given.config, nextInOrder]
      rfl

theorem eq_of_sameMembership {l' : List (Nat × Consenter)} (distinct : Distinct l) (distinct' : Distinct l')
    (ids : l.map (·.1) = l'.map (·.1)) (consenters : consentersOf l = consentersOf l') : l = l' := by
  apply ext_getElem
  · simpa using congrArg List.length ids
  · intro i here here'
    have id : l[i].1 = l'[i].1 := by
      have at_i := congrArg (·[i]?) ids
      simpa [here, here'] using at_i
    apply Prod.ext id
    have left := (get_consentersOf distinct.ids l[i].1 l[i].2).mpr (getElem_mem here)
    have right := (get_consentersOf distinct'.ids l'[i].1 l'[i].2).mpr (getElem_mem here')
    rw [consenters, id, right] at left
    exact (Option.some.inj left).symm

theorem commitBlock_fields (committed : o.commitBlock block metadata = .ok o') :
    o'.config = blockConfig o.config block ∧ o'.lastMetadata = metadata := by
  by_cases update : ∃ cs, block = .config (some cs) ∨ block = .ordererTransaction (some cs)
  · obtain ⟨cs, update⟩ := update
    obtain ⟨ch, comp⟩ := commitBlock_ok committed update
    cases changed : ch.changed with
    | true =>
      rw [commitBlock_changed update comp changed] at committed
      cases committed
      exact ⟨rfl, rfl⟩
    | false =>
      rw [commitBlock_unchanged update comp changed] at committed
      cases committed
      exact ⟨rfl, rfl⟩
  · have silent : ∀ cs, block ≠ .config (some cs) ∧ block ≠ .ordererTransaction (some cs) := by
      intro cs
      exact ⟨fun same => update ⟨cs, .inl same⟩, fun same => update ⟨cs, .inr same⟩⟩
    rw [commitBlock_none silent] at committed
    cases committed
    refine ⟨?_, rfl⟩
    match block, silent with
    | .normal, _ => rfl
    | .config none, _ => rfl
    | .ordererTransaction _, _ => rfl
    | .config (some cs), silent => exact absurd rfl (silent cs).1

-- A list with the same certificates is taken over by the first orderer and ignored by the second.
theorem keepsConsenters_config (left : Assigned a l) (right : Remembers b l)
    (next : b.blockMetadata.nextConsenterId = a.blockMetadata.nextConsenterId)
    (accepted : a.accept checks (.config (some cs)) = .ok ()) {index : Nat} (written : a.writeBlock ⟨index, .config (some cs)⟩ = .ok a')
    (committed : b.commitBlock (.config (some cs)) metadata = .ok b') (same : SameMembership a' b')
    (certs : SameCerts a.config cs) : cs = a.config := by
  obtain ⟨ch, fresh, comp, moved⟩ := left.toRemembers.compute_of_accept accepted
  obtain ⟨ch', mine, moved', -⟩ := computeMembershipChanges_congr next comp moved
  rw [left.config] at certs
  have unchanged := moved'.changed.mpr certs
  rw [← right.consenters] at mine
  rw [commitBlock_unchanged (.inl rfl) mine unchanged] at committed
  cases committed
  rw [← left.consenters] at comp
  rw [writeBlock_config rfl comp] at written
  cases written
  have ids : (reassign l fresh cs).map (·.1) = l.map (·.1) := by
    rw [← moved.ids, ← right.ids]
    exact same.ids
  have consenters : consentersOf (reassign l fresh cs) = consentersOf l := by
    rw [← moved.consenters, ← right.consenters]
    exact same.consenters
  have equal := eq_of_sameMembership moved.distinct left.distinct ids consenters
  rw [left.config, ← equal]
  simp [reassign, Function.comp_def]

-- The second orderer takes the consenters of a new channel for its own.
theorem sameCerts_of_ordererTransaction (left : Assigned a l) (right : Remembers b l)
    (accepted : a.accept checks (.ordererTransaction (some cs)) = .ok ()) {index : Nat}
    (written : a.writeBlock ⟨index, .ordererTransaction (some cs)⟩ = .ok a')
    (committed : b.commitBlock (.ordererTransaction (some cs)) metadata = .ok b') (same : SameMembership a' b') : SameCerts a.config cs := by
  obtain ⟨certs, known⟩ := known_of_accept accepted
  obtain ⟨ch, comp⟩ := commitBlock_ok committed (.inr rfl)
  have comp' := comp
  rw [right.consenters] at comp'
  obtain ⟨fresh, moved, -⟩ := computeMembershipChanges_spec right.distinct right.below certs comp'
  rw [left.config] at known ⊢
  cases changed : ch.changed with
  | false => exact moved.changed.mp changed
  | true =>
    rw [commitBlock_changed (.inr rfl) comp changed] at committed
    cases committed
    rw [writeBlock_plain (e := ⟨index, .ordererTransaction (some cs)⟩) trivial] at written
    cases written
    have ids : l.map (·.1) = (reassign l fresh cs).map (·.1) := by
      rw [← moved.ids, ← left.ids]
      exact same.ids
    intro cert
    constructor
    · intro mem
      obtain ⟨c, listed, rfl⟩ := mem_map.mp mem
      obtain ⟨e, here, rfl⟩ := mem_map.mp listed
      have given : e.1 ∈ (reassign l fresh cs).map (·.1) := ids ▸ mem_map.mpr ⟨e, here, rfl⟩
      obtain ⟨e', listed', equal⟩ := mem_map.mp given
      obtain ⟨c', mem', rfl⟩ := mem_map.mp listed'
      have old := known c' mem'
      rw [map_map] at old
      obtain ⟨id, found⟩ := Option.ne_none_iff_exists'.mp (mt idByCert_eq_none.mp (not_not.mpr old))
      obtain ⟨x, listed'', cert⟩ := idByCert_eq_some found
      simp only [found, Option.getD_some] at equal
      subst equal
      rw [right.distinct.eq_of_id here listed'' rfl]
      exact mem_map.mpr ⟨c', mem', cert.symm⟩
    · intro mem
      obtain ⟨c, listed, rfl⟩ := mem_map.mp mem
      exact known c listed

theorem keepsConsenters_of_agree (left : Assigned a l) (right : Remembers b l)
    (next : b.blockMetadata.nextConsenterId = a.blockMetadata.nextConsenterId)
    (accepted : a.accept checks e.block = .ok ()) (written : a.writeBlock e = .ok a')
    (committed : b.commitBlock e.block metadata = .ok b') (same : SameMembership a' b') : KeepsConsenters a.config e.block := by
  obtain ⟨index, block⟩ := e
  match block, accepted, written, committed with
  | .normal, _, _, _ => trivial
  | .config none, _, _, _ => trivial
  | .ordererTransaction none, _, _, _ => trivial
  | .config (some cs), accepted, written, committed =>
    exact keepsConsenters_config left right next accepted written committed same
  | .ordererTransaction (some cs), accepted, written, committed =>
    exact sameCerts_of_ordererTransaction left right accepted written committed same

theorem writeBlock_newConfig (written : o.writeBlock e = .ok o') : o'.config = blockConfig o.config e.block := by
  obtain ⟨index, block⟩ := e
  match block with
  | .normal => cases written; rfl
  | .config none => cases written; rfl
  | .ordererTransaction _ => cases written; rfl
  | .config (some cs) =>
    obtain ⟨changes, detected, rest⟩ := bind_eq_ok.mp written
    cases rest
    rfl

theorem handleChain_eq_ok (restarted : o.handleChain = .ok o') : o'.blockMetadata = readBlockMetadata o.lastMetadata o.config := by
  obtain ⟨consenters, -, rest⟩ := bind_eq_ok.mp restarted
  cases rest
  rfl

theorem Consistent.eventOk {route : Route} (inv : Consistent p l) (accepted : p.applied.accept checks e.block = .ok ())
    (taken : p.step (.deliver e route) = .ok q) (agree : Agree q) : EventOk p.applied (.deliver e route) := by
  obtain ⟨applied, written, rest⟩ := bind_eq_ok.mp taken
  obtain ⟨other, received, result⟩ := bind_eq_ok.mp rest
  cases result
  cases route with
  | raft => trivial
  | pulled =>
    exact keepsConsenters_of_agree inv.applied inv.other.toRemembers inv.next accepted written received agree.same
  | snapshot =>
    refine ⟨keepsConsenters_of_agree inv.applied inv.other.toRemembers inv.next accepted written received agree.same, ?_⟩
    intro applied' written'
    cases written.symm.trans written'
    obtain ⟨newConfig, last⟩ := commitBlock_fields received
    have config : other.config = applied.config := by
      rw [newConfig, writeBlock_newConfig written, inv.other.config, inv.applied.config]
    obtain ⟨o, restarted, same⟩ := agree.restarted
    have rebuilt := handleChain_eq_ok restarted
    simp only [last, readBlockMetadata, Option.getD_none] at rebuilt
    constructor
    · rw [agree.same.ids, same.ids, rebuilt, config]
    · rw [agree.same.next, same.next, rebuilt, config]

theorem Consistent.restart (inv : Consistent p l) : ∃ q, p.step .restart = .ok q ∧ Consistent q l ∧ q.applied = p.applied := by
  obtain ⟨o, restarted, given, next⟩ := inv.other.handleChain
  refine ⟨⟨p.applied, o⟩, ?_, ⟨inv.applied, given, next.trans inv.next⟩, rfl⟩
  exact bind_eq_ok.mpr ⟨o, restarted, rfl⟩

theorem run_cons (events : List Event) : p.run (event :: events) = p.step event >>= fun q => q.run events :=
  foldlM_cons

def AgreesThroughout (p : Pair) (events : List Event) : Prop :=
  ∀ done, done <+: events → ∃ q, p.run done = .ok q ∧ Agree q

theorem agreesThroughout_cons (agree : Agree p) (taken : p.step event = .ok q) :
    AgreesThroughout p (event :: events) ↔ AgreesThroughout q events := by
  constructor
  · intro holds done part
    obtain ⟨r, ran, agree'⟩ := holds (event :: done) (cons_prefix_cons.mpr ⟨rfl, part⟩)
    rw [run_cons, taken] at ran
    exact ⟨r, ran, agree'⟩
  · intro holds done part
    cases done with
    | nil => exact ⟨p, rfl, agree⟩
    | cons first done =>
      obtain ⟨rfl, rest⟩ := cons_prefix_cons.mp part
      obtain ⟨r, ran, agree'⟩ := holds done rest
      refine ⟨r, ?_, agree'⟩
      rw [run_cons, taken]
      exact ran

theorem agreesThroughout_iff (inv : Consistent p l) (accepted : Accepted checks p.applied (entriesOf events)) :
    AgreesThroughout p events ↔ EventsOk p.applied events := by
  induction events generalizing p l with
  | nil =>
    refine ⟨fun _ => trivial, ?_⟩
    intro _ done part
    cases prefix_nil.mp part
    exact ⟨p, rfl, inv.agree⟩
  | cons event events ih =>
    cases event with
    | restart =>
      obtain ⟨q, taken, inv', applied⟩ := inv.restart
      rw [agreesThroughout_cons inv.agree taken, ih inv' (applied ▸ accepted), applied]
      rfl
    | deliver e route =>
      obtain ⟨accepted, later⟩ := accepted
      have next : EventOk p.applied (.deliver e route) →
          (AgreesThroughout p (.deliver e route :: events) ↔ EventsOk p.applied (.deliver e route :: events)) := by
        intro fine
        obtain ⟨q, l', taken, inv', written⟩ := inv.deliver accepted fine
        rw [agreesThroughout_cons inv.agree taken, ih inv' (later q.applied written)]
        constructor
        · intro rest
          refine ⟨fine, ?_⟩
          intro applied' written'
          cases written.symm.trans written'
          exact rest
        · intro rest
          exact rest.2 q.applied written
      constructor
      · intro holds
        obtain ⟨q, ran, agree⟩ := holds [.deliver e route] (cons_prefix_cons.mpr ⟨rfl, nil_prefix⟩)
        rw [run_cons] at ran
        obtain ⟨r, taken, last⟩ := bind_eq_ok.mp ran
        cases last
        exact (next (inv.eventOk accepted taken agree)).mp holds
      · intro fine
        exact (next fine.1).mpr fine

/-- However the blocks of a chain arrive, an orderer has the consenter ids of one that applied them through Raft, and
rebuilds them after a restart, exactly when every block that did not come through Raft meets the condition. -/
theorem membership_independent_of_route {genesis : List Consenter} (verified : verifyConfigMetadata checks genesis = .ok ())
    (accepted : Accepted checks (newOrderer genesis) (entriesOf events)) :
    (∀ done, done <+: events → ∃ p, (newPair genesis).run done = .ok p ∧ Agree p) ↔ EventsOk (newOrderer genesis) events := by
  have given := Assigned.newOrderer (nodup_of_verifyConfigMetadata verified)
  exact agreesThroughout_iff (p := newPair genesis) ⟨given, given, rfl⟩ accepted

instance (xs ys : List Consenter) : Decidable (SameCerts xs ys) :=
  decidable_of_iff ((∀ cert ∈ xs.map (·.clientTlsCert), cert ∈ ys.map (·.clientTlsCert)) ∧
      ∀ cert ∈ ys.map (·.clientTlsCert), cert ∈ xs.map (·.clientTlsCert)) (by
    unfold SameCerts
    exact ⟨fun both cert => ⟨both.1 cert, both.2 cert⟩, fun same => ⟨fun cert => (same cert).mp, fun cert => (same cert).mpr⟩⟩)

instance (config : List Consenter) : (block : Block) → Decidable (KeepsConsenters config block)
  | .normal | .config none | .ordererTransaction none => inferInstanceAs (Decidable True)
  | .config (some cs) => inferInstanceAs (Decidable (SameCerts config cs → cs = config))
  | .ordererTransaction (some cs) => inferInstanceAs (Decidable (SameCerts config cs))

instance (o : Orderer) : Decidable (InOrder o) := inferInstanceAs (Decidable (_ ∧ _))

def decidableAfter (x : Result Orderer) (P : Orderer → Prop) (decide : ∀ o, Decidable (P o)) : Decidable (∀ o, x = .ok o → P o) :=
  match x with
  | .ok o => decidable_of_iff (P o) ⟨fun holds _ same => ok.inj same ▸ holds, fun holds => holds o rfl⟩
  | .error _ => isTrue fun _ failed => nomatch failed

instance (o : Orderer) : (event : Event) → Decidable (EventOk o event)
  | .restart | .deliver _ .raft => inferInstanceAs (Decidable True)
  | .deliver e .pulled => inferInstanceAs (Decidable (KeepsConsenters o.config e.block))
  | .deliver e .snapshot =>
    @instDecidableAnd _ _ (inferInstanceAs (Decidable (KeepsConsenters o.config e.block)))
      (decidableAfter (o.writeBlock e) InOrder inferInstance)

def decidableEventsOk : (events : List Event) → (o : Orderer) → Decidable (EventsOk o events)
  | [], _ => isTrue trivial
  | .restart :: events, o => decidableEventsOk events o
  | .deliver e route :: events, o =>
    @instDecidableAnd _ _ (inferInstanceAs (Decidable (EventOk o (.deliver e route))))
      (decidableAfter (o.writeBlock e) (EventsOk · events) (decidableEventsOk events))

instance (o : Orderer) (events : List Event) : Decidable (EventsOk o events) := decidableEventsOk events o

def decidableOk : (x : Result Unit) → Decidable (x = .ok ())
  | .ok () => isTrue rfl
  | .error _ => isFalse fun same => nomatch same

def decidableAccepted (checks : Checks) : (es : List Entry) → (o : Orderer) → Decidable (Accepted checks o es)
  | [], _ => isTrue trivial
  | e :: es, o =>
    @instDecidableAnd _ _ (decidableOk (o.accept checks e.block))
      (decidableAfter (o.writeBlock e) (Accepted checks · es) (decidableAccepted checks es))

instance (o : Orderer) (es : List Entry) : Decidable (Accepted checks o es) := decidableAccepted checks es o

instance (x : Result Unit) : Decidable (x = .ok ()) := decidableOk x

def permissive : Checks := ⟨fun _ => true, fun _ => true⟩

def consenterA : Consenter := ⟨[97], 7050, [1], [2]⟩

def consenterB : Consenter := ⟨[98], 7050, [3], [4]⟩

def consenterC : Consenter := ⟨[99], 7050, [5], [6]⟩

def reordered : List Event := [.deliver ⟨7, .config (some [consenterB, consenterA])⟩ .pulled]

/-- An orderer that fetches a block which only changes the order of the consenters keeps the old order. -/
theorem reorderedConsenters_ignored : verifyConfigMetadata permissive [consenterA, consenterB] = .ok () ∧
    Accepted permissive (newOrderer [consenterA, consenterB]) (entriesOf reordered) ∧
    ∃ p, (newPair [consenterA, consenterB]).run reordered = .ok p ∧ ¬ SameMembership p.applied p.other := by
  refine ⟨by decide +kernel, by decide +kernel, ?_⟩
  have evaluated : (((newPair [consenterA, consenterB]).run reordered).toOption.any fun p =>
      p.applied.blockMetadata.consenterIds == [2, 1] && p.other.blockMetadata.consenterIds == [1, 2]) = true := by
    decide +kernel
  obtain ⟨p, ran, read⟩ := (Option.any_eq_true ..).mp evaluated
  simp only [Bool.and_eq_true, beq_iff_eq] at read
  refine ⟨p, toOption_eq_some.mp ran, ?_⟩
  intro same
  have ids := same.ids
  rw [read.1, read.2] at ids
  cases ids

def grownThenRotated : List Event :=
  [.deliver ⟨3, .config (some [consenterA, consenterB, consenterC])⟩ .pulled, .deliver ⟨4, .normal⟩ .snapshot, .restart,
   .deliver ⟨5, .config (some [consenterC, consenterB])⟩ .pulled, .deliver ⟨6, .normal⟩ .raft, .restart,
   .deliver ⟨8, .config (some [{ consenterC with clientTlsCert := [7] }, consenterB])⟩ .pulled]

theorem grownThenRotated_agrees : ∃ p, (newPair [consenterA, consenterB]).run grownThenRotated = .ok p ∧ Agree p := by
  have verified : verifyConfigMetadata permissive [consenterA, consenterB] = .ok () := by decide +kernel
  have accepted : Accepted permissive (newOrderer [consenterA, consenterB]) (entriesOf grownThenRotated) := by decide +kernel
  have fine : EventsOk (newOrderer [consenterA, consenterB]) grownThenRotated := by decide +kernel
  exact (membership_independent_of_route verified accepted).mpr fine grownThenRotated (prefix_refl _)

end Fabric.Proof.Etcdraft
