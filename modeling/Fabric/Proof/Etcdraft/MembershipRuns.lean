import Fabric.Lib.Transition
import Fabric.Proof.Etcdraft.Membership

/-! # Consenter ids over any updates -/

namespace Fabric.Proof.Etcdraft

open Lib Fabric.Etcdraft.Membership List

def update (o : Orderer) (cs : List Consenter) : Option Orderer :=
  (computeMembershipChanges o.blockMetadata o.consenters cs).toOption.map fun ch =>
    (o.setMembership ch).append (some cs) none

def NoDuplicates (_ : Orderer) (cs : List Consenter) : Prop :=
  (cs.map (·.clientTlsCert)).Nodup

variable {o o' : Orderer} {cs : List Consenter} {ch : MembershipChanges} {l : List (Nat × Consenter)}
  {md : BlockMetadata} {voters : List Nat} {id fresh : Nat} {updates : List (List Consenter)}

theorem filter_eq_singleton (id : Nat) {xs : List Nat} {p : Nat → Bool} (nodup : xs.Nodup) (only : ∀ x, x ∈ xs ∧ p x ↔ x = id) :
    xs.filter p = [id] := by
  apply perm_singleton.mp
  rw [perm_ext_iff_of_nodup (nodup.filter p) (nodup_singleton id)]
  simpa using only

theorem confChange_eq {change : Option ConfChange} (ids : md.consenterIds.Nodup) (nodup : voters.Nodup)
    (changes : md.consenterIds.toFinset = applyConfChange voters.toFinset change)
    (added : ∀ id, change = some (.addNode id) → id ∉ voters) (removed : ∀ id, change = some (.removeNode id) → id ∈ voters) :
    change = if voters.length = md.consenterIds.length then none else some (confChange md voters) := by
  have size := congrArg Finset.card changes
  rw [toFinset_card_of_nodup ids] at size
  have mem : ∀ x, x ∈ md.consenterIds ↔ x ∈ applyConfChange voters.toFinset change := by
    intro x
    rw [← changes, mem_toFinset]
  match change with
  | none =>
    rw [applyConfChange, toFinset_card_of_nodup nodup] at size
    rw [if_pos size.symm]
  | some (.addNode id) =>
    have new := added id rfl
    rw [applyConfChange, Finset.card_insert_of_notMem (by simpa using new), toFinset_card_of_nodup nodup] at size
    rw [if_neg (by omega), confChange, if_pos (by omega), filter_eq_singleton id ids]
    · rfl
    · intro x
      simp only [mem, applyConfChange, Finset.mem_insert, mem_toFinset]
      grind
  | some (.removeNode id) =>
    have old := removed id rfl
    rw [applyConfChange, Finset.card_erase_of_mem (by simpa using old), toFinset_card_of_nodup nodup] at size
    have := length_pos_of_mem old
    rw [if_neg (by omega), confChange, if_neg (by omega), filter_eq_singleton id nodup]
    · rfl
    · intro x
      simp only [mem, applyConfChange, Finset.mem_erase, mem_toFinset]
      grind

theorem Shape.changes (shape : Shape l cs md fresh ch) (uniq : Distinct l) (reassigned : Reassigned l cs fresh ch) :
    ch.newBlockMetadata.consenterIds.toFinset = applyConfChange (l.map (·.1)).toFinset ch.confChange ∧
    (∀ id, ch.confChange = some (.addNode id) → id = md.nextConsenterId) ∧
    (∀ id, ch.confChange = some (.removeNode id) → id ∈ l.map (·.1)) ∧ ch.addedNodes.length ≤ 1 ∧ ch.removedNodes.length ≤ 1 ∧
    md.nextConsenterId ≤ ch.newBlockMetadata.nextConsenterId := by
  obtain ⟨areAdded, areRemoved, shape⟩ := shape
  have listed : ∀ e ∈ removedEntries l cs, e.1 ∈ l.map (·.1) :=
    fun e mem => mem_map_of_mem ((mem_removedEntries uniq).mp mem).1
  have ids := fun id => @mem_ids_reassign id l cs fresh uniq _ (get_membershipByCert uniq)
  simp only [← areAdded, ← reassigned.ids] at ids
  have changes (kind : ∀ id, id ∈ ch.newBlockMetadata.consenterIds ↔ id ∈ applyConfChange (l.map (·.1)).toFinset ch.confChange) :
      ch.newBlockMetadata.consenterIds.toFinset = applyConfChange (l.map (·.1)).toFinset ch.confChange :=
    Finset.ext fun id => mem_toFinset.trans (kind id)
  split at shape
  case h_1 c e oneAdded oneRemoved => 
    obtain ⟨rfl, none, next⟩ := shape
    refine ⟨changes fun id => ?_, by simp [none], by simp [none], by simp [oneAdded], by simp [areRemoved, oneRemoved], next.ge⟩
    rw [ids, oneAdded, oneRemoved, none]
    have := listed e (by simp [oneRemoved])
    simp only [applyConfChange, mem_toFinset]
    grind
  case h_2 c oneAdded noneRemoved =>
    obtain ⟨rfl, isAdd, next⟩ := shape
    refine ⟨changes fun id => ?_, by simp [isAdd], by simp [isAdd], by simp [oneAdded], by simp [areRemoved, noneRemoved], by omega⟩
    rw [ids, oneAdded, noneRemoved, isAdd]
    simp [applyConfChange, or_comm]
  case h_3 e noneAdded oneRemoved =>
    obtain ⟨isRemove, next⟩ := shape
    have mem := listed e (by simp [oneRemoved])
    refine ⟨changes fun id => ?_, by simp [isRemove], by simpa [isRemove] using mem, by simp [noneAdded],
      by simp [areRemoved, oneRemoved], next.ge⟩
    rw [ids, noneAdded, oneRemoved, isRemove]
    simp [applyConfChange, and_comm]
  case h_4 noneAdded noneRemoved =>
    obtain ⟨none, next⟩ := shape
    refine ⟨changes fun id => ?_, by simp [none], by simp [none], by simp [noneAdded], by simp [areRemoved, noneRemoved], next.ge⟩
    rw [ids, noneAdded, noneRemoved, none]
    simp [applyConfChange]
  case h_5 => exact shape.elim

/-- An update adds, removes or rotates at most one consenter, and the Raft configuration changes as the ids do. -/
structure Moved (o : Orderer) (ch : MembershipChanges) : Prop where
  single : ch.addedNodes.length ≤ 1 ∧ ch.removedNodes.length ≤ 1
  voters : ch.newBlockMetadata.consenterIds.toFinset = applyConfChange o.blockMetadata.consenterIds.toFinset ch.confChange
  derived : ∀ voters, voters.Perm o.blockMetadata.consenterIds → ch.confChange =
    if voters.length = ch.newBlockMetadata.consenterIds.length then none else some (confChange ch.newBlockMetadata voters)
  next : o.blockMetadata.nextConsenterId ≤ ch.newBlockMetadata.nextConsenterId
  -- An id changes hands only when the certificate of its consenter is rotated.
  kept : ∀ id c, ch.newConsenters[id]? = some c → id = o.blockMetadata.nextConsenterId ∨
    ∃ c₀, o.consenters[id]? = some c₀ ∧ (c₀.clientTlsCert = c.clientTlsCert ∨ ch.removedNodes = [c₀] ∧ ch.addedNodes = [c])

theorem Shape.kept (shape : Shape l cs md fresh ch) (uniq : Distinct l) {c : Consenter} (mem : (id, c) ∈ reassign l fresh cs) :
    id = md.nextConsenterId ∨ ∃ c₀, (id, c₀) ∈ l ∧
      (c₀.clientTlsCert = c.clientTlsCert ∨ ch.removedNodes = [c₀] ∧ ch.addedNodes = [c]) := by
  obtain ⟨areAdded, areRemoved, shape⟩ := shape
  obtain ⟨c, listed, assigned⟩ := mem_map.mp mem
  cases assigned
  cases found : idByCert l c.clientTlsCert with
  | some id =>
    obtain ⟨c₀, old, cert⟩ := idByCert_eq_some found
    exact .inr ⟨c₀, old, .inl cert⟩
  | none =>
    have new : c ∈ ch.addedNodes := by
      rw [areAdded, mem_filter, isNew_iff (get_membershipByCert uniq)]
      exact ⟨listed, found⟩
    split at shape
    case h_1 a e oneAdded oneRemoved =>
      obtain rfl : c = a := by simpa [oneAdded] using new
      have old := ((mem_removedEntries uniq).mp (oneRemoved ▸ mem_singleton_self e)).1
      exact .inr ⟨e.2, shape.1 ▸ old, .inr ⟨by simp [areRemoved, oneRemoved], oneAdded⟩⟩
    case h_2 => exact .inl shape.1
    case h_3 noneAdded _ => simp [noneAdded] at new
    case h_4 noneAdded _ => simp [noneAdded] at new
    case h_5 => exact shape.elim

theorem Remembers.moved (remembers : Remembers o l) (certs : NoDuplicates o cs)
    (computed : computeMembershipChanges o.blockMetadata o.consenters cs = .ok ch) :
    Moved o ch ∧ ∃ l', Remembers ((o.setMembership ch).append (some cs) none) l' := by
  rw [remembers.consenters] at computed
  obtain ⟨fresh, reassigned, shape⟩ := computeMembershipChanges_spec remembers.distinct remembers.below certs computed
  obtain ⟨voters, added, removed, oneAdded, oneRemoved, next⟩ := shape.changes remembers.distinct reassigned
  rw [← remembers.ids] at voters removed
  refine ⟨⟨⟨oneAdded, oneRemoved⟩, voters, fun vs perm => ?_, next, fun id c held => ?_⟩, reassign l fresh cs, .setMembership reassigned⟩
  · apply confChange_eq (reassigned.ids ▸ reassigned.distinct.ids) (perm.nodup_iff.mpr (remembers.ids ▸ remembers.distinct.ids))
    · rw [voters, toFinset_eq_of_perm _ _ perm]
    · intro id isAdd mem
      obtain ⟨e, listed, rfl⟩ := mem_map.mp (remembers.ids ▸ perm.mem_iff.mp mem)
      have := remembers.below e listed
      have := added _ isAdd
      omega
    · exact fun id isRemove => perm.mem_iff.mpr (removed id isRemove)
  · rw [reassigned.consenters, get_consentersOf reassigned.distinct.ids] at held
    simp only [remembers.consenters, get_consentersOf remembers.distinct.ids]
    exact shape.kept remembers.distinct held

theorem Remembers.mem_ids (remembers : Remembers o l) : id ∈ o.blockMetadata.consenterIds ↔ ∃ c, o.consenters[id]? = some c := by
  simp [remembers.ids, remembers.consenters, get_consentersOf remembers.distinct.ids]

structure Since (o : Orderer) (updates : List (List Consenter)) (o' : Orderer) : Prop where
  remembers : ∃ l, Remembers o' l
  config : o'.config = updates.getLastD o.config
  next : o.blockMetadata.nextConsenterId ≤ o'.blockMetadata.nextConsenterId
  ids : ∀ id ∈ o'.blockMetadata.consenterIds, id ∈ o.blockMetadata.consenterIds ∨ o.blockMetadata.nextConsenterId ≤ id

theorem Remembers.run (remembers : Remembers o l)
    (run : Reaches update NoDuplicates o updates o') : Since o updates o' := by
  refine run.invariant (Since o) ⟨⟨l, remembers⟩, rfl, le_rfl, fun _ => .inl⟩ ?_
  rintro updates o' cs _ ⟨⟨l', remembers'⟩, -, later, fresh⟩ certs taken
  obtain ⟨ch, computed, rfl⟩ := Option.map_eq_some_iff.mp taken
  obtain ⟨moved, l'', remembers''⟩ := remembers'.moved certs (toOption_eq_some.mp computed)
  refine ⟨⟨l'', remembers''⟩, by simp [Orderer.append], later.trans moved.next, fun id mem => ?_⟩
  obtain ⟨c, held⟩ := remembers''.mem_ids.mp mem
  rcases moved.kept id c held with rfl | ⟨c₀, old, -⟩
  · exact .inr later
  · exact fresh id (remembers'.mem_ids.mpr ⟨c₀, old⟩)

/-- However the consenters of a channel are updated, no id is given twice. -/
theorem consenterIds_neverReused {first : List Consenter}
    (certs : (first.map (·.clientTlsCert)).Nodup) (run : Reaches update NoDuplicates (newOrderer first) updates o) :
    o.blockMetadata.consenterIds.Nodup ∧
    o.config = updates.getLastD first ∧ o.blockMetadata.consenterIds.length = o.config.length ∧
    createConsentersMap o.blockMetadata o.config = .ok o.consenters ∧
    (∀ id ∈ o.blockMetadata.consenterIds, id < o.blockMetadata.nextConsenterId) ∧
    (∀ later o', Reaches update NoDuplicates o later o' → ∀ id < o.blockMetadata.nextConsenterId,
      id ∉ o.blockMetadata.consenterIds → id ∉ o'.blockMetadata.consenterIds) ∧
    ∀ cs ch, NoDuplicates o cs → computeMembershipChanges o.blockMetadata o.consenters cs = .ok ch → Moved o ch := by
  obtain ⟨⟨l, remembers⟩, config, -, -⟩ := (Assigned.newOrderer certs).toRemembers.run run
  refine ⟨remembers.ids ▸ remembers.distinct.ids, config, by simp [remembers.ids, remembers.config], ?_, fun id mem => ?_,
    fun later o' more id below absent mem => ?_, fun cs ch fine computed => (remembers.moved fine computed).1⟩
  · rw [remembers.config, remembers.consenters]
    exact createConsentersMap_eq remembers.ids
  · obtain ⟨e, listed, rfl⟩ := mem_map.mp (remembers.ids ▸ mem)
    exact remembers.below e listed
  · rcases (remembers.run more).ids id mem with old | new
    · exact absent old
    · omega

instance (o : Orderer) (cs : List Consenter) : Decidable (NoDuplicates o cs) :=
  inferInstanceAs (Decidable (cs.map (·.clientTlsCert)).Nodup)

theorem grownThenShrunk_neverReused : ∃ o, Reaches update NoDuplicates (newOrderer [consenterA, consenterB])
      [[consenterA, consenterB, consenterC], [consenterC, consenterB]] o ∧ o.blockMetadata.consenterIds = [3, 2] ∧
    ∀ later o', Reaches update NoDuplicates o later o' → 1 ∉ o'.blockMetadata.consenterIds := by
  refine exists_reaches (fun o => o.blockMetadata.consenterIds = [3, 2] ∧ 1 < o.blockMetadata.nextConsenterId) (by decide +kernel)
    fun o run shown => ?_
  obtain ⟨ids, next⟩ := shown
  have reused := (consenterIds_neverReused (by decide +kernel) run).2.2.2.2.2.1
  exact ⟨ids, fun later o' more => reused later o' more 1 next (by simp [ids])⟩

end Fabric.Proof.Etcdraft
