import Fabric.Proof.Lifecycle.CacheUpdates

/-! # What the requests of a block change -/

namespace Fabric.Proof.Lifecycle

open Lib Fabric.Ledger Fabric.Lifecycle
open List hiding getElem?_insert

variable {h : Hashing} {org name : Bytes} {st st' : ChannelState} {su su' : ChannelState × StateUpdates}
  {entries : List (OrgKey × Bytes)} {ccname : Bytes} {cd : ChaincodeDefinition} {s : OrgState} {mspID packageID : Bytes}

theorem putEntries_append (xs ys : List (OrgKey × Bytes)) (s : OrgState) : putEntries (xs ++ ys) s = putEntries ys (putEntries xs s) := by
  simp [putEntries]

theorem putEntries_eq (entries : List (OrgKey × Bytes)) (s : OrgState) (k : OrgKey) :
    putEntries entries s k = (lastFor k entries).or (s k) := by
  induction entries using reverseRecOn with
  | nil => simp [putEntries, lastFor]
  | append_singleton entries e ih =>
    rw [putEntries_append, lastFor_concat]
    show (if k = e.1 then some e.2 else putEntries entries s k) = _
    by_cases same : e.1 = k
    · simp [same]
    · simp [same, Ne.symm same, ih]

theorem putEntries_serialize (distinct : (entries.map (·.1)).Nodup) (s : OrgState) :
    putEntries (serialize entries s) s = putEntries entries s := by
  funext k
  rw [putEntries_eq, putEntries_eq]
  have distinct' : ((serialize entries s).map (·.1)).Nodup := distinct.sublist (List.Sublist.map _ filter_sublist)
  cases found : lastFor k entries with
  | none =>
    have absent : lastFor k (serialize entries s) = none := by
      rw [lastFor_eq_none] at found ⊢
      intro v mem
      exact found v (mem_of_mem_filter mem)
    rw [absent]
  | some v =>
    have listed := mem_of_lastFor found
    by_cases same : s k = some v
    · have absent : lastFor k (serialize entries s) = none := by
        rw [lastFor_eq_none]
        intro v' mem
        obtain ⟨listed', differs⟩ := mem_filter.mp mem
        have : some v = some v' := (lastFor_of_mem distinct listed).symm.trans (lastFor_of_mem distinct listed')
        simp [same, this] at differs
      rw [absent, same]
      rfl
    · have kept : (k, v) ∈ serialize entries s := by
        apply mem_filter.mpr
        exact ⟨listed, by simpa using same⟩
      rw [lastFor_of_mem distinct' kept]

theorem nodup_approvalEntries (cd : ChaincodeDefinition) (packageID : Bytes) : ((approvalEntries h name cd packageID).map (·.1)).Nodup := by
  simp [approvalEntries]

structure Paired (h : Hashing) (s : OrgState) : Prop where
  sources : ∀ name sequence, s ⟨name, sequence, .sourcesMetadata⟩ =
    (s ⟨name, sequence, .packageID⟩).map fun _ => h.valueHash h.localPackageMetadata

theorem Paired.approve (paired : Paired h s) (cd : ChaincodeDefinition) (packageID : Bytes) :
    Paired h (putEntries (serialize (approvalEntries h name cd packageID) s) s) where
  sources := by
    intro name' sequence
    rw [putEntries_serialize (nodup_approvalEntries cd packageID)]
    simp only [putEntries, approvalEntries, foldl_cons, foldl_nil, OrgKey.mk.injEq, reduceCtorEq, and_false, if_false, and_true]
    split
    · rfl
    · exact paired.sources name' sequence

structure Listed (h : Hashing) (st : ChannelState) (su : ChannelState × StateUpdates) : Prop where
  definitions : ∀ name, name ∉ su.2.publicUpdates → su.1.definitions[name]? = st.definitions[name]?
  org : ∀ org k, (org, h.keyHash k) ∉ su.2.collHashUpdates → su.1.orgStates org k = st.orgStates org k
  names : ∀ name ∈ su.2.publicUpdates, name ∈ su.1.definitions

structure RequestInv (h : Hashing) (st : ChannelState) (su : ChannelState × StateUpdates) : Prop where
  listed : Listed h st su
  kept : ∀ name, name ∈ st.definitions → name ∈ su.1.definitions
  paired : ∀ org, Paired h (su.1.orgStates org)

theorem RequestInv.commit (inv : RequestInv h st su) (committed : commitChaincodeDefinition su.1 ccname cd = .ok st') :
    RequestInv h st (st', { su.2 with publicUpdates := su.2.publicUpdates ++ [ccname] }) := by
  unfold commitChaincodeDefinition at committed
  simp only at committed
  split at committed
  · cases committed
  · cases committed
    refine ⟨⟨?_, inv.listed.org, ?_⟩, ?_, inv.paired⟩
    · intro name absent
      simp only [mem_append, mem_singleton, not_or] at absent
      rw [← inv.listed.definitions name absent.1]
      simp [getElem?_insert, Ne.symm absent.2]
    · intro name mem
      simp only [mem_append, mem_singleton] at mem
      simp only [mem_insertKey]
      cases mem with
      | inl before => exact Or.inr (inv.listed.names name before)
      | inr same => exact Or.inl same.symm
    · intro name mem
      simp only [mem_insert]
      exact Or.inr (inv.kept name mem)

theorem approve_eq_ok (approved : approveChaincodeDefinitionForOrg h st mspID ccname cd packageID = .ok entries) :
    entries = serialize (approvalEntries h ccname cd packageID) (st.orgStates mspID) := by
  unfold approveChaincodeDefinitionForOrg at approved
  simp only at approved
  repeat' split at approved
  all_goals cases approved
  rfl

theorem RequestInv.approve (inv : RequestInv h st su)
    (approved : approveChaincodeDefinitionForOrg h su.1 mspID ccname cd packageID = .ok entries) :
    RequestInv h st (su.1.putOrgEntries mspID entries, { su.2 with
      collHashUpdates := su.2.collHashUpdates ++ entries.map fun e => (mspID, h.keyHash e.1) }) := by
  rw [approve_eq_ok approved]
  refine ⟨⟨inv.listed.definitions, ?_, inv.listed.names⟩, inv.kept, ?_⟩
  · intro org k absent
    simp only [mem_append, not_or] at absent
    rw [← inv.listed.org org k absent.1]
    simp only [ChannelState.putOrgEntries, Function.update_apply]
    split
    · rename_i same
      subst same
      rw [putEntries_eq]
      have unwritten : lastFor k (serialize (approvalEntries h ccname cd packageID) (su.1.orgStates org)) = none := by
        rw [lastFor_eq_none]
        intro v mem
        exact absent.2 (mem_map.mpr ⟨(k, v), mem, rfl⟩)
      rw [unwritten]
      rfl
    · rfl
  · intro org
    simp only [ChannelState.putOrgEntries, Function.update_apply]
    split
    · exact (inv.paired mspID).approve cd packageID
    · exact inv.paired org

theorem applyRequests_inv {requests : List Request} (paired : ∀ org, Paired h (st.orgStates org))
    (applied : applyRequests h st requests = .ok su) : RequestInv h st su := by
  apply foldlM_invariant (fun _ => RequestInv h st) applied
  · exact ⟨⟨fun _ _ => rfl, fun _ _ _ => rfl, fun _ mem => by simp at mem⟩, fun _ mem => mem, paired⟩
  · intro _ request su su' _ inv taken
    cases request with
    | commit ccname cd =>
      obtain ⟨st', committed, rest⟩ := bind_eq_ok.mp taken
      cases rest
      exact inv.commit committed
    | approve mspID ccname cd packageID =>
      obtain ⟨entries, approved, rest⟩ := bind_eq_ok.mp taken
      cases rest
      exact inv.approve approved

theorem paired_empty : Paired h (ChannelState.empty.orgStates org) where
  sources := fun _ _ => rfl

theorem wantedFor_congr {s' : OrgState} (paired : Paired h s) (paired' : Paired h s') (cd : ChaincodeDefinition)
    (same : ∀ field, field ≠ .sourcesMetadata → s' ⟨name, cd.sequence, field⟩ = s ⟨name, cd.sequence, field⟩) :
    wantedFor h s' name cd = wantedFor h s name cd := by
  have serialized : isSerialized h s' name cd = isSerialized h s name cd := by
    unfold isSerialized
    rw [same .metadata (by decide), same .endorsementInfo (by decide), same .validationInfo (by decide), same .collections (by decide)]
  have packageID := same .packageID (by decide)
  have localPackage : isLocalPackage h s' name cd = isLocalPackage h s name cd := by
    unfold isLocalPackage
    rw [paired'.sources, paired.sources, packageID]
  have hash : hashOfCCHash s' name cd = hashOfCCHash s name cd := by
    unfold hashOfCCHash
    rw [packageID]
  unfold wantedFor
  rw [serialized, localPackage, hash]

theorem mem_definitionHashes {field : OrgField} (other : field ≠ .sourcesMetadata) :
    h.keyHash ⟨name, cd.sequence, field⟩ ∈ definitionHashes h name cd := by
  apply mem_map.mpr
  refine ⟨field, ?_, rfl⟩
  cases field <;> simp at other ⊢

theorem wanted_of_listed (paired : ∀ org, Paired h (st.orgStates org)) (inv : RequestInv h st su) (uncommitted : name ∉ su.2.publicUpdates)
    (unapproved : ∀ cd, st.definitions[name]? = some cd → ∀ k ∈ definitionHashes h name cd, (org, k) ∉ su.2.collHashUpdates) :
    wanted h org su.1 name = wanted h org st name := by
  unfold wanted
  rw [inv.listed.definitions name uncommitted]
  cases found : st.definitions[name]? with
  | none => rfl
  | some cd =>
    rw [Option.map_some, Option.map_some]
    apply congrArg some
    apply wantedFor_congr (paired org) (inv.paired org)
    intro field other
    exact inv.listed.org org _ (unapproved cd found _ (mem_definitionHashes other))

end Fabric.Proof.Lifecycle
