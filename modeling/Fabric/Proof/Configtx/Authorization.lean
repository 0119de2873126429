import Fabric.Proof.Configtx.Flatten

/-! # Every change of a configuration is authorised -/

namespace Fabric.Configtx

/-- What an element says itself.  A group names its children. -/
inductive Content where
  | group (groups values policies : List String)
  | value (value : List UInt8)
  | policy (policy : Option Policy)

structure Item where
  version : UInt64
  modPolicy : String
  content : Content

def Element.item : Element → Item
  | .group g => ⟨g.version, g.modPolicy, .group (g.groups.map (·.1)) (g.values.map (·.1)) (g.policies.map (·.1))⟩
  | .value v => ⟨v.version, v.modPolicy, .value v.value⟩
  | .policy p => ⟨p.version, p.modPolicy, .policy p.policy⟩

end Fabric.Configtx

namespace Fabric.Proof.Configtx

open Lib Fabric.Configtx Option Element ValidatorImpl
open List hiding mem_keys

variable {key root name nameSpace channelID : String} {unmarshal : Unmarshaller} {env : ConfigUpdateEnvelope} {path : List String}
  {depth : Nat} {g h : ConfigGroup} {cg : Comparable} {kind : Kind} {e : Element} {pm : ManagerImpl}
  {config : Config}

def Satisfied (vi : ValidatorImpl) (sigs : List SignedData) (cg : Comparable) : Prop :=
  ∃ policy, vi.policyForItem cg = .ok (some policy) ∧ policy.evaluateSignedData sigs = .ok ()

inductive Change (vi : ValidatorImpl) (sigs : List SignedData) : Option Comparable → Comparable → Prop where
  | same (cg : Comparable) : Change vi sigs (some cg) cg
  | added {cg : Comparable} (version : cg.version = 0) : Change vi sigs none cg
  | raised {existing cg : Comparable} (version : cg.version = existing.version + 1)
      (satisfied : Satisfied vi sigs existing) : Change vi sigs (some existing) cg

structure Authorized (vi : ValidatorImpl) (sigs : List SignedData) (writeSet : Option ConfigGroup) (m : ConfigMap) :
    Prop where
  change : ∀ (key : String) cg, m[key]? = some cg → Change vi sigs vi.configMap[key]? cg
  source : ∀ (key : String) cg, m[key]? = some cg →
    vi.configMap[key]? = some cg ∨ ∃ written, mapConfig writeSet vi.nameSpace = .ok written ∧ written[key]? = some cg

theorem change_of_verifyDelta {vi : ValidatorImpl} {sigs : List SignedData} {value : Comparable}
    (run : vi.verifyDelta sigs key value = .ok ()) : Change vi sigs vi.configMap[key]? value := by
  simp only [verifyDelta, bind_eq_ok, wrapf_eq_ok] at run
  obtain ⟨_, -, run⟩ := run
  split at run
  · rename_i absent
    rw [absent]
    split_ifs at run with version
    exact .added (not_not.mp version)
  · rename_i existing present
    rw [present]
    split_ifs at run with version
    obtain ⟨policy, found, run⟩ := bind_eq_ok.mp run
    cases policy with
    | none => cases run
    | some policy => exact .raised (not_not.mp version) ⟨policy, found, wrapf_eq_ok.mp run⟩

theorem authorizeUpdate_eq_ok {vi : ValidatorImpl} {m : ConfigMap} (run : vi.authorizeUpdate unmarshal env = .ok m) :
    ∃ update sigs, unmarshal.configUpdate env.configUpdate = .ok update ∧ configUpdateEnvelopeAsSignedData unmarshal env = .ok sigs ∧
      Authorized vi sigs (update.writeSet.map (·.group)) m := by
  simp only [authorizeUpdate, bind_eq_ok] at run
  obtain ⟨update, decoded, run⟩ := run
  split_ifs at run
  simp only [bind_eq_ok, wrapf_eq_ok] at run
  obtain ⟨readSet, -, _, -, writeSet, mapped, sigs, signed, _, verified, _, -, result⟩ := run
  obtain rfl := ok.inj result
  have delta : ∀ (key : String) cg, (vi.computeUpdateResult (computeDeltaSet readSet writeSet))[key]? = some cg →
      vi.configMap[key]? = some cg ∨ (computeDeltaSet readSet writeSet)[key]? = some cg := by
    intro key cg found
    rw [computeUpdateResult, get_putAll, lastFor_toList, or_eq_some_iff] at found
    rcases found with written | ⟨-, kept⟩
    · exact .inr written
    · exact .inl kept
  refine ⟨update, sigs, decoded, signed, ?_, ?_⟩
  · intro key cg found
    rcases delta key cg found with kept | written
    · rw [kept]
      exact .same cg
    · unfold verifyDeltaSet at verified
      split_ifs at verified
      apply change_of_verifyDelta
      exact forM_eq_ok.mp verified (key, cg) (mem_toList_iff_getElem?_eq_some.mpr written)
  · intro key cg found
    rcases delta key cg found with kept | written
    · exact .inl kept
    · refine .inr ⟨writeSet, mapped, ?_⟩
      rw [computeDeltaSet, Std.ExtTreeMap.getElem?_filter'] at written
      simp only [filter_eq_some_iff] at written
      exact written.1

def fixedItem (m : ConfigMap) (item : Item) : Item := { item with modPolicy := hackyFix m item.modPolicy }

theorem named_eq_ok {α : Type} {get : String → Result α} {names : List String} {xs : List (String × α)}
    (run : names.mapM (named get) = .ok xs) : xs.map (·.1) = names ∧ ∀ e ∈ xs, get e.1 = .ok e.2 := by
  rw [mapM_eq_ok] at run
  induction run with
  | nil => simp
  | cons here _ ih =>
    simp only [named, bind_eq_ok, ok.injEq] at here
    obtain ⟨a, found, rfl⟩ := here
    simp only [map_cons, ih.1, forall_mem_cons, found, true_and]
    exact ih.2

theorem lookupValue_eq_ok {m : ConfigMap} {path : String} {v : ConfigValue} (run : lookupValue m path = .ok v) :
    ∃ cg, m[path]? = some cg ∧ cg.element.kind = .value ∧ (value v).item = fixedItem m cg.element.item := by
  unfold lookupValue at run
  split at run
  · cases run
  · rename_i found
    obtain rfl := ok.inj run
    exact ⟨_, found, rfl, rfl⟩
  · cases run

theorem lookupPolicy_eq_ok {m : ConfigMap} {path : String} {p : ConfigPolicy} (run : lookupPolicy m path = .ok p) :
    ∃ cg, m[path]? = some cg ∧ cg.element.kind = .policy ∧ (policy p).item = fixedItem m cg.element.item := by
  unfold lookupPolicy at run
  split at run
  · cases run
  · rename_i found
    obtain rfl := ok.inj run
    exact ⟨_, found, rfl, rfl⟩
  · cases run

theorem recurseConfigMap_eq_ok {m : ConfigMap} {path : String} (run : recurseConfigMap m depth path = .ok g) :
    (∃ cg, m[groupPrefix ++ path]? = some cg ∧ cg.element.kind = .group ∧ (group g).item = fixedItem m cg.element.item) ∧
    (∀ e ∈ g.groups, ∃ depth', recurseConfigMap m depth' (path ++ pathSeparator ++ e.1) = .ok e.2) ∧
    (∀ e ∈ g.values, lookupValue m (valuePrefix ++ path ++ pathSeparator ++ e.1) = .ok e.2) ∧
    ∀ e ∈ g.policies, lookupPolicy m (policyPrefix ++ path ++ pathSeparator ++ e.1) = .ok e.2 := by
  cases depth with
  | zero => cases run
  | succ depth =>
    rw [recurseConfigMap] at run
    split at run
    · cases run
    · rename_i found
      simp only [bind_eq_ok] at run
      obtain ⟨groups, atGroups, values, atValues, policies, atPolicies, result⟩ := run
      obtain rfl := ok.inj result
      obtain ⟨groupNames, rebuilt⟩ := named_eq_ok atGroups
      obtain ⟨valueNames, foundValues⟩ := named_eq_ok atValues
      obtain ⟨policyNames, foundPolicies⟩ := named_eq_ok atPolicies
      refine ⟨⟨_, found, rfl, ?_⟩, fun e mem => ⟨depth, rebuilt e mem⟩, foundValues, foundPolicies⟩
      simp [item, fixedItem, groupNames, valueNames, policyNames]
    · cases run

theorem length_le_longestPath {m : ConfigMap} (found : m[key]? = some cg) : key.length ≤ longestPath m := by
  apply le_max?_getD_of_mem
  exact List.mem_map.mpr ⟨key, mem_keys.mpr (mem_of_get found), rfl⟩

theorem recurseConfigMap_add {m : ConfigMap} {path : String} (more : Nat) (enough : longestPath m < path.length + depth) :
    recurseConfigMap m (depth + more) path = recurseConfigMap m depth path := by
  induction depth generalizing path with
  | zero =>
    have absent : m[groupPrefix ++ path]? = none := by
      cases found : m[groupPrefix ++ path]? with
      | none => rfl
      | some cg =>
        have := length_le_longestPath found
        rw [String.length_append] at this
        omega
    cases more with
    | zero => rfl
    | succ more =>
      rw [Nat.zero_add]
      simp [recurseConfigMap, absent]
  | succ depth ih =>
    have deeper : ∀ key, recurseConfigMap m (depth + more) (path ++ pathSeparator ++ key) =
        recurseConfigMap m depth (path ++ pathSeparator ++ key) := by
      intro key
      apply ih
      have : pathSeparator.length = 1 := rfl
      rw [String.length_append, String.length_append]
      omega
    rw [Nat.add_right_comm, recurseConfigMap, recurseConfigMap]
    simp [deeper]

theorem rebuilt_groupAt {m : ConfigMap} {above : List String}
    (run : recurseConfigMap m depth (pathText above) = .ok g) (found : g.groupAt path = some h) :
    ∃ depth', recurseConfigMap m depth' (pathText (above ++ path)) = .ok h := by
  induction path generalizing g depth above with
  | nil =>
    obtain rfl := some.inj found
    exact ⟨depth, by simpa using run⟩
  | cons name path ih =>
    simp only [ConfigGroup.groupAt, bind_eq_some_iff] at found
    obtain ⟨next, here, later⟩ := found
    obtain ⟨-, groups, -, -⟩ := recurseConfigMap_eq_ok run
    obtain ⟨depth', inner⟩ := groups _ (mem_of_lookup here)
    rw [← pathText_concat] at inner
    simpa using ih inner later

theorem rebuilt_element {m : ConfigMap} (run : recurseConfigMap m depth (pathText [root]) = .ok g)
    (found : g.element kind path = some e) :
    ∃ cg, m[fqText kind (root :: path)]? = some cg ∧ cg.element.kind = kind ∧ e.item = fixedItem m cg.element.item := by
  cases path using reverseRecOn with
  | nil =>
    rw [element_nil] at found
    split at found
    · rename_i isGroup
      cases found
      subst isGroup
      exact (recurseConfigMap_eq_ok run).1
    · cases found
  | append_singleton path name =>
    obtain ⟨h, parent, child⟩ := groupAt_of_element_concat found
    rw [element_group, map_eq_some_iff] at parent
    obtain ⟨_, parent, same⟩ := parent
    cases same
    obtain ⟨depth', inner⟩ := rebuilt_groupAt run parent
    obtain ⟨-, groups, values, policies⟩ := recurseConfigMap_eq_ok inner
    have text : pathText (root :: (path ++ [name])) = pathText ([root] ++ path) ++ pathSeparator ++ name := by
      rw [← cons_append, pathText_concat, singleton_append]
    rw [fqText, text]
    cases kind <;> simp only [ConfigGroup.child, map_eq_some_iff] at child <;> obtain ⟨x, listed, rfl⟩ := child
    · obtain ⟨_, rebuilt⟩ := groups _ (mem_of_lookup listed)
      exact (recurseConfigMap_eq_ok rebuilt).1
    · have := lookupValue_eq_ok (values _ (mem_of_lookup listed))
      simpa only [Kind.fqPrefix, String.append_assoc] using this
    · have := lookupPolicy_eq_ok (policies _ (mem_of_lookup listed))
      simpa only [Kind.fqPrefix, String.append_assoc] using this

def childNames (g : ConfigGroup) : Kind → List String
  | .group => g.groups.map (·.1)
  | .value => g.values.map (·.1)
  | .policy => g.policies.map (·.1)

theorem child_isSome_iff : (g.child kind name).isSome ↔ name ∈ childNames g kind := by
  have lookups : ∀ {α : Type} (xs : List (String × α)), (xs.lookup name).isSome ↔ name ∈ xs.map (·.1) := by
    intro α xs
    induction xs with
    | nil => simp
    | cons e xs ih =>
      rw [lookup_cons, map_cons, mem_cons, ← ih]
      cases same : name == e.1 with
      | true => simp [eq_of_beq same]
      | false => simp [ne_of_beq_false same]
  cases kind <;> simp only [ConfigGroup.child, isSome_map, childNames] <;> exact lookups _

theorem childNames_of_content (same : (group g).item.content = (group h).item.content) (kind : Kind)
    : childNames g kind = childNames h kind := by
  simp only [item, Content.group.injEq] at same
  cases kind
  · exact same.1
  · exact same.2.1
  · exact same.2.2

theorem exists_above {a b : ConfigGroup} (raised : List String → Prop)
    (step : ∀ path h h', a.element .group path = some (.group h) → b.element .group path = some (.group h') →
      raised path ∨ ∀ kind name, (h.child kind name).isSome ↔ (h'.child kind name).isSome)
    {e : Element} (here : a.element kind path = some e) (gone : b.element kind path = none) :
    ∃ above name below, path = above ++ name :: below ∧ raised above ∧ (below ≠ [] → b.element .group (above ++ [name]) = none) := by
  induction path using reverseRecOn generalizing kind e with
  | nil =>
    rw [element_nil] at here gone
    split at gone
    · cases gone
    · rename_i other
      rw [if_neg other] at here
      cases here
  | append_singleton path name ih =>
    obtain ⟨h, parent, child⟩ := groupAt_of_element_concat here
    cases other : b.element .group path with
    | none =>
      obtain ⟨above, next, below, rfl, isRaised, absent⟩ := ih parent other
      refine ⟨above, next, below ++ [name], by simp, isRaised, fun _ => ?_⟩
      cases below with
      | nil => exact other
      | cons _ _ => exact absent (by simp)
    | some x =>
      have isGroup := kind_of_element other
      cases x <;> cases isGroup
      rename_i h'
      rcases step path h h' parent other with isRaised | same
      · exact ⟨path, name, [], rfl, isRaised, by simp⟩
      · rw [element_group, map_eq_some_iff] at other
        obtain ⟨_, other, eq⟩ := other
        cases eq
        rw [element_concat, other] at gone
        have := (same kind name).mp (by rw [child]; rfl)
        rw [show h'.child kind name = none from gone] at this
        cases this

theorem Flattened.get_eq {m : ConfigMap} (flat : Flattened g root m) (kind : Kind) (separate : ∀ name ∈ root :: path, Separate name) :
    m[fqText kind (root :: path)]? = (g.element kind path).map (comparableAt (root :: path)) := by
  cases found : g.element kind path with
  | some e => exact flat.get kind path e found
  | none =>
    cases got : m[fqText kind (root :: path)]? with
    | none => rfl
    | some cg =>
      obtain ⟨below, e, here, same, -⟩ := flat.mem _ _ got
      obtain ⟨rfl, samePath⟩ := fqText_injective separate (flat.names _ _ _ here) same
      obtain rfl := tail_eq_of_cons_eq samePath
      rw [found] at here
      cases here

theorem Flattened.separate_child {m : ConfigMap} (flat : Flattened g root m) (found : m[key]? = some cg)
    (isGroup : cg.element = .group h) (child : (h.child kind name).isSome) : Separate name := by
  obtain ⟨below, e, here, -, rfl⟩ := flat.mem _ _ found
  change e = _ at isGroup
  subst isGroup
  obtain ⟨x, child⟩ := isSome_iff_exists.mp child
  have parent : g.groupAt below = some h := by
    have := element_group g below
    rw [show g.element .group below = _ from here] at this
    simpa using this.symm
  apply flat.names kind (below ++ [name]) x
  · rw [element_concat, parent]
    exact child
  · simp

theorem flattened_of_tree {tree : Option ConfigTree} {m : ConfigMap}
    (run : mapConfig (tree.map (·.group)) root = .ok m) (found : m[key]? = some cg) : ∃ g, Flattened g root m := by
  cases tree with
  | none =>
    obtain rfl := ok.inj run
    simp at found
  | some tree => exact ⟨tree.group, flattened_of_mapConfig tree.wellFormed run⟩

/-- An accepted update: the map that it was checked on and the tree that was rebuilt from the map. -/
structure Accepted (vi : ValidatorImpl) (cur : ConfigGroup) (sigs : List SignedData) (proposed : ConfigGroup)
    (m : ConfigMap) : Prop where
  flat : Flattened cur vi.nameSpace vi.configMap
  authorized : ∃ update : ConfigUpdate, Authorized vi sigs (update.writeSet.map (·.group)) m
  rebuilt : ∃ depth, recurseConfigMap m depth (pathText [vi.nameSpace]) = .ok proposed

section

variable {vi : ValidatorImpl} {cur proposed : ConfigGroup} {sigs : List SignedData} {m : ConfigMap}

theorem Accepted.separate (accepted : Accepted vi cur sigs proposed m)
    (found : proposed.element kind path = some e) : ∀ name ∈ vi.nameSpace :: path, Separate name := by
  obtain ⟨update, authorized⟩ := accepted.authorized
  obtain ⟨depth, rebuilt⟩ := accepted.rebuilt
  induction path using reverseRecOn generalizing kind e with
  | nil => exact accepted.flat.names .group [] (.group cur) rfl
  | append_singleton path name ih =>
    obtain ⟨h, parent, child⟩ := groupAt_of_element_concat found
    obtain ⟨cg, entry, isGroup, item⟩ := rebuilt_element rebuilt parent
    have listed : name ∈ childNames h kind := child_isSome_iff.mp (by rw [child]; rfl)
    have separate : Separate name := by
      cases source : cg.element with
      | value v => rw [source] at isGroup; cases isGroup
      | policy p => rw [source] at isGroup; cases isGroup
      | group h' =>
        rw [source] at item
        rw [childNames_of_content (h := h') (by rw [item]; rfl)] at listed
        rcases authorized.source _ _ entry with kept | ⟨written, mapped, here⟩
        · exact accepted.flat.separate_child kept source (child_isSome_iff.mpr listed)
        · obtain ⟨g, flat⟩ := flattened_of_tree mapped here
          exact flat.separate_child here source (child_isSome_iff.mpr listed)
    intro other mem
    rw [← cons_append, mem_append, mem_singleton] at mem
    rcases mem with earlier | rfl
    · exact ih parent other earlier
    · exact separate

theorem Accepted.change (accepted : Accepted vi cur sigs proposed m) (found : proposed.element kind path = some e) :
    ∃ cg, Change vi sigs ((cur.element kind path).map (comparableAt (vi.nameSpace :: path))) cg ∧ e.item = fixedItem m cg.element.item := by
  obtain ⟨update, authorized⟩ := accepted.authorized
  obtain ⟨depth, rebuilt⟩ := accepted.rebuilt
  obtain ⟨cg, entry, -, item⟩ := rebuilt_element rebuilt found
  have change := authorized.change _ _ entry
  rw [accepted.flat.get_eq kind (accepted.separate found)] at change
  exact ⟨cg, change, item⟩

end

theorem version_eq (cg : Comparable) : cg.version = cg.element.item.version := by
  unfold Comparable.version
  cases cg.element <;> rfl

def Unchanged (old new : Item) : Prop :=
  new = old ∨ old.modPolicy = "" ∧ new = { old with modPolicy := hackyFixNewModPolicy }

/-- The version of the element goes up by one, and its old modification policy accepts the signatures. -/
def Raised (vi : ValidatorImpl) (sigs : List SignedData) (path : List String) (old new : Element) : Prop :=
  new.item.version = old.item.version + 1 ∧ Satisfied vi sigs (comparableAt (vi.nameSpace :: path) old)

/-- A raised group stands above the path, and what it leads to on the way is not in the other tree. -/
def BelowRaised (vi : ValidatorImpl) (sigs : List SignedData) (cur proposed other : ConfigGroup)
    (path : List String) : Prop :=
  ∃ above name below, path = above ++ name :: below ∧
    (∃ old new, cur.element .group above = some old ∧ proposed.element .group above = some new ∧
      Raised vi sigs above old new) ∧
    (below ≠ [] → other.element .group (above ++ [name]) = none)

theorem unchanged_fixedItem (m : ConfigMap) (item : Item) : Unchanged item (fixedItem m item) := by
  unfold fixedItem hackyFix
  split_ifs with empty
  · exact .inr ⟨empty.2, rfl⟩
  · exact .inl rfl

section

variable {vi : ValidatorImpl} {cur proposed : ConfigGroup} {sigs : List SignedData} {m : ConfigMap} {new : Element}

theorem Accepted.unchanged_or_raised (accepted : Accepted vi cur sigs proposed m) {old : Element}
    (before : cur.element kind path = some old) (after : proposed.element kind path = some new) :
    Unchanged old.item new.item ∨ Raised vi sigs path old new := by
  obtain ⟨cg, change, item⟩ := accepted.change after
  rw [before, map_some] at change
  cases change with
  | same =>
    left
    rw [item]
    exact unchanged_fixedItem m _
  | raised version satisfied =>
    right
    refine ⟨?_, satisfied⟩
    rw [version_eq, version_eq] at version
    rw [item]
    exact version

theorem Accepted.added (accepted : Accepted vi cur sigs proposed m)
    (before : cur.element kind path = none) (after : proposed.element kind path = some new) : new.item.version = 0 := by
  obtain ⟨cg, change, item⟩ := accepted.change after
  rw [before, map_none] at change
  cases change with
  | added version =>
    rw [version_eq] at version
    rw [item]
    exact version

theorem Accepted.sameChildren (accepted : Accepted vi cur sigs proposed m) {h' : ConfigGroup}
    (before : cur.element .group path = some (.group h)) (after : proposed.element .group path = some (.group h')) :
    (∃ old new, cur.element .group path = some old ∧ proposed.element .group path = some new ∧ Raised vi sigs path old new) ∨
    ∀ kind name, (h.child kind name).isSome ↔ (h'.child kind name).isSome := by
  rcases accepted.unchanged_or_raised before after with same | raised
  · right
    have content : (group h').item.content = (group h).item.content := by
      rcases same with same | ⟨-, same⟩ <;> rw [same]
    intro kind name
    rw [child_isSome_iff, child_isSome_iff, childNames_of_content content]
  · exact .inl ⟨_, _, before, after, raised⟩

end

theorem accepted_of_propose {vi : ValidatorImpl}
    {proposed : ProposedConfig} (created : newValidatorImpl channelID config nameSpace pm = .ok vi)
    (run : vi.proposeConfigUpdate unmarshal env = .ok proposed) : ∃ sigs m, configUpdateEnvelopeAsSignedData unmarshal env = .ok sigs ∧
      Accepted vi config.channelGroup.group sigs proposed.channelGroup m := by
  simp only [newValidatorImpl, bind_eq_ok, wrapf_eq_ok] at created
  obtain ⟨_, -, configMap, mapped, result⟩ := created
  obtain rfl := ok.inj result
  simp only [proposeConfigUpdate, bind_eq_ok, wrapf_eq_ok] at run
  obtain ⟨m, checked, channelGroup, rebuilt, result⟩ := run
  obtain rfl := ok.inj result
  obtain ⟨update, sigs, -, signed, authorized⟩ := authorizeUpdate_eq_ok checked
  refine ⟨sigs, m, signed, flattened_of_mapConfig config.channelGroup.wellFormed mapped, ⟨update, authorized⟩, longestPath m + 1, ?_⟩
  simpa [pathText, configMapToConfig] using rebuilt

def keptValue : ConfigValue := ⟨0, [1], "Admins"⟩

def admins : ConfigPolicy := ⟨0, some ⟨1, []⟩, "Admins"⟩

def smallConfig : Config where
  sequence := 0
  channelGroup := ⟨⟨0, [], [("Old", ⟨0, [2], "Admins"⟩), ("Kept", keptValue)], [("Admins", admins)], "Admins"⟩,
    by decide, by decide, by decide, trivial⟩

def smallUpdate : ConfigUpdate where
  channelId := "mychannel"
  readSet := some ⟨⟨0, [], [("Kept", keptValue)], [("Admins", admins)], ""⟩, by decide, by decide, by decide, trivial⟩
  writeSet := some ⟨⟨1, [], [("New", ⟨0, [3], "Admins"⟩), ("Kept", keptValue)], [("Admins", admins)], "Admins"⟩,
    by decide, by decide, by decide, trivial⟩

def smallUnmarshaller : Unmarshaller := ⟨fun _ => .ok smallUpdate, .ok⟩

def smallManager : ManagerImpl where
  path := "Channel"
  policies := (∅ : Map String SignaturePolicy).insert "Admins"
    ⟨fun signed => if signed = [] then .error (.error "signature set did not satisfy policy") else .ok ()⟩
  managers := []

def smallEnvelope : ConfigUpdateEnvelope := ⟨[7], [⟨[8], [9]⟩]⟩

end Fabric.Proof.Configtx
