import Fabric.Policies.Manager
import Fabric.Proof.Configtx.Flatten

/-! # Look-up of policies by their paths -/

namespace Fabric.Proof.Policies

open Lib Fabric.Configtx Fabric.Policies Proof.Configtx List Option ConfigGroup
open String (toList_inj ofList utf8ByteSize_append toList_append)

variable {name key s : String} {managers : List (String × ManagerImpl)} {α : Type}
  {R : String × α → String × β → Prop} {xs : List (String × α)} {ys : List (String × β)}

def splitPath (key : String) : List String := (key.toList.splitOn '/').map ofList

theorem splitPath_of_separate (separate : Separate name) : splitPath name = [name] := by
  rw [splitPath, splitOn_eq_singleton separate, map_singleton, String.ofList_toList]

theorem splitPath_below {group : String} (separate : Separate group) (key : String) :
    splitPath (group ++ pathSeparator ++ key) = group :: splitPath key := by
  have chars : (group ++ pathSeparator ++ key).toList = group.toList ++ '/' :: key.toList := by
    simp [pathSeparator]
  rw [splitPath, chars, splitOn_append_cons_self_of_not_mem separate, map_cons, String.ofList_toList, splitPath]

theorem separate_or_below (key : String) : Separate key ∨ ∃ group rest, Separate group ∧ key = group ++ pathSeparator ++ rest := by
  by_cases separate : Separate key
  · exact .inl separate
  · obtain ⟨before, after, chars, first⟩ := eq_append_cons_of_mem (not_not.mp separate)
    refine .inr ⟨ofList before, ofList after, by simpa [Separate] using first, toList_inj.mp ?_⟩
    simp [pathSeparator, chars]

theorem not_separate_below (group key : String) : ¬ Separate (group ++ pathSeparator ++ key) := by
  simp [Separate, pathSeparator]

theorem below_injective {group group' key' : String} (left : Separate group) (right : Separate group')
    (same : group ++ pathSeparator ++ key = group' ++ pathSeparator ++ key') : group = group' ∧ key = key' := by
  have names := congrArg splitPath same
  rw [splitPath_below left, splitPath_below right] at names
  obtain rfl := (List.cons.inj names).1
  have chars := congrArg String.toList same
  simp only [toList_append, append_cancel_left_eq] at chars
  exact ⟨rfl, toList_inj.mp chars⟩

theorem slice_eq_some {id : String} {n : Nat} (inside : n ≤ id.utf8ByteSize) :
    String.fromUTF8? (id.toUTF8.extract n id.utf8ByteSize) = some s ↔ ∃ pre, id = pre ++ s ∧ pre.utf8ByteSize = n := by
  have split_at {pre rest : String} (width : pre.utf8ByteSize = n) (whole : id = pre ++ rest) :
      id.toUTF8.extract n id.utf8ByteSize = rest.toByteArray := by
    subst whole
    rw [String.toUTF8_eq_toByteArray, String.toByteArray_append]
    exact ByteArray.extract_append_eq_right width.symm utf8ByteSize_append
  constructor
  · intro sliced
    rw [String.fromUTF8?] at sliced
    split at sliced
    · rename_i valid
      have bytes : s.toByteArray = id.toUTF8.extract n id.utf8ByteSize := by
        rw [← some.inj sliced]
        rfl
      have size : s.toByteArray.size = id.utf8ByteSize - n := by
        rw [bytes, ByteArray.size_extract]
        exact congrArg (· - n) (Nat.min_self _)
      have boundary : String.Pos.Raw.IsValid id ⟨n⟩ := by
        rw [String.Pos.Raw.isValid_iff_isUTF8FirstByte]
        have start : String.Pos.Raw.IsValid s ⟨0⟩ := by simp
        rcases String.Pos.Raw.isValid_iff_isUTF8FirstByte.mp start with isEnd | ⟨nonempty, first⟩
        · have empty : 0 = s.toByteArray.size := congrArg String.Pos.Raw.byteIdx isEnd
          have isEnd : n = id.utf8ByteSize := by omega
          exact .inl (String.Pos.Raw.ext isEnd)
        · have nonempty : 0 < s.toByteArray.size := nonempty
          have before : n < id.utf8ByteSize := by omega
          refine .inr ⟨before, ?_⟩
          have same : s.toByteArray[0] = id.toByteArray[n] := by
            simp [bytes, String.toUTF8_eq_toByteArray]
          unfold String.getUTF8Byte at first ⊢
          rw [← same]
          exact first
      obtain ⟨pre, rest, whole, width⟩ := String.Pos.Raw.isValid_iff_exists_append.mp boundary
      have width : pre.utf8ByteSize = n := by simpa using congrArg String.Pos.Raw.byteIdx width.symm
      rw [split_at width whole, String.toByteArray_inj] at bytes
      exact ⟨pre, bytes ▸ whole, width⟩
    · cases sliced
  · intro ⟨pre, whole, width⟩
    rw [split_at width whole, String.fromUTF8?, dif_pos s.isValidUTF8]
    rfl

def stored (provs : Providers) : ConfigGroup → ManagerImpl → List String → Option Configtx.SignaturePolicy
  | _, _, [] => none
  | root, pm, [name] => (root.policies.lookup name).bind fun configPolicy =>
    (newConfigPolicy provs pm.path pm.managers name configPolicy).toOption
  | root, pm, groupName :: next :: names => (root.groups.lookup groupName).bind fun group =>
    (pm.managers.lookup groupName).bind fun manager => stored provs group manager (next :: names)

structure Named (g : ConfigGroup) : Prop where
  wellFormed : g.WellFormed
  separate : ∀ kind below e, g.element kind below = some e → ∀ name ∈ below, Separate name

variable {provs : Providers} {root : ConfigGroup} {pm : ManagerImpl} {path : String}

theorem Named.group {g : ConfigGroup} (named : Named root) (found : root.groups.lookup name = some g) : Separate name ∧ Named g := by
  have at_ {kind : Kind} {below : List String} {e : Element} (inner : g.element kind below = some e) :=
    named.separate kind (name :: below) e (element_cons found inner)
  refine ⟨at_ (element_nil g .group) name mem_cons_self, ?_, fun kind below e inner other mem =>
    at_ inner other (mem_cons_of_mem _ mem)⟩
  have below := named.wellFormed
  cases root
  exact wellFormed_of_mem below.2.2.2 (mem_of_lookup found)

theorem Named.policy (named : Named root) {configPolicy : ConfigPolicy}
    (found : root.policies.lookup name = some configPolicy) : Separate name :=
  named.separate .policy [name] (.policy configPolicy)
    (by simp [element, groupAt, child, found]) name (by simp)

theorem newManagers_eq_ok {groups : List (String × ConfigGroup)} (created : newManagers provs path groups = .ok managers) :
    List.Forall₂ (fun g m => g.1 = m.1 ∧ newManagerImpl provs (path ++ pathSeparator ++ g.1) g.2 = .ok m.2) groups managers := by
  induction groups generalizing managers with
  | nil =>
    cases created
    exact .nil
  | cons g groups ih =>
    obtain ⟨name, group⟩ := g
    obtain ⟨manager, here, created⟩ := bind_eq_ok.mp created
    obtain ⟨managers, there, result⟩ := bind_eq_ok.mp created
    cases result
    exact .cons ⟨rfl, here⟩ (ih there)

theorem newManagerImpl_eq_ok (created : newManagerImpl provs path root = .ok pm) :
    pm.path = path ∧ newManagers provs path root.groups = .ok pm.managers ∧ ∃ own,
      List.Forall₂ (fun e o => e.1 = o.1 ∧ newConfigPolicy provs path pm.managers e.1 e.2 = .ok o.2) root.policies own ∧
      pm.policies = putAll (putAll ∅ own) (pm.managers.flatMap fun m =>
        m.2.policies.toList.map fun e => (m.1 ++ pathSeparator ++ e.1, e.2)) := by
  cases root
  unfold newManagerImpl at created
  split at created
  · cases created
  · obtain ⟨managers, isManagers, created⟩ := bind_eq_ok.mp created
    obtain ⟨own, isOwn, result⟩ := bind_eq_ok.mp created
    cases result
    refine ⟨rfl, isManagers, own, (mapM_eq_ok.mp isOwn).imp ?_, rfl⟩
    intro e o made
    obtain ⟨policy, isPolicy, result⟩ := bind_eq_ok.mp made
    cases result
    exact ⟨rfl, isPolicy⟩

theorem lookup_forall₂ (pairs : List.Forall₂ (fun x y => x.1 = y.1 ∧ R x y) xs ys) (key : String) :
    xs.lookup key = none ∧ ys.lookup key = none ∨ ∃ a b, xs.lookup key = some a ∧ ys.lookup key = some b ∧ R (key, a) (key, b) := by
  induction pairs with
  | nil => exact .inl ⟨rfl, rfl⟩
  | @cons x y xs ys related _ ih =>
    obtain ⟨name, a⟩ := x
    obtain ⟨_, b⟩ := y
    obtain ⟨rfl, holds⟩ := related
    rw [lookup_cons, lookup_cons]
    by_cases here : key = name
    · subst here
      exact .inr ⟨a, b, by simp, by simp, holds⟩
    · simpa [beq_false_of_ne here] using ih

theorem names_forall₂ (pairs : List.Forall₂ (fun x y => x.1 = y.1 ∧ R x y) xs ys) : xs.map (·.1) = ys.map (·.1) := by
  induction pairs with
  | nil => rfl
  | cons related _ ih => rw [map_cons, map_cons, related.1, ih]

theorem mem_below (uniq : (managers.map (·.1)).Nodup) (separate : ∀ m ∈ managers, Separate m.1) {group : String}
    (isName : Separate group) {p : Configtx.SignaturePolicy} : (group ++ pathSeparator ++ key, p) ∈ (managers.flatMap fun m =>
      m.2.policies.toList.map fun e => (m.1 ++ pathSeparator ++ e.1, e.2)) ↔
    ∃ m, managers.lookup group = some m ∧ m.policies[key]? = some p := by
  constructor
  · intro mem
    obtain ⟨m, listed, mem⟩ := mem_flatMap.mp mem
    obtain ⟨e, isEntry, same⟩ := List.mem_map.mp mem
    obtain ⟨rfl, rfl⟩ := below_injective (separate m listed) isName (congrArg Prod.fst same)
    obtain rfl := congrArg Prod.snd same
    exact ⟨m.2, lookup_of_mem uniq listed, mem_toList_iff_getElem?_eq_some.mp isEntry⟩
  · intro ⟨m, found, isPolicy⟩
    exact mem_flatMap.mpr ⟨(group, m), mem_of_lookup found, List.mem_map.mpr ⟨(key, p), mem_toList_iff_getElem?_eq_some.mpr isPolicy, rfl⟩⟩

theorem lastFor_eq_lookup {entries : List (String × α)} (uniq : (entries.map (·.1)).Nodup) (key : String) :
    lastFor key entries = entries.lookup key := by
  cases found : entries.lookup key with
  | some a => exact lastFor_of_mem uniq (mem_of_lookup found)
  | none =>
    refine lastFor_eq_none.mpr fun a mem => ?_
    simp [lookup_of_mem uniq mem] at found

theorem lastFor_below (uniq : (managers.map (·.1)).Nodup) (separate : ∀ m ∈ managers, Separate m.1)
    {group : String} (isName : Separate group) (key : String) : lastFor (group ++ pathSeparator ++ key) (managers.flatMap fun m =>
      m.2.policies.toList.map fun e => (m.1 ++ pathSeparator ++ e.1, e.2)) = (managers.lookup group).bind (·.policies[key]?) := by
  apply ext
  intro p
  rw [lastFor_eq_some_iff, mem_below uniq separate isName, bind_eq_some_iff]
  intro p p' mem mem'
  obtain ⟨m, found, isPolicy⟩ := (mem_below uniq separate isName).mp mem
  obtain ⟨m', found', isPolicy'⟩ := (mem_below uniq separate isName).mp mem'
  obtain rfl := some.inj (found.symm.trans found')
  exact some.inj (isPolicy.symm.trans isPolicy')

theorem policies_eq_stored (names : List String) (key : String) (isPath : splitPath key = names) (named : Named root)
    (created : newManagerImpl provs path root = .ok pm) : pm.policies[key]? = stored provs root pm names := by
  induction names generalizing key root pm path with
  | nil => exact absurd (map_eq_nil_iff.mp isPath) (splitOn_ne_nil _ _)
  | cons name names ih =>
    obtain ⟨rfl, isManagers, own, isOwn, policies⟩ := newManagerImpl_eq_ok created
    have managers := newManagers_eq_ok isManagers
    obtain ⟨uniq, _, distinctPolicies, _⟩ : (root.groups.map (·.1)).Nodup ∧ (root.values.map (·.1)).Nodup ∧
        (root.policies.map (·.1)).Nodup ∧ WellFormedGroups root.groups := by
      have wellFormed := named.wellFormed
      cases root
      exact wellFormed
    have separateGroups : ∀ m ∈ pm.managers, Separate m.1 := by
      intro m mem
      have isName : m.1 ∈ root.groups.map (·.1) := names_forall₂ managers ▸ List.mem_map_of_mem mem
      obtain ⟨g, mem, same⟩ := List.mem_map.mp isName
      exact same ▸ (named.group (lookup_of_mem uniq mem)).1
    have distinctOwn : (own.map (·.1)).Nodup := names_forall₂ isOwn ▸ distinctPolicies
    rw [policies, get_putAll, get_putAll, lastFor_eq_lookup distinctOwn]
    rcases separate_or_below key with separate | ⟨group, rest, separate, rfl⟩
    · rw [splitPath_of_separate separate] at isPath
      obtain ⟨rfl, rfl⟩ := List.cons.inj isPath
      have absent : lastFor key (pm.managers.flatMap fun m =>
          m.2.policies.toList.map fun e => (m.1 ++ pathSeparator ++ e.1, e.2)) = none := by
        refine lastFor_eq_none.mpr fun p mem => ?_
        obtain ⟨m, _, mem⟩ := mem_flatMap.mp mem
        obtain ⟨e, _, same⟩ := List.mem_map.mp mem
        have isKey : m.1 ++ pathSeparator ++ e.1 = key := congrArg Prod.fst same
        exact not_separate_below m.1 e.1 (isKey ▸ separate)
      rw [absent]
      rcases lookup_forall₂ isOwn key with ⟨noPolicy, noOwn⟩ | ⟨configPolicy, p, isPolicy, isOwn, made⟩
      · simp [stored, noPolicy, noOwn]
      · simp [stored, isPolicy, isOwn, show newConfigPolicy _ _ _ key configPolicy = .ok p from made, Except.toOption]
    · rw [splitPath_below separate] at isPath
      obtain ⟨rfl, isRest⟩ := List.cons.inj isPath
      have noOwn : own.lookup (group ++ pathSeparator ++ rest) = none := by
        rcases lookup_forall₂ isOwn (group ++ pathSeparator ++ rest) with ⟨_, noOwn⟩ | ⟨_, _, isPolicy, _⟩
        · exact noOwn
        · exact absurd (named.policy isPolicy) (not_separate_below _ _)
      rw [lastFor_below (names_forall₂ managers ▸ uniq) separateGroups separate, noOwn]
      cases names with
      | nil => exact absurd (map_eq_nil_iff.mp isRest) (splitOn_ne_nil _ _)
      | cons next names =>
        rcases lookup_forall₂ managers group with ⟨noGroup, noManager⟩ | ⟨g, m, isGroup, isManager, made⟩
        · simp [stored, noGroup, noManager]
        · simp [stored, isGroup, isManager, ih rest isRest (named.group isGroup).2 made]

def exactPolicy (provs : Providers) (root : ConfigGroup) (pm : ManagerImpl) (id : String) : Option Configtx.SignaturePolicy :=
  let absolute := (pathSeparator ++ pm.path ++ pathSeparator).toList
  if id = "" then none
  else if absolute <+: id.toList then stored provs root pm (splitPath (ofList (id.toList.drop absolute.length)))
  else if pathSeparator.toList <+: id.toList then none
  else stored provs root pm (splitPath id)

theorem eq_singleton_of_utf8ByteSize (width : s.utf8ByteSize = 1) : ∃ c, c.utf8Size = 1 ∧ s = String.singleton c := by
  have short := length_le_utf8ByteSize s
  match chars : s.toList with
  | [] =>
    obtain rfl : s = "" := toList_inj.mp chars
    simp at width
  | [c] =>
    obtain rfl : s = String.singleton c := toList_inj.mp (by simp [chars])
    exact ⟨c, by rwa [String.utf8ByteSize_singleton] at width, rfl⟩
  | _ :: _ :: _ =>
    simp only [chars, length_cons] at short
    omega

theorem append_eq_of_width {base pre t : String} (same : pre ++ s = base ++ t)
    (width : pre.utf8ByteSize = base.utf8ByteSize + 1) : ∃ c, c.utf8Size = 1 ∧ t = String.singleton c ++ s := by
  have chars := congrArg String.toList same
  simp only [toList_append] at chars
  rcases append_eq_append_iff.mp chars with ⟨more, isBase, _⟩ | ⟨more, isPre, isRest⟩
  · obtain rfl : base = pre ++ ofList more := toList_inj.mp (by simp [isBase])
    rw [utf8ByteSize_append] at width
    omega
  · obtain rfl : pre = base ++ ofList more := toList_inj.mp (by simp [isPre])
    rw [utf8ByteSize_append] at width
    obtain ⟨c, narrow, isChar⟩ := eq_singleton_of_utf8ByteSize (s := ofList more) (by omega)
    exact ⟨c, narrow, isChar ▸ toList_inj.mp (by simp [isRest])⟩

/-- The identifier is not the manager's own path, and no policy is found by dropping another character than a
separator behind that path. -/
def Resolvable (provs : Providers) (root : ConfigGroup) (pm : ManagerImpl) (id : String) : Prop :=
  id ≠ pathSeparator ++ pm.path ∧ ∀ (c : Char) (rel : String), c.utf8Size = 1 → c ≠ '/' →
    id = pathSeparator ++ pm.path ++ (String.singleton c ++ rel) → stored provs root pm (splitPath rel) = none

theorem utf8ByteSize_absolute (path : String) : (pathSeparator ++ path).utf8ByteSize = 1 + path.utf8ByteSize := by
  rw [utf8ByteSize_append]
  rfl

theorem getPolicy_below (named : Named root) (created : newManagerImpl provs path root = .ok pm) (c : Char) (rel : String) :
    pm.getPolicy (pathSeparator ++ pm.path ++ (String.singleton c ++ rel)) =
      .ok (if c.utf8Size = 1 then stored provs root pm (splitPath rel) else none) := by
  have width := utf8ByteSize_absolute pm.path
  have total : 1 + pm.path.utf8ByteSize + 1 ≤ (pathSeparator ++ pm.path ++ (String.singleton c ++ rel)).utf8ByteSize := by
    rw [utf8ByteSize_append, width, utf8ByteSize_append, String.utf8ByteSize_singleton]
    have := c.utf8Size_pos
    omega
  have relpath : pm.relpath (pathSeparator ++ pm.path ++ (String.singleton c ++ rel)) = .ok (if c.utf8Size = 1 then some rel else none) := by
    rw [ManagerImpl.relpath, if_neg (by simp), if_neg (by simp), if_neg (by omega)]
    apply congrArg Except.ok
    apply ext
    intro s
    rw [slice_eq_some total]
    constructor
    · intro ⟨pre, whole, isWidth⟩
      obtain ⟨d, narrow, same⟩ := append_eq_of_width whole.symm (by omega)
      have chars := congrArg String.toList same
      simp only [toList_append, String.toList_singleton, singleton_append, List.cons.injEq] at chars
      obtain ⟨rfl, rest⟩ := chars
      rw [if_pos narrow, toList_inj.mp rest]
    · intro found
      split at found
      · rename_i narrow
        cases found
        refine ⟨pathSeparator ++ pm.path ++ String.singleton c, by simp only [String.append_assoc], ?_⟩
        rw [utf8ByteSize_append, width, String.utf8ByteSize_singleton, narrow]
      · cases found
  rw [ManagerImpl.getPolicy, if_neg (by simp [pathSeparator]), relpath]
  split
  · exact congrArg Except.ok (policies_eq_stored _ _ rfl named created)
  · rfl

theorem exactPolicy_below (c : Char) (rel : String) : exactPolicy provs root pm (pathSeparator ++ pm.path ++ (String.singleton c ++ rel)) =
      if c = '/' then stored provs root pm (splitPath rel) else none := by
  have chars : (pathSeparator ++ pm.path ++ (String.singleton c ++ rel)).toList =
      (pathSeparator ++ pm.path).toList ++ c :: rel.toList := by simp
  have absolute : (pathSeparator ++ pm.path ++ pathSeparator).toList = (pathSeparator ++ pm.path).toList ++ ['/'] := by
    simp [pathSeparator]
  simp only [exactPolicy, chars, absolute, prefix_append_right_inj]
  rw [if_neg (by simp [pathSeparator])]
  by_cases separator : c = '/'
  · rw [if_pos (by simp [separator]), if_pos separator]
    simp
  · rw [if_neg (by simp [Ne.symm separator]), if_pos (by simp [pathSeparator]), if_neg separator]

theorem resolvable_below (c : Char) (rel : String) : Resolvable provs root pm (pathSeparator ++ pm.path ++ (String.singleton c ++ rel)) ↔
      (c.utf8Size = 1 → c ≠ '/' → stored provs root pm (splitPath rel) = none) := by
  constructor
  · intro resolvable narrow other
    exact resolvable.2 c rel narrow other rfl
  · intro resolvable
    refine ⟨fun same => ?_, fun d rest narrow other same => ?_⟩
    · simpa using congrArg String.toList same
    · have chars := congrArg String.toList same
      simp only [toList_append, String.toList_singleton, append_cancel_left_eq, singleton_append, List.cons.injEq] at chars
      obtain ⟨rfl, isRest⟩ := chars
      exact toList_inj.mp isRest ▸ resolvable narrow other

theorem getPolicy_resolvable (named : Named root) (created : newManagerImpl provs path root = .ok pm) (id : String) :
    pm.getPolicy id = .ok (exactPolicy provs root pm id) ↔ Resolvable provs root pm id := by
  by_cases isAbsolute : (pathSeparator ++ pm.path).toList <+: id.toList
  · obtain ⟨t, chars⟩ := isAbsolute
    cases t with
    | nil =>
      obtain rfl : pathSeparator ++ pm.path = id := toList_inj.mp (by simpa using chars)
      have width := utf8ByteSize_absolute pm.path
      rw [ManagerImpl.getPolicy, if_neg (by simp [pathSeparator]), ManagerImpl.relpath, if_neg (by simp), if_neg (by simp), if_pos (by omega)]
      refine ⟨fun equal => ?_, fun resolvable => absurd rfl resolvable.1⟩
      cases equal
    | cons c rel =>
      obtain rfl : pathSeparator ++ pm.path ++ (String.singleton c ++ ofList rel) = id := toList_inj.mp (by simp [← chars])
      rw [getPolicy_below named created, exactPolicy_below, resolvable_below, ok.injEq]
      by_cases separator : c = '/'
      · subst separator
        simp [show '/'.utf8Size = 1 from rfl]
      · by_cases narrow : c.utf8Size = 1 <;> simp [separator, narrow]
  · have resolvable : Resolvable provs root pm id := by
      refine ⟨fun same => isAbsolute (by simp [same]), fun c rel _ _ same => ?_⟩
      subst same
      simp at isAbsolute
    refine ⟨fun _ => resolvable, fun _ => ?_⟩
    have below : ¬ (pathSeparator ++ pm.path ++ pathSeparator).toList <+: id.toList := by
      intro longer
      rw [toList_append] at longer
      exact isAbsolute ((prefix_append _ _).trans longer)
    simp only [ManagerImpl.getPolicy, exactPolicy, below, if_false]
    split
    · rfl
    · by_cases absolute : pathSeparator.toList <+: id.toList
      · simp only [ManagerImpl.relpath, absolute, isAbsolute, not_true_eq_false, not_false_eq_true, if_false, if_true]
        rfl
      · simp only [ManagerImpl.relpath, absolute, not_false_eq_true, if_false, if_true]
        exact congrArg Except.ok (policies_eq_stored _ _ rfl named created)

theorem manager_created (named : Named root) (created : newManagerImpl provs path root = .ok pm) {groups : List String}
    {manager : ManagerImpl} (found : pm.manager groups = some manager) : ∃ group path', root.groupAt groups = some group ∧
      Named group ∧ newManagerImpl provs path' group = .ok manager := by
  induction groups generalizing root pm path with
  | nil =>
    cases found
    exact ⟨root, path, rfl, named, created⟩
  | cons name groups ih =>
    obtain ⟨_, isManagers, _⟩ := newManagerImpl_eq_ok created
    rw [ManagerImpl.manager] at found
    rcases lookup_forall₂ (newManagers_eq_ok isManagers) name with ⟨_, none⟩ | ⟨g, m, isGroup, isManager, made⟩
    · simp [none] at found
    · simp only [isManager] at found
      obtain ⟨group, path', isBelow, rest⟩ := ih (named.group isGroup).2 made found
      exact ⟨group, path', by simp [groupAt, isGroup, isBelow], rest⟩

theorem named_of_validated {channelID rootKey : String} {config : Config} {vi : ValidatorImpl}
    (validated : newValidatorImpl channelID config rootKey pm = .ok vi) : Named config.channelGroup.group := by
  obtain ⟨_, _, validated⟩ := bind_eq_ok.mp validated
  obtain ⟨configMap, mapped, _⟩ := bind_eq_ok.mp validated
  have flat := flattened_of_mapConfig config.channelGroup.wellFormed (wrapf_eq_ok.mp mapped)
  refine ⟨config.channelGroup.wellFormed, fun kind below e isElement name mem => ?_⟩
  exact flat.names kind below e isElement name (mem_cons_of_mem _ mem)

theorem getPolicy_exact_iff (provs : Providers) (channelID rootKey : String) (config : Config) (pm : ManagerImpl)
    (created : newManagerImpl provs rootKey config.channelGroup.group = .ok pm) (vi : ValidatorImpl)
    (validated : newValidatorImpl channelID config rootKey pm = .ok vi) (groups : List String) (manager : ManagerImpl)
    (found : pm.manager groups = some manager) : ∃ group, config.channelGroup.group.groupAt groups = some group ∧ ∀ id,
      manager.getPolicy id = .ok (exactPolicy provs group manager id) ↔ Resolvable provs group manager id := by
  obtain ⟨group, path, isGroup, named, created⟩ := manager_created (named_of_validated validated) created found
  exact ⟨group, isGroup, getPolicy_resolvable named created⟩

def adminsConfig : Config where
  sequence := 0
  channelGroup := ⟨⟨0, [], [], [("Admins", ⟨0, some ⟨1, []⟩, "Admins"⟩)], "Admins"⟩, by simp [WellFormed, WellFormedGroups]⟩

def acceptAll : Providers where
  provider type := if type = 1 then some fun _ => .ok ⟨fun _ => .ok ()⟩ else none
  unmarshal _ := .error (.error "not a policy")

def adminsManager : ManagerImpl := ⟨"Channel", putAll (putAll ∅ [("Admins", ⟨fun _ => .ok ()⟩)]) [], []⟩

theorem adminsManager_created : newManagerImpl acceptAll "Channel" adminsConfig.channelGroup.group = .ok adminsManager := rfl

theorem adminsConfig_valid : ∃ vi, newValidatorImpl "ch" adminsConfig "Channel" adminsManager = .ok vi := by
  have valid : (newValidatorImpl "ch" adminsConfig "Channel" adminsManager).toOption.isSome := by decide +kernel
  cases created : newValidatorImpl "ch" adminsConfig "Channel" adminsManager with
  | ok vi => exact ⟨vi, rfl⟩
  | error e => simp [created, Except.toOption] at valid

theorem adminsManager_stored : stored acceptAll adminsConfig.channelGroup.group adminsManager (splitPath "Admins") =
    some ⟨fun _ => .ok ()⟩ := by
  rw [splitPath_of_separate (show '/' ∉ "Admins".toList by decide +kernel)]
  rfl

theorem admins_resolved : ∃ policy, adminsManager.getPolicy "/Channel/Admins" = .ok (some policy) := by
  obtain ⟨vi, validated⟩ := adminsConfig_valid
  obtain ⟨group, isGroup, exact_⟩ := getPolicy_exact_iff acceptAll "ch" "Channel" adminsConfig adminsManager
    adminsManager_created vi validated [] adminsManager rfl
  cases isGroup
  have isBelow : "/Channel/Admins" = pathSeparator ++ adminsManager.path ++ (String.singleton '/' ++ "Admins") := by
    decide +kernel
  have found := (exact_ "/Channel/Admins").mpr (isBelow ▸ (resolvable_below '/' "Admins").mpr fun _ other => absurd rfl other)
  rw [found, isBelow, exactPolicy_below, if_pos rfl, adminsManager_stored]
  exact ⟨_, rfl⟩

theorem ownPath_panics : newManagerImpl acceptAll "Channel" adminsConfig.channelGroup.group = .ok adminsManager ∧
    (∃ vi, newValidatorImpl "ch" adminsConfig "Channel" adminsManager = .ok vi) ∧ validateModPolicy "/Channel" = .ok () ∧
    (∃ message, adminsManager.getPolicy "/Channel" = .error (.panic message)) ∧
    ∃ policy, adminsManager.getPolicy "/ChannelXAdmins" = .ok (some policy) := by
  refine ⟨adminsManager_created, adminsConfig_valid, by decide +kernel, ⟨"runtime error: slice bounds out of range", ?_⟩, ?_⟩
  · rw [ManagerImpl.getPolicy, if_neg (by decide +kernel), ManagerImpl.relpath, if_neg (by decide +kernel),
      if_neg (by decide +kernel), if_pos (by decide +kernel)]
    rfl
  · have isBelow : "/ChannelXAdmins" = pathSeparator ++ adminsManager.path ++ (String.singleton 'X' ++ "Admins") := by
      decide +kernel
    obtain ⟨vi, validated⟩ := adminsConfig_valid
    rw [isBelow, getPolicy_below (named_of_validated validated) adminsManager_created,
      if_pos (show 'X'.utf8Size = 1 from rfl), adminsManager_stored]
    exact ⟨_, rfl⟩

end Fabric.Proof.Policies
