import Fabric.Configtx.Update

/-! # The map of a configuration and its tree -/

namespace Fabric.Configtx

open Lib

variable {α : Type} {kind : Kind} {name key root : String} {e : Element} {path p q below : List String}
  {m m' : ConfigMap} {cg : Comparable}

def ConfigGroup.child (g : ConfigGroup) (kind : Kind) (name : String) : Option Element :=
  match kind with
  | .group => (g.groups.lookup name).map .group
  | .value => (g.values.lookup name).map .value
  | .policy => (g.policies.lookup name).map .policy

def ConfigGroup.groupAt : List String → ConfigGroup → Option ConfigGroup
  | [], g => some g
  | name :: path, g => (g.groups.lookup name).bind (groupAt path)

/-- The element of a kind at a path below a group, the group itself at the empty path. -/
def ConfigGroup.element (g : ConfigGroup) (kind : Kind) (path : List String) : Option Element :=
  match path.getLast? with
  | none => if kind = .group then some (.group g) else none
  | some name => (g.groupAt path.dropLast).bind (·.child kind name)

end Fabric.Configtx

namespace Fabric.Proof.Configtx

open Lib Fabric.Configtx List
open Option hiding join

theorem wrapf_eq_ok {message : String} {x : Result α} {a : α} : wrapf message x = .ok a ↔ x = .ok a := by
  cases x with
  | ok b => rfl
  | error e => cases e <;> simp [wrapf]

variable (g : ConfigGroup)

@[simp] theorem element_nil (kind : Kind) : g.element kind [] = if kind = .group then some (.group g) else none := rfl

@[simp] theorem element_concat (kind : Kind) (path : List String) (name : String) :
    g.element kind (path ++ [name]) = (g.groupAt path).bind (·.child kind name) := by
  simp [ConfigGroup.element]

theorem groupAt_append (p q : List String) : g.groupAt (p ++ q) = (g.groupAt p).bind (·.groupAt q) := by
  induction p generalizing g with
  | nil => rfl
  | cons name p ih =>
    show (g.groups.lookup name).bind (ConfigGroup.groupAt (p ++ q)) = _
    cases found : g.groups.lookup name with
    | none => simp [ConfigGroup.groupAt, found]
    | some h => simp [ConfigGroup.groupAt, found, ih]

theorem element_group (path : List String) : g.element .group path = (g.groupAt path).map .group := by
  induction path using reverseRecOn with
  | nil => rfl
  | append_singleton path name _ =>
    rw [element_concat, groupAt_append]
    cases g.groupAt path with
    | none => rfl
    | some h => simp [ConfigGroup.child, ConfigGroup.groupAt, bind_fun_some]

theorem kind_of_child {g : ConfigGroup} (found : g.child kind name = some e) : e.kind = kind := by
  cases kind <;> simp only [ConfigGroup.child, map_eq_some_iff] at found <;> obtain ⟨x, -, rfl⟩ := found <;> rfl

theorem kind_of_element {g : ConfigGroup} (found : g.element kind path = some e) : e.kind = kind := by
  cases path using reverseRecOn with
  | nil =>
    rw [element_nil] at found
    split at found
    · cases found
      exact Eq.symm ‹_›
    · cases found
  | append_singleton path name =>
    rw [element_concat, bind_eq_some_iff] at found
    obtain ⟨h, -, here⟩ := found
    exact kind_of_child here

theorem length_le_utf8ByteSize (s : String) : s.toList.length ≤ s.utf8ByteSize := by
  have general : ∀ cs : List Char, cs.length ≤ String.utf8Len cs := by
    intro cs
    induction cs with
    | nil => simp
    | cons c cs ih =>
      have := c.utf8Size_pos
      simp only [length_cons, String.utf8Len_cons]
      omega
  have := general s.toList
  rwa [← String.utf8ByteSize_ofList, String.ofList_toList] at this

theorem findString_length_le (p : Char → Bool) (cs : List Char) : (findString p p cs).length ≤ (cs.dropWhile (!p ·)).length := by
  simp only [findString]
  split
  · simp
  · rename_i c rest found
    rw [found, length_cons, length_cons]
    exact Nat.succ_le_succ ( takeWhile_prefix p).length_le

theorem all_of_findString {p : Char → Bool} {cs : List Char} (whole : cs.length ≤ (findString p p cs).length) : ∀ c ∈ cs, p c := by
  cases cs with
  | nil => simp
  | cons c rest =>
    cases first : p c with
    | false =>
      have short := findString_length_le p (c :: rest)
      have dropped := (dropWhile_suffix (!p ·) : rest.dropWhile (!p ·) <:+ rest).length_le
      rw [dropWhile_cons_of_pos (by simp [first])] at short
      rw [length_cons] at whole
      omega
    | true =>
      rw [findString, dropWhile_cons_of_neg (by simp [first])] at whole
      simp only [length_cons, Nat.add_le_add_iff_right] at whole
      have taken := ( takeWhile_prefix p : rest.takeWhile p <+: rest).eq_of_length_le whole
      intro x mem
      rcases mem_cons.mp mem with rfl | later
      · exact first
      · rw [← taken] at later
        exact mem_takeWhile_imp later

def Separate (name : String) : Prop := '/' ∉ name.toList

theorem separate_of_validateConfigID (valid : validateConfigID name = .ok ()) : Separate name := by
  unfold validateConfigID at valid
  split_ifs at valid with _ _ _ characters
  have whole : name.toList.length ≤ (findString configAllowedChars configAllowedChars name.toList).length := by
    rw [not_not.mp characters]
    exact length_le_utf8ByteSize name
  intro mem
  have := all_of_findString whole '/' mem
  simp [configAllowedChars] at this

def pathText : List String → String
  | [] => ""
  | name :: path => pathSeparator ++ name ++ pathText path

def fqText (kind : Kind) (path : List String) : String := kind.fqPrefix ++ pathText path

theorem pathText_append (p q : List String) : pathText (p ++ q) = pathText p ++ pathText q := by
  induction p with
  | nil => simp [pathText]
  | cons name p ih => simp [pathText, ih, String.append_assoc]

theorem pathText_concat (p : List String) (name : String) : pathText (p ++ [name]) = pathText p ++ pathSeparator ++ name := by
  simp [pathText_append, pathText, String.append_assoc]

theorem pathText_eq_join (nonempty : p ≠ []) : pathText p = pathSeparator ++ join pathSeparator p := by
  induction p with
  | nil => contradiction
  | cons name p ih =>
    cases p with
    | nil => simp [pathText, join]
    | cons next p =>
      show pathSeparator ++ name ++ pathText (next :: p) = pathSeparator ++ (name ++ pathSeparator ++ join pathSeparator (next :: p))
      rw [ih (by simp)]
      simp only [String.append_assoc]

theorem fqPath_eq (key : String) (path : List String) (e : Element) : Comparable.fqPath ⟨key, path, e⟩ = fqText e.kind (path ++ [key]) := by
  unfold Comparable.fqPath fqText
  rw [pathText_concat]
  split
  · rename_i root
    simp [show path = [] from root, pathText]
  · rename_i below
    simp [pathText_eq_join below]

theorem pathText_toList_head (p : List String) (c : Char) (head : (pathText p).toList.head? = some c) : c = '/' := by
  cases p with
  | nil => simp [pathText] at head
  | cons name p => simpa [pathText, pathSeparator, eq_comm] using head

theorem append_inj_of_head {xs ys r s : List Char} (left : '/' ∉ xs) (right : '/' ∉ ys)
    (restLeft : ∀ c, r.head? = some c → c = '/') (restRight : ∀ c, s.head? = some c → c = '/')
    (same : xs ++ r = ys ++ s) : xs = ys ∧ r = s := by
  induction xs generalizing ys with
  | nil =>
    cases ys with
    | nil => exact ⟨rfl, same⟩
    | cons y ys =>
      have := restLeft y (by simp_all)
      simp_all
  | cons x xs ih =>
    cases ys with
    | nil =>
      have := restRight x (by rw [← show x :: xs ++ r = s from same]; rfl)
      simp_all
    | cons y ys =>
      simp only [cons_append, List.cons.injEq] at same
      obtain ⟨rfl, rest⟩ := same
      obtain ⟨rfl, rfl⟩ := ih (fun mem => left (mem_cons_of_mem _ mem))
        (fun mem => right (mem_cons_of_mem _ mem)) rest
      exact ⟨rfl, rfl⟩

theorem pathText_injective (left : ∀ name ∈ p, Separate name) (right : ∀ name ∈ q, Separate name)
    (same : pathText p = pathText q) : p = q := by
  induction p generalizing q with
  | nil =>
    cases q with
    | nil => rfl
    | cons name q =>
      have := congrArg String.toList same
      simp [pathText, pathSeparator] at this
  | cons name p ih =>
    cases q with
    | nil =>
      have := congrArg String.toList same
      simp [pathText, pathSeparator] at this
    | cons other q =>
      have texts := congrArg String.toList same
      simp only [pathText, pathSeparator, String.toList_append, append_assoc] at texts
      obtain ⟨heads, rest⟩ := append_inj_of_head (left name mem_cons_self) (right other mem_cons_self)
        (pathText_toList_head p) (pathText_toList_head q) (append_cancel_left texts)
      rw [String.toList_inj.mp heads, ih (fun x mem => left x (mem_cons_of_mem _ mem))
        (fun x mem => right x (mem_cons_of_mem _ mem)) (String.toList_inj.mp rest)]

theorem fqText_injective {other : Kind} (left : ∀ name ∈ p, Separate name) (right : ∀ name ∈ q, Separate name)
    (same : fqText kind p = fqText other q) : kind = other ∧ p = q := by
  have texts := congrArg String.toList same
  simp only [fqText, String.toList_append] at texts
  have width : ∀ k : Kind, k.fqPrefix.toList.length = 9 := by
    intro k
    cases k <;> decide +kernel
  obtain ⟨heads, rest⟩ := append_inj texts (by rw [width, width])
  refine ⟨?_, pathText_injective left right (String.toList_inj.mp rest)⟩
  cases kind <;> cases other <;> first | rfl | exact absurd heads (by decide +kernel)

def comparableAt (path : List String) (e : Element) : Comparable := ⟨path.getLastD "", path.dropLast, e⟩

@[simp] theorem comparableAt_concat (path : List String) (name : String) (e : Element) :
    comparableAt (path ++ [name]) e = ⟨name, path, e⟩ := by
  simp [comparableAt, getLastD_eq_getLast?]

theorem fqPath_comparableAt (nonempty : path ≠ []) (e : Element) : (comparableAt path e).fqPath = fqText e.kind path := by
  cases path using reverseRecOn with
  | nil => contradiction
  | append_singleton path name => rw [comparableAt_concat, fqPath_eq]

mutual
def entries (path : List String) : ConfigGroup → List Comparable
  | ⟨version, groups, values, policies, modPolicy⟩ =>
    comparableAt path (.group ⟨version, groups, values, policies, modPolicy⟩) :: (groupEntries path groups ++
      (values.map (fun e => ⟨e.1, path, .value e.2⟩) ++ policies.map (fun e => ⟨e.1, path, .policy e.2⟩)))

def groupEntries (path : List String) : List (String × ConfigGroup) → List Comparable
  | [] => []
  | (key, group) :: groups => entries (path ++ [key]) group ++ groupEntries path groups
end

def keyed (cs : List Comparable) : List (String × Comparable) := cs.map fun cg => (cg.fqPath, cg)

def Added (m : ConfigMap) (cs : List Comparable) (m' : ConfigMap) : Prop :=
  (∀ cg ∈ cs, validateConfigID cg.key = .ok ()) ∧ m' = putAll m (keyed cs)

theorem Added.nil (m : ConfigMap) : Added m [] m := ⟨by simp, rfl⟩

theorem Added.append {m'' : ConfigMap} {xs ys : List Comparable} (first : Added m xs m') (second : Added m' ys m'') :
    Added m (xs ++ ys) m'' := by
  refine ⟨forall_mem_append.mpr ⟨first.1, second.1⟩, ?_⟩
  rw [second.2, first.2]
  simp [putAll, keyed]

theorem added_of_addToMap (run : addToMap cg m = .ok m') : Added m [cg] m' := by
  simp only [addToMap, bind_eq_ok, wrapf_eq_ok, ok.injEq] at run
  obtain ⟨_, valid, rfl⟩ := run
  exact ⟨by simpa using valid, rfl⟩

theorem added_of_foldlM {f : α → Comparable} {xs : List α}
    (run : xs.foldlM (fun result e => addToMap (f e) result) m = .ok m') : Added m (xs.map f) m' := by
  induction xs generalizing m with
  | nil =>
    obtain rfl := ok.inj run
    exact .nil m
  | cons x xs ih =>
    rw [foldlM_cons, bind_eq_ok] at run
    obtain ⟨middle, first, rest⟩ := run
    exact (added_of_addToMap first).append (ih rest)

mutual
theorem added_of_recurseConfig {m m' : ConfigMap} {path : List String} :
    (g : ConfigGroup) → recurseConfig m path g = .ok m' → Added m (entries path g) m'
  | ⟨version, groups, values, policies, modPolicy⟩, run => by
    simp only [recurseConfig, bind_eq_ok] at run
    obtain ⟨_, self, _, below, _, atValues, atPolicies⟩ := run
    rw [entries]
    exact (added_of_addToMap self).append ((added_of_recurseGroups groups below).append
      ((added_of_foldlM atValues).append (added_of_foldlM atPolicies)))

theorem added_of_recurseGroups {m m' : ConfigMap} {path : List String} :
    (groups : List (String × ConfigGroup)) → recurseGroups m path groups = .ok m' → Added m (groupEntries path groups) m'
  | [], run => by
    obtain rfl := ok.inj run
    exact .nil m
  | (key, group) :: groups, run => by
    simp only [recurseGroups, bind_eq_ok] at run
    obtain ⟨_, first, rest⟩ := run
    exact (added_of_recurseConfig group first).append (added_of_recurseGroups groups rest)
end

theorem lookup_of_mem {entries : List (String × α)} {a : α} (uniq : (entries.map (·.1)).Nodup)
    (mem : (key, a) ∈ entries) : entries.lookup key = some a := by
  induction entries with
  | nil => simp at mem
  | cons e rest ih =>
    obtain ⟨other, b⟩ := e
    rw [map_cons, nodup_cons] at uniq
    rcases mem_cons.mp mem with here | later
    · cases here
      simp
    · have differs : key ≠ other := by
        rintro rfl
        exact uniq.1 (List.mem_map.mpr ⟨_, later, rfl⟩)
      rw [lookup_cons, beq_false_of_ne differs]
      exact ih uniq.2 later

theorem mem_of_lookup {entries : List (String × α)} {a : α} (found : entries.lookup key = some a) : (key, a) ∈ entries := by
  induction entries with
  | nil => simp at found
  | cons e rest ih =>
    obtain ⟨other, b⟩ := e
    rw [lookup_cons] at found
    split at found
    · rename_i same
      cases found
      rw [eq_of_beq same]
      exact mem_cons_self
    · exact mem_cons_of_mem _ (ih found)

variable {groups : List (String × ConfigGroup)}

theorem wellFormed_of_mem {e : String × ConfigGroup} (all : WellFormedGroups groups) (mem : e ∈ groups) : e.2.WellFormed := by
  induction groups with
  | nil => simp at mem
  | cons first rest ih =>
    rw [WellFormedGroups] at all
    rcases mem_cons.mp mem with rfl | later
    · exact all.1
    · exact ih all.2 later

theorem mem_groupEntries : cg ∈ groupEntries path groups ↔ ∃ e ∈ groups, cg ∈ entries (path ++ [e.1]) e.2 := by
  induction groups with
  | nil => simp [groupEntries]
  | cons first rest ih => simp [groupEntries, ih]

theorem element_cons {g h : ConfigGroup} (found : g.groups.lookup key = some h)
    (inner : h.element kind below = some e) : g.element kind (key :: below) = some e := by
  cases below using reverseRecOn with
  | nil =>
    rw [element_nil] at inner
    split at inner
    · rename_i isGroup
      cases inner
      rw [isGroup, ← nil_append [key], element_concat]
      simp [ConfigGroup.groupAt, ConfigGroup.child, found]
    · cases inner
  | append_singleton below name =>
    rw [element_concat] at inner
    rw [← cons_append, element_concat]
    simpa [ConfigGroup.groupAt, found] using inner

theorem element_of_mem_entries {path : List String} {cg : Comparable} : (g : ConfigGroup) → g.WellFormed → cg ∈ entries path g →
      ∃ below e, g.element e.kind below = some e ∧ cg = comparableAt (path ++ below) e
  | ⟨version, groups, values, policies, modPolicy⟩, wellFormed, mem => by
    rw [ConfigGroup.WellFormed] at wellFormed
    obtain ⟨distinctGroups, distinctValues, distinctPolicies, inner⟩ := wellFormed
    simp only [entries, mem_cons, mem_append, mem_groupEntries, List.mem_map] at mem
    rcases mem with rfl | ⟨⟨key, group⟩, listed, here⟩ | ⟨⟨key, value⟩, listed, rfl⟩ | ⟨⟨key, policy⟩, listed, rfl⟩
    · exact ⟨[], .group ⟨version, groups, values, policies, modPolicy⟩, rfl, by simp⟩
    · have := sizeOf_lt_of_mem listed
      obtain ⟨below, e, found, rfl⟩ := element_of_mem_entries group (wellFormed_of_mem inner listed) here
      refine ⟨key :: below, e, element_cons (lookup_of_mem distinctGroups listed) found, by simp⟩
    · refine ⟨[key], .value value, ?_, by simp⟩
      rw [← nil_append [key], element_concat]
      simp [ConfigGroup.groupAt, ConfigGroup.child, Element.kind, lookup_of_mem distinctValues listed]
    · refine ⟨[key], .policy policy, ?_, by simp⟩
      rw [← nil_append [key], element_concat]
      simp [ConfigGroup.groupAt, ConfigGroup.child, Element.kind, lookup_of_mem distinctPolicies listed]
termination_by g => sizeOf g
decreasing_by
  simp_all
  omega

theorem entries_subset {g h : ConfigGroup} (found : g.groupAt below = some h) : entries (path ++ below) h ⊆ entries path g := by
  induction below generalizing path g with
  | nil =>
    obtain rfl := some.inj found
    simp
  | cons name below ih =>
    simp only [ConfigGroup.groupAt, bind_eq_some_iff] at found
    obtain ⟨next, here, later⟩ := found
    have inner : entries (path ++ [name] ++ below) h ⊆ entries (path ++ [name]) next := ih later
    rw [append_assoc] at inner
    intro cg mem
    obtain ⟨version, groups, values, policies, modPolicy⟩ := g
    simp only [entries, mem_cons, mem_append, mem_groupEntries]
    exact .inr (.inl ⟨_, mem_of_lookup here, inner mem⟩)

theorem mem_entries_of_element (path : List String) {g : ConfigGroup} (found : g.element kind below = some e)
    : comparableAt (path ++ below) e ∈ entries path g := by
  cases below using reverseRecOn with
  | nil =>
    rw [element_nil] at found
    split at found
    · cases found
      obtain ⟨version, groups, values, policies, modPolicy⟩ := g
      simp [entries]
    · cases found
  | append_singleton below name =>
    rw [element_concat, bind_eq_some_iff] at found
    obtain ⟨h, parent, child⟩ := found
    apply entries_subset parent
    rw [← append_assoc, comparableAt_concat]
    obtain ⟨version, groups, values, policies, modPolicy⟩ := h
    simp only [entries, mem_cons, mem_append, mem_groupEntries, List.mem_map]
    cases kind <;> simp only [ConfigGroup.child, map_eq_some_iff] at child <;> obtain ⟨x, listed, rfl⟩ := child
    · refine .inr (.inl ⟨_, mem_of_lookup listed, ?_⟩)
      obtain ⟨_, _, _, _, _⟩ := x
      rw [← comparableAt_concat]
      exact mem_cons_self
    · exact .inr (.inr (.inl ⟨_, mem_of_lookup listed, rfl⟩))
    · exact .inr (.inr (.inr ⟨_, mem_of_lookup listed, rfl⟩))

structure Flattened (g : ConfigGroup) (root : String) (m : ConfigMap) : Prop where
  names : ∀ kind below e, g.element kind below = some e → ∀ name ∈ root :: below, Separate name
  get : ∀ kind below e, g.element kind below = some e → m[fqText kind (root :: below)]? = some (comparableAt (root :: below) e)
  mem : ∀ (key : String) cg, m[key]? = some cg →
    ∃ below e, g.element e.kind below = some e ∧ key = fqText e.kind (root :: below) ∧ cg = comparableAt (root :: below) e

theorem groupAt_of_element_concat {g : ConfigGroup} (found : g.element kind (below ++ [name]) = some e)
    : ∃ h, g.element .group below = some (.group h) ∧ h.child kind name = some e := by
  rw [element_concat, bind_eq_some_iff] at found
  obtain ⟨h, parent, child⟩ := found
  exact ⟨h, by rw [element_group, parent]; rfl, child⟩

theorem separate_of_added {g : ConfigGroup} (added : Added m (entries [root] g) m') (found : g.element kind below = some e) :
    ∀ name ∈ root :: below, Separate name := by
  induction below using reverseRecOn generalizing kind e with
  | nil =>
    have valid := separate_of_validateConfigID (added.1 _ (mem_entries_of_element _ found))
    simpa [comparableAt] using valid
  | append_singleton below name ih =>
    have valid := separate_of_validateConfigID (added.1 _ (mem_entries_of_element _ found))
    rw [← append_assoc, comparableAt_concat] at valid
    obtain ⟨h, parent, -⟩ := groupAt_of_element_concat found
    intro other mem
    rw [← cons_append, mem_append, mem_singleton] at mem
    rcases mem with earlier | rfl
    · exact ih parent other earlier
    · exact valid

theorem flattened_of_mapConfig {g : ConfigGroup} (wellFormed : g.WellFormed) (run : mapConfig (some g) root = .ok m)
    : Flattened g root m := by
  have added := added_of_recurseConfig g run
  have names : ∀ kind below e, g.element kind below = some e → ∀ name ∈ root :: below, Separate name :=
    fun _ _ _ found => separate_of_added added found
  have mem : ∀ (key : String) cg, m[key]? = some cg →
      ∃ below e, g.element e.kind below = some e ∧ key = fqText e.kind (root :: below) ∧ cg = comparableAt (root :: below) e := by
    intro key cg found
    rw [added.2, get_putAll] at found
    have listed : (key, cg) ∈ keyed (entries [root] g) := by
      apply mem_of_lastFor
      simpa using found
    obtain ⟨cg', here, same⟩ := List.mem_map.mp listed
    cases same
    obtain ⟨below, e, element, rfl⟩ := element_of_mem_entries g wellFormed here
    exact ⟨below, e, element, fqPath_comparableAt (by simp) e, rfl⟩
  refine ⟨names, ?_, mem⟩
  intro kind below e found
  have kindOf := kind_of_element found
  have listed := mem_entries_of_element [root] found
  cases got : m[fqText kind (root :: below)]? with
  | none =>
    rw [added.2, get_putAll] at got
    have absent : lastFor (fqText kind (root :: below)) (keyed (entries [root] g)) = none := by
      simpa using got
    rw [lastFor_eq_none] at absent
    refine absurd (List.mem_map.mpr ⟨_, listed, ?_⟩) (absent (comparableAt (root :: below) e))
    rw [fqPath_comparableAt (by simp), kindOf]
    rfl
  | some cg =>
    obtain ⟨below', e', found', same, rfl⟩ := mem _ _ got
    obtain ⟨sameKind, samePath⟩ := fqText_injective (names _ _ _ found) (names _ _ _ found') same
    obtain rfl := tail_eq_of_cons_eq samePath
    rw [sameKind, found'] at found
    cases found
    rfl

end Fabric.Proof.Configtx
