import Fabric.Lib.FiniteMap

/-! # Channel configurations and their flattened form -/

namespace Fabric.Configtx

open Lib

structure ConfigValue where
  version : UInt64
  value : List UInt8
  modPolicy : String
  deriving DecidableEq

structure Policy where
  type : Int
  value : List UInt8

structure ConfigPolicy where
  version : UInt64
  policy : Option Policy
  modPolicy : String

structure ConfigGroup where
  version : UInt64
  groups : List (String × ConfigGroup)
  values : List (String × ConfigValue)
  policies : List (String × ConfigPolicy)
  modPolicy : String

mutual
/-- The children of a group are maps, so no name occurs twice in one. -/
def ConfigGroup.WellFormed : ConfigGroup → Prop
  | ⟨_, groups, values, policies, _⟩ =>
    (groups.map (·.1)).Nodup ∧ (values.map (·.1)).Nodup ∧ (policies.map (·.1)).Nodup ∧ WellFormedGroups groups

def WellFormedGroups : List (String × ConfigGroup) → Prop
  | [] => True
  | (_, group) :: groups => group.WellFormed ∧ WellFormedGroups groups
end

structure ConfigTree where
  group : ConfigGroup
  wellFormed : group.WellFormed

inductive Element where
  | group (group : ConfigGroup)
  | value (value : ConfigValue)
  | policy (policy : ConfigPolicy)

structure Comparable where
  key : String
  path : List String
  element : Element

variable (cg : Comparable)

def Comparable.version : UInt64 :=
  match cg.element with
  | .group group => group.version
  | .value value => value.version
  | .policy policy => policy.version

def Comparable.modPolicy : String :=
  match cg.element with
  | .group group => group.modPolicy
  | .value value => value.modPolicy
  | .policy policy => policy.modPolicy

abbrev ConfigMap := Map String Comparable

def maxLength : Nat := 249

def configAllowedChars (c : Char) : Bool := c.isAlphanum || c == '.' || c == '-'

def findString (first next : Char → Bool) (s : List Char) : List Char :=
  match s.dropWhile (!first ·) with
  | [] => []
  | c :: rest => c :: rest.takeWhile next

def validateConfigID (configID : String) : Result Unit :=
  if configID.utf8ByteSize = 0 then .error (.error "config ID illegal, cannot be empty")
  else if maxLength < configID.utf8ByteSize then .error (.error "config ID illegal, cannot be longer than 249")
  else if configID = "." ∨ configID = ".." then .error (.error ("name '" ++ configID ++ "' for config ID is not allowed"))
  else if (findString configAllowedChars configAllowedChars configID.toList).length ≠ configID.utf8ByteSize then
    .error (.error ("config ID '" ++ configID ++ "' contains illegal characters"))
  else .ok ()

def wrapf {α : Type} (message : String) : Result α → Result α
  | .error (.error cause) => .error (.error (message ++ ": " ++ cause))
  | result => result

def groupPrefix : String := "[Group]  "
def valuePrefix : String := "[Value]  "
def policyPrefix : String := "[Policy] "
def pathSeparator : String := "/"

inductive Kind where
  | group
  | value
  | policy
  deriving DecidableEq

def Element.kind : Element → Kind
  | .group _ => .group
  | .value _ => .value
  | .policy _ => .policy

def Kind.fqPrefix : Kind → String
  | .group => groupPrefix
  | .value => valuePrefix
  | .policy => policyPrefix

def join (separator : String) : List String → String
  | [] => ""
  | [s] => s
  | s :: rest => s ++ separator ++ join separator rest

def Comparable.fqPath : String :=
  if cg.path = [] then cg.element.kind.fqPrefix ++ (pathSeparator ++ cg.key)
  else cg.element.kind.fqPrefix ++ (pathSeparator ++ join pathSeparator cg.path ++ pathSeparator ++ cg.key)

def addToMap (result : ConfigMap) : Result ConfigMap := do
  wrapf ("illegal characters in key: " ++ cg.element.kind.fqPrefix) (validateConfigID cg.key)
  .ok (result.insert cg.fqPath cg)

mutual
def recurseConfig (result : ConfigMap) (path : List String) : ConfigGroup → Result ConfigMap
  | ⟨version, groups, values, policies, modPolicy⟩ => do
    let result ← addToMap ⟨path.getLastD "", path.dropLast, .group ⟨version, groups, values, policies, modPolicy⟩⟩ result
    let result ← recurseGroups result path groups
    let result ← values.foldlM (fun result e => addToMap ⟨e.1, path, .value e.2⟩ result) result
    policies.foldlM (fun result e => addToMap ⟨e.1, path, .policy e.2⟩ result) result

def recurseGroups (result : ConfigMap) (path : List String) : List (String × ConfigGroup) → Result ConfigMap
  | [] => .ok result
  | (key, group) :: groups => do
    let result ← recurseConfig result (path ++ [key]) group
    recurseGroups result path groups
end

def mapConfig (channelGroup : Option ConfigGroup) (rootGroupKey : String) : Result ConfigMap :=
  match channelGroup with
  | none => .ok ∅
  | some channelGroup => recurseConfig ∅ [rootGroupKey] channelGroup

def hackyFixOrdererCapabilities : String := "[Value]  /Channel/Orderer/Capabilities"
def hackyFixNewModPolicy : String := "Admins"

variable (configMap : ConfigMap)

def hackyFix (modPolicy : String) : String :=
  if hackyFixOrdererCapabilities ∈ configMap ∧ modPolicy = "" then hackyFixNewModPolicy else modPolicy

def lookupValue (valuePath : String) : Result ConfigValue :=
  match configMap[valuePath]? with
  | none => .error (.error ("missing value at path: " ++ valuePath))
  | some ⟨_, _, .value value⟩ => .ok { value with modPolicy := hackyFix configMap value.modPolicy }
  | some _ => .error (.error ("ConfigValue not found at value path: " ++ valuePath))

def lookupPolicy (policyPath : String) : Result ConfigPolicy :=
  match configMap[policyPath]? with
  | none => .error (.error ("missing policy at path: " ++ policyPath))
  | some ⟨_, _, .policy policy⟩ => .ok { policy with modPolicy := hackyFix configMap policy.modPolicy }
  | some _ => .error (.error ("ConfigPolicy not found at policy path: " ++ policyPath))

def named {α : Type} (get : String → Result α) (key : String) : Result (String × α) := do
  .ok (key, ← get key)

-- The recursion is bounded by the longest path of the map.
def recurseConfigMap (configMap : ConfigMap) : Nat → String → Result ConfigGroup
  | 0, path => .error (.error ("missing group at path: " ++ (groupPrefix ++ path)))
  | depth + 1, path =>
    match configMap[groupPrefix ++ path]? with
    | none => .error (.error ("missing group at path: " ++ (groupPrefix ++ path)))
    | some ⟨_, _, .group group⟩ => do
      let groups ← (group.groups.map (·.1)).mapM
        (named fun key => recurseConfigMap configMap depth (path ++ pathSeparator ++ key))
      let values ← (group.values.map (·.1)).mapM
        (named fun key => lookupValue configMap (valuePrefix ++ path ++ pathSeparator ++ key))
      let policies ← (group.policies.map (·.1)).mapM
        (named fun key => lookupPolicy configMap (policyPrefix ++ path ++ pathSeparator ++ key))
      .ok ⟨group.version, groups, values, policies, hackyFix configMap group.modPolicy⟩
    | some _ => .error (.error ("ConfigGroup not found at group path: " ++ (groupPrefix ++ path)))

def longestPath : Nat := (configMap.keys.map String.length).max?.getD 0

def configMapToConfig (rootGroupKey : String) : Result ConfigGroup :=
  recurseConfigMap configMap (longestPath configMap + 1) (pathSeparator ++ rootGroupKey)

end Fabric.Configtx
