import AvroDerive.Distinct
import AvroDerive.Json.Equality
import AvroDerive.Schema.Keyword
import AvroDerive.Warning

/-! # Merged schemas

Schemas are merged in three ways: all of them at once, alternatives that share a base, and one
option laid over a base.
-/

namespace AvroDerive.Schema

/-- Keys that keep the value of the first schema that has them. -/
def firstWinsKeys : List String :=
  ["title", "description", "$comment", "$id", "$schema", "default", "examples"]

/-- Adds the values that are not there yet, up to equality. -/
def addValues (items more : List Json) : List Json :=
  more.foldl (fun items v => if v.elem items then items else items ++ [v]) items

/-- A value that is no list counts as the list of itself. -/
def listed : Json → List Json
  | .arr items => items
  | value => [value]

mutual

/-- Merges a value into a different one under the same key: objects member by member, anything
else as lists. -/
def mergeValue (key : String) (existing : Json) : Json → Json × List Warning
  | .obj source =>
    if key ∈ firstWinsKeys then (existing, [])
    else if key = "$ref" then (existing, [.referenceConflict existing (.obj source)])
    else
      match existing with
      | .obj target =>
        let (merged, warnings) := mergeMembers target source
        (.obj merged, warnings)
      | existing => (.arr (addValues (listed existing) [.obj source]), [])
  | value =>
    if key ∈ firstWinsKeys then (existing, [])
    else if key = "$ref" then (existing, [.referenceConflict existing value])
    else (.arr (addValues (listed existing) (listed value)), [])

/-- Merges members in order; an equal value changes nothing. -/
def mergeMembers (target : Object) : List (String × Json) → Object × List Warning
  | [] => (target, [])
  | (key, value) :: rest =>
    match Object.get? target key with
    | none => mergeMembers (Object.insert target key value) rest
    | some existing =>
      if existing.same value then mergeMembers target rest
      else
        let (merged, warnings) := mergeValue key existing value
        let (target, more) := mergeMembers (Object.insert target key merged) rest
        (target, warnings ++ more)

end

/-- Merges schemas that must hold together. Values that are no objects do not count. -/
def mergeAll (schemas : List Json) : Object × List Warning :=
  (schemas.filterMap Json.asObject?).foldl
    (fun (target, warnings) source =>
      let (target, more) := mergeMembers target source
      (target, warnings ++ more))
    ([], [])

/-- The properties of a base with those of an alternative laid over them. -/
def overlayProperties (base : Object) (properties : Json) : Object :=
  let existing := (Object.get? base "properties").getD (.obj [])
  let merged := match existing, properties with
    | .obj target, .obj source =>
      .obj (source.foldl (fun o m => Object.insert o m.1 m.2) target)
    | existing, _ => existing
  Object.insert base "properties" merged

/-- Merges the members of an alternative except `required` into a base. -/
def mergeAlternative (base : Object) : List (String × Json) → Object × List Warning
  | [] => (base, [])
  | (key, value) :: rest =>
    if key = "required" then mergeAlternative base rest
    else if key = "properties" then mergeAlternative (overlayProperties base value) rest
    else
      let (base, warnings) := mergeMembers base [(key, value)]
      let (base, more) := mergeAlternative base rest
      (base, warnings ++ more)

/-- The fields required by a branch; one that is no object requires none. -/
def branchRequired (branch : Json) : List String :=
  (branch.asObject?.map required).getD []

/-- The fields required by every branch; none if there is no branch. -/
def commonRequired : List Json → List String
  | [] => []
  | branch :: rest =>
    rest.foldl (fun common b => common.filter (· ∈ branchRequired b)) (branchRequired branch)

/-- Merges alternatives into a base as one schema. Later properties replace earlier ones. A field
is required if the base or every alternative requires it. -/
def mergeAny (base : Object) (branches : List Json) : Object × List Warning :=
  let (merged, warnings) := (branches.filterMap Json.asObject?).foldl
    (fun (merged, warnings) source =>
      let (merged, more) := mergeAlternative merged source
      (merged, warnings ++ more))
    (base, [])
  let names := addAll (required base) (commonRequired branches)
  (if names.isEmpty then Object.erase merged "required"
    else Object.insert merged "required" (.ofStrings names), warnings)

/-- One option laid over a base. An option that is no object is the base's `type`. -/
def mergeOne (base : Object) (option : Json) : Json :=
  match option with
  | .obj members => .obj (members.foldl (fun o m => Object.insert o m.1 m.2) base)
  | option => if base.isEmpty then option else .obj (Object.insert base "type" option)

end AvroDerive.Schema
