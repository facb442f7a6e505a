import AvroDerive.Distinct
import AvroDerive.Avro.Type

/-! # The registry of named types

Types are kept in the order of their registration. A qualified name is registered at most once; the
first definition wins.
-/

namespace AvroDerive

abbrev Registry := List AvroType

namespace Registry

/-- An absent namespace and the empty one are the same. -/
def sameNs (a b : Option String) : Bool := a.filter (· ≠ "") == b.filter (· ≠ "")

def find? (r : Registry) (name : String) (ns : Option String) : Option AvroType :=
  List.find? (fun t => decide (t.name? = some name) && sameNs t.ns? ns) r

def findQualified? (r : Registry) (name : String) : Option AvroType :=
  List.find? (fun t => decide (t.qualifiedName? = some name)) r

def contains (r : Registry) (name : String) : Bool := (findQualified? r name).isSome

/-- Gathers the given dependencies and those of the records inside into the record's own list,
without its own name. Other types keep their form. -/
def gather (dependencies : List String) (t : AvroType) : AvroType :=
  match t with
  | .record r =>
    let own := qualify r.ns r.name
    let all := addAll r.dependencies
      ((dependencies ++ AvroType.fieldDependencies r.fields).filter (· ≠ own))
    .record { r with
      fields := AvroType.clearFields r.fields
      dependencies := all.filter (· ≠ own) }
  | t => t

/-- Registers a type unless its name is taken; returns its qualified name either way. -/
def register (r : Registry) (t : AvroType) (dependencies : List String) : String × Registry :=
  let name := t.qualifiedName?.getD ""
  (name, if contains r name then r else r ++ [gather dependencies t])

theorem qualifiedName?_gather (dependencies : List String) (t : AvroType) :
    (gather dependencies t).qualifiedName? = t.qualifiedName? := by
  cases t <;> rfl

/-- Registering appends at most one type and keeps those that are there. -/
theorem register_eq (r : Registry) (t : AvroType) (dependencies : List String) :
    (register r t dependencies).2 = r ∨
      (register r t dependencies).2 = r ++ [gather dependencies t] := by
  simp only [register]
  split
  · exact .inl rfl
  · exact .inr rfl

/-- The name that registering a named type returns is registered afterwards. -/
theorem contains_register (r : Registry) (t : AvroType) (dependencies : List String)
    (h : t.qualifiedName?.isSome) :
    contains (register r t dependencies).2 (register r t dependencies).1 = true := by
  obtain ⟨name, hn⟩ := Option.isSome_iff_exists.1 h
  simp only [register, hn, Option.getD_some]
  split
  · assumption
  · simp [contains, findQualified?, List.find?_append, qualifiedName?_gather, hn]

end Registry

end AvroDerive
