import AvroDerive.Json.Basic
import AvroDerive.Avro.Name
import AvroDerive.Avro.Equality
import AvroDerive.Avro.Generic
import AvroDerive.Distinct

/-! # Primitive types

The format and the listed values refine the Avro type of a primitive type. A name that is no
primitive refers to a type that is defined elsewhere.
-/

namespace AvroDerive.Schema

/-- The names of the texts that are not empty, each once. -/
def enumSymbols (values : List Json) : List String :=
  distinct (((values.filterMap Json.asString?).filter (· ≠ "")).map Name.ofText)

/-- The type for a name and a format, before the format's logical type is applied. -/
def namedType (name : String) (format : Option String) : AvroType :=
  match name with
  | "string" => .primitive "string"
  | "integer" => .primitive (if format = some "int64" then "long" else "int")
  | "number" => .primitive (if format = some "double" then "double" else "float")
  | "boolean" => .primitive "boolean"
  | other => .reference other

/-- Applies a format that has a type of its own. -/
def formatType (field : String) (format : Option String) (t : AvroType) : AvroType :=
  match format with
  | some "date-time" | some "date" => .logical "int" "date"
  | some "time" => .logical "int" "time-millis"
  | some "duration" =>
    .fixed { name := Name.ofText (field ++ "_duration"), ns := none, size := 12,
             logicalType := some "duration" }
  | some "uuid" => .logical "string" "uuid"
  | _ => t

/-- Listed values replace the type if a text is among them. -/
def valuesType (field : String) (values : Option (List Json)) (t : AvroType) : AvroType :=
  match values with
  | some values =>
    if values.any fun v => v.asString?.isSome then
      match enumSymbols values with
      | [] => .primitive "string"
      | symbols => .enum { name := Name.ofText (field ++ "_enum"), ns := none, symbols }
    else t
  | none => t

/-- The type for a single name, and the names it depends on. -/
def singleType (field : String) (format : Option String) (values : Option (List Json))
    (name : String) : AvroType × List String :=
  if name = "null" then (.null, [])
  else
    let t := namedType name format
    (valuesType field values (formatType field format t),
      match t with
      | .reference other => [other]
      | _ => [])

/-- Adds a type, or the branches of a union, to a list of alternatives. -/
def addAlternative (alternatives : List AvroType) (t : AvroType) : List AvroType :=
  match t with
  | .union branches => addAll alternatives branches
  | t => addNew alternatives t

mutual

/-- The type for a value of the `type` keyword, and the names it depends on. -/
def primitiveType (field : String) (format : Option String) (values : Option (List Json)) :
    Json → AvroType × List String
  | .arr alternatives =>
    let (types, names) := alternativeTypes field format values alternatives []
    (match types with
      | [t] => t
      | types => .union types, names)
  | .str name => singleType field format values name
  | _ => (.generic, [])

/-- The types of a list of alternatives, added to those found so far. An object takes its format
and its values from itself, and is skipped without a `type`. -/
def alternativeTypes (field : String) (format : Option String) (values : Option (List Json)) :
    List Json → List AvroType → List AvroType × List String
  | [], types => (types, [])
  | .obj o :: rest, types =>
    let own := ((Object.get? o "format").bind Json.asString?,
      (Object.get? o "enum").bind Json.asArray?)
    match memberType field own.1 own.2 o with
    | some (t, names) =>
      let (types, more) := alternativeTypes field format values rest (addAlternative types t)
      (types, names ++ more)
    | none => alternativeTypes field format values rest types
  | item :: rest, types =>
    let (t, names) := primitiveType field format values item
    let (types, more) := alternativeTypes field format values rest (addAlternative types t)
    (types, names ++ more)

/-- The type for the `type` member of an object. -/
def memberType (field : String) (format : Option String) (values : Option (List Json)) :
    List (String × Json) → Option (AvroType × List String)
  | [] => none
  | (key, value) :: rest =>
    if key = "type" then some (primitiveType field format values value)
    else memberType field format values rest

end

end AvroDerive.Schema
