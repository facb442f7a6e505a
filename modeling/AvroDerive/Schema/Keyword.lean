import AvroDerive.Json.Basic

/-! # Keywords of a schema object

Which keywords a schema object holds, and what they say about the kind of its type.
-/

namespace AvroDerive.Schema

/-- Keywords that leave the referenced type as it is when they stand beside `$ref`. -/
def annotationKeywords : List String :=
  ["$ref", "$comment", "$id", "$schema", "description", "title", "examples", "default",
    "deprecated", "readOnly"]

def hasComposition (o : Object) : Bool :=
  Object.contains o "allOf" || Object.contains o "oneOf" || Object.contains o "anyOf"

/-- Whether a value is a schema and not a group of definitions. -/
def isSchemaLike : Json → Bool
  | .obj o =>
    Object.contains o "type" || Object.contains o "properties" || Object.contains o "enum" ||
      Object.contains o "$ref" || hasComposition o
  | _ => false

/-- Whether `type` is the name or lists it. -/
def typeIncludes (o : Object) (name : String) : Bool :=
  match Object.get? o "type" with
  | some (.str type) => type == name
  | some (.arr types) => types.any fun t => t.asString? == some name
  | _ => false

/-- Whether a fragment is worth a name of its own: it describes a record or an enumeration. -/
def isStandalone : Json → Bool
  | .obj o =>
    (Object.get? o "type").bind Json.asString? == some "object" ||
      Object.contains o "properties" || Object.contains o "enum" ||
      Object.contains o "allOf" || Object.contains o "anyOf" ||
      ((Object.get? o "oneOf").bind Json.asArray?).any (·.length ≤ 1)
  | _ => false

/-- Whether nothing beside `$ref` shapes the type. -/
def isBareReference (o : Object) : Bool :=
  (Object.keys o).all (· ∈ annotationKeywords)

/-- The texts listed in `required`. -/
def required (o : Object) : List String :=
  (((Object.get? o "required").bind Json.asArray?).getD []).filterMap Json.asString?

end AvroDerive.Schema
