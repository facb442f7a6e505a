import AvroDerive.Avro.Generic
import AvroDerive.Convert.State
import AvroDerive.Schema.Composition

/-! # Records

An object schema becomes a record: a field for each property, and maps for the properties that are
not listed by name. The conversion of the nodes inside is given.
-/

namespace AvroDerive.Convert

def description? (o : Object) : Option String :=
  (Object.get? o "description").bind Json.asString?

/-- The type of a field that may be left out: `null` is among its branches, in front if it has to
be added. -/
def makeNullable (t : AvroType) : AvroType :=
  if t.containsNull then t
  else
    match t with
    | .union branches => .union (.null :: branches)
    | t => .union [.null, t]

/-- Drops the conditional keywords of a schema, with a warning if there are any. -/
def withoutConditionals (o : Object) : Run Object := do
  match Schema.withoutConditionals? o with
  | some rest =>
    Run.warn .conditional
    return rest
  | none => return o

/-- A type in place of nodes that say nothing. -/
def orGeneric (t : Option AvroType) : AvroType := t.getD .generic

/-- As `orGeneric`, also in place of types that say nothing. -/
def usefulOrGeneric (t : Option AvroType) : AvroType := orGeneric (t.filter (!·.isEmpty))

/-- What holds of the generic type and of the type at hand holds of the one that is taken. -/
theorem useful_or_generic {p : AvroType → Prop} {t : Option AvroType} (generic : p .generic)
    (h : ∀ u, t = some u → p u) : p (usefulOrGeneric t) := by
  unfold usefulOrGeneric
  cases hf : t.filter (!·.isEmpty) with
  | none => exact generic
  | some u => exact h u (Option.filter_eq_some_iff.mp hf).1

/-- The fields for the properties whose schema is an object or a boolean. -/
def propertyFields (node : NodeConverter) (required : List String) (scope : Scope) :
    List (String × Json) → Build (List (Field AvroType))
  | [] => return []
  | (name, schema) :: rest => do
    match schema with
    | .obj _ | .bool _ =>
      let t := orGeneric (← node schema (scope.forField name))
      let field : Field AvroType :=
        { name := Name.ofText name
          type := if name ∈ required then t else makeNullable t
          doc := schema.asObject?.bind description? }
      return field :: (← propertyFields node required scope rest)
    | _ => propertyFields node required scope rest

/-- The map field for `additionalProperties`, if its schema is an object. -/
def additionalField (node : NodeConverter) (name : String) (scope : Scope) (o : Object) :
    Build (List (Field AvroType)) := do
  match Object.get? o "additionalProperties" with
  | some (.obj schema) =>
    let t ← node (.obj schema) (scope.forField (scope.record ++ "_extensions"))
    return [{ name, type := .map (usefulOrGeneric t) }]
  | _ => return []

/-- The name under which the properties of a pattern are kept. -/
def patternName (pattern : String) : String :=
  if Name.sanitize pattern = "" then "extensions" else Name.sanitize pattern

/-- A map field for each pattern. -/
def patternFields (node : NodeConverter) (scope : Scope) :
    List (String × Json) → Build (List (Field AvroType))
  | [] => return []
  | (pattern, schema) :: rest => do
    let t ← node schema (scope.forField (patternName pattern))
    let field : Field AvroType :=
      { name := Name.ofText (patternName pattern), type := .map (usefulOrGeneric t) }
    return field :: (← patternFields node scope rest)

def patternsOf (o : Object) : Object :=
  ((Object.get? o "patternProperties").bind Json.asObject?).getD []

/-- The single field of an object schema that lists no properties at all. -/
def valuesField (node : NodeConverter) (scope : Scope) (o : Object) :
    Build (List (Field AvroType)) := do
  if Schema.typeIncludes o "object" || Object.contains o "properties" then
    return [{ name := "values", type := .map .generic }]
  else if Schema.typeIncludes o "array" then
    match Object.get? o "items" with
    | some items =>
      let t ← node items (scope.forField "values")
      return [{ name := "values", type := .array (orGeneric t) }]
    | none => return [{ name := "values", type := .array .generic }]
  else return []

/-- The fields of a record in order: the properties, the additional ones, the patterns. -/
def recordFields (node : NodeConverter) (scope : Scope) (o : Object) :
    Build (List (Field AvroType)) := do
  match (Object.get? o "properties").bind Json.asObject? with
  | some (property :: properties) =>
    let fields ← propertyFields node (Schema.required o) scope (property :: properties)
    let additional ← additionalField node "additionalProperties" scope o
    let patterns ← patternFields node scope (patternsOf o)
    return fields ++ additional ++ patterns
  | _ =>
    let additional ← additionalField node "values" scope o
    let patterns ← patternFields node scope (patternsOf o)
    let fields := additional ++ patterns
    if fields.isEmpty then valuesField node scope o else return fields

/-- The record of an object schema, with the names its fields depend on; none without fields to
hold, unless properties are listed. -/
def buildRecord (node : NodeConverter) (name ns : String) (o : Object) (scope : Scope) :
    Run (Option AvroType) := do
  let (fields, names) ← Build.apart (recordFields node (scope.forRecord name ns) o)
  let listed := ((Object.get? o "properties").bind Json.asObject?).any (!·.isEmpty)
  if fields.isEmpty && !listed then return none
  else
    let empty : Record AvroType := Record.empty name ns
    return some (.record { empty with
      doc := description? o, fields, dependencies := distinct names })

/-- A record that stands in for one that is still under construction and refers to it. -/
def cycleRecord (name ns : String) (target : Frame) : AvroType :=
  .record ((Record.empty (Name.ofText (name ++ "_ref")) ns).pushField name
    (.reference target.qualifiedName))

/-- The record of a schema with composition keywords: the record it converts to under the given
name, or one with the converted type as its `value`. -/
def compositionRecord (node : NodeConverter) (name ns : String) (o : Object) (scope : Scope) :
    Run AvroType := do
  let valueScope := (scope.forRecord name ns).forField "value"
  let (converted, names) ← Build.apart (node (.obj o) valueScope)
  let empty : Record AvroType := Record.empty (Name.ofText name) ns
  let r := match converted with
    | some (.record r) => { r with name := empty.name, ns := empty.ns }
    | other => empty.pushField "value" (orGeneric other)
  return .record { r with
    doc := r.doc.or (description? o), dependencies := addAll r.dependencies names }

/-- The record of an object schema under a name. -/
def objectRecord (node : NodeConverter) (name ns : String) (o : Object) (scope : Scope) :
    Run (Option AvroType) := do
  let o ← withoutConditionals o
  if Schema.hasComposition o then return some (← compositionRecord node name ns o scope)
  else
    let name := Name.ofText name
    match Frames.find? (← get).frames name with
    | some frame => return some (cycleRecord name ns frame)
    | none => Run.within ⟨name, ns⟩ (buildRecord node name ns o scope)

end AvroDerive.Convert
