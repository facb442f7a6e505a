import AvroDerive.Avro.Union
import AvroDerive.Convert.Record
import AvroDerive.Convert.Reference
import AvroDerive.Schema.Primitive

/-! # The type of a schema node

Each function takes the conversion of the nodes inside, and every node inside is deeper than the
node; so the conversion is tied together by recursion on the levels that are left up to the depth
limit.
-/

namespace AvroDerive.Convert

/-- The type for a value of the `type` keyword. -/
def primitive (scope : Scope) (format : Option String) (values : Option (List Json))
    (type : Json) : Build AvroType := do
  let (t, names) := Schema.primitiveType scope.localName format values type
  Build.dependAll names
  return t

/-- A text constant is an enumeration with one symbol; another one has the type of its kind. -/
def constantType (scope : Scope) : Json → AvroType
  | .str text =>
    .enum { name := Name.ofText scope.localName, ns := none, symbols := [Name.ofText text] }
  | .bool _ => .primitive "boolean"
  | .num (.float _) => .primitive "double"
  | .num (.int n) => .primitive (if -0x80000000 ≤ n ∧ n < 0x80000000 then "int" else "long")
  | .null => .null
  | .arr _ => .array .generic
  | .obj _ => .map .generic

def refersElsewhere : Json → Bool
  | .obj o => Object.contains o "$ref"
  | _ => false

/-- The types of numbered alternatives that say something. -/
def alternativeTypes (node : NodeConverter) (scope : Scope) :
    Nat → List Json → Build (List AvroType)
  | _, [] => return []
  | n, candidate :: rest => do
    let field := if refersElsewhere candidate then ""
      else Name.ofText (scope.localName ++ "_" ++ toString (n + 1))
    let t ← node candidate (scope.forField field)
    let types ← alternativeTypes node scope (n + 1) rest
    return (t.filter (!·.isEmpty)).toList ++ types

/-- The type of the candidates that a composition stands for: that of a single candidate, else
the union of theirs. -/
def candidatesType (node : NodeConverter) (keepEmpty : Bool) (scope : Scope)
    (candidates : List Json) : Build (Option AvroType) := do
  match candidates with
  | [candidate] =>
    let t ← node candidate scope.deeper
    return if keepEmpty then t else some (usefulOrGeneric t)
  | candidates =>
    match ← alternativeTypes node scope 0 candidates with
    | [] => return none
    | [t] => return some t
    | types => return some (.union (AvroType.flatten types))

def isStructured (type : Json) : Bool :=
  type.asString? = some "object" || type.asString? = some "array"

def isNullName (type : Json) : Bool := type.asString? = some "null"

/-- The type of a list of types. If an object or an array is listed, each type but `null` is an
alternative of its own. -/
def listedType (node : NodeConverter) (types : List Json) (o : Object) (scope : Scope) :
    Build (Option AvroType) := do
  if types.any isStructured then
    let withType (type : Json) : Json := .obj (Object.insert o "type" type)
    let t ← match types.filter (!isNullName ·) with
      | [single] => node (withType single) scope.deeper
      | others => candidatesType node false scope (others.map withType)
    if types.any isNullName then return t.map fun t => AvroType.unionOf [.null, t] else return t
  else
    let t ← primitive scope ((Object.get? o "format").bind Json.asString?)
      ((Object.get? o "enum").bind Json.asArray?) (.arr types)
    return some t

/-- The types of the items of a tuple; items that say nothing do not count. -/
def tupleTypes (node : NodeConverter) (scope : Scope) : List Json → Build (List AvroType)
  | [] => return []
  | item :: rest => do
    let t ← node item scope
    return t.toList ++ (← tupleTypes node scope rest)

/-- An array of the type of its items; those of a tuple are united. -/
def arrayType (node : NodeConverter) (o : Object) (scope : Scope) : Build AvroType := do
  match Object.get? o "items" with
  | some (.arr tuple) =>
    match ← tupleTypes node scope.deeper tuple with
    | [] => return .array .generic
    | types => return .array (AvroType.unionOf types)
  | some items => return .array (orGeneric (← node items scope.deeper))
  | none => return .array .generic

/-- The record of an object schema, with its dependencies passed on to the record around it. -/
def inlineRecord (node : NodeConverter) (o : Object) (scope : Scope) :
    Build (Option AvroType) := do
  match ← objectRecord node scope.localName scope.typeNs o scope with
  | some r =>
    Build.lift r.dependencies
    return some r.clearDependencies
  | none => return none

/-- The type that the keywords of a schema give, before documentation and namespace are added. -/
def keywordType (node : NodeConverter) (o : Object) (scope : Scope) :
    Build (Option AvroType) := do
  let format := (Object.get? o "format").bind Json.asString?
  let values := (Object.get? o "enum").bind Json.asArray?
  match Object.get? o "const", Object.get? o "type" with
  | some constant, _ => return some (constantType scope constant)
  | none, some (.arr types) => listedType node types o scope
  | none, some (.str type) =>
    if type = "array" then return some (← arrayType node o scope)
    else if type = "object" then inlineRecord node o scope
    else return some (← primitive scope format values (.str type))
  | none, some type => return some (← primitive scope format values type)
  | none, none =>
    if values.isSome then return some (← primitive scope format values (.str "string"))
    else if Object.contains o "items" then return some (← arrayType node o scope)
    else if format.isSome then return some (← primitive scope format none (.str "string"))
    else return none

/-- Documents a type and gives it its namespace. The enumeration of a type on its own takes that
type's name. -/
def nameType (o : Object) (scope : Scope) (t : AvroType) : AvroType :=
  let t := match description? o with
    | some doc => t.withDocIfMissing doc
    | none => t
  if t.isNamed then
    let t := if t.ns?.isNone then t.withNs scope.typeNs else t
    if t.isEnum && scope.field = "" then t.withName (Name.ofText scope.localName) else t
  else t

/-- A named type whose name is registered already becomes a reference to it. -/
def reuseRegistered (t : AvroType) : Build AvroType := do
  match t.name? with
  | some name =>
    match (Registry.find? (← getThe State).registry name t.ns?).bind AvroType.qualifiedName? with
    | some registered =>
      Build.depend registered
      return .reference registered
    | none => return t
  | none => return t

/-- An object schema that lists properties has the type `object` unless it names another one. -/
def withObjectType (o : Object) : Object :=
  if Object.contains o "properties" && !Object.contains o "type" then
    Object.insert o "type" (.str "object")
  else o

/-- The type of an object node. -/
def objectNode (cfg : Setting) (node : NodeConverter) (o : Object) (scope : Scope) :
    Build (Option AvroType) := do
  let o ← withoutConditionals o
  if Schema.hasComposition o then
    let (candidates, warnings) := Schema.expand scope.document o
    Run.warnAll warnings
    candidatesType node (Object.contains o "allOf") scope candidates
  else
    let o := withObjectType o
    if Object.contains o "$ref" then referenceType cfg node o scope
    else
      match ← keywordType node o scope with
      | some t => return some (← reuseRegistered (nameType o scope t))
      | none => return none

/-- The type of any node. `true` and what is no schema admit every value, `false` says nothing. -/
def step (cfg : Setting) (node : NodeConverter) : NodeConverter := fun j scope =>
  match j with
  | .bool true => return some .generic
  | .bool false => return none
  | .str text => return some (← primitive scope none none (.str text))
  | .arr items => return some (← primitive scope none none (.arr items))
  | .obj o => objectNode cfg node o scope
  | value => do
    Run.warn (.unexpectedValue value scope.record)
    return some .generic

/-- The answer for a node beyond the depth limit. -/
def tooDeep (cfg : Setting) (scope : Scope) : Build (Option AvroType) := do
  Run.warn (.tooDeep cfg.options.maxDepth scope.record)
  return some .generic

/-- Converts nodes through at most `levels` levels. -/
def nodeWithin (cfg : Setting) : Nat → NodeConverter
  | 0 => fun _ scope => tooDeep cfg scope
  | levels + 1 => fun j scope =>
    if cfg.options.maxDepth < scope.depth then tooDeep cfg scope
    else step cfg (nodeWithin cfg levels) j scope

/-- Converts a node; depth limit and levels agree, since every level is at least one deeper. -/
def node (cfg : Setting) : NodeConverter := nodeWithin cfg (cfg.options.maxDepth + 1)

end AvroDerive.Convert
