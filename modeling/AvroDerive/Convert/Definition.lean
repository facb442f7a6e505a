import AvroDerive.Convert.Node

/-! # Definitions

Each definition of a document is converted, named after its place and registered; what is no schema
in a list of definitions is a group of further ones.
-/

namespace AvroDerive.Convert

/-- The key under which references to a pointer of a document are remembered. -/
def pointerKey (baseUri pointer : String) : String := Location.resolve baseUri ("#" ++ pointer)

/-- Whether a definition is converted as a record from the start. -/
def isRecordSchema (o : Object) : Bool :=
  Object.contains o "properties" || Schema.typeIncludes o "object" ||
    Schema.typeIncludes o "array" || Schema.hasComposition o

/-- Converts a definition, with the names its type depends on. -/
def definitionType (cfg : Setting) (schema : Json) (scope : Scope) :
    Run (Option AvroType × List String) := do
  match schema with
  | .obj o =>
    if isRecordSchema o then
      return (← objectRecord (node cfg) scope.record scope.ns o scope, [])
    else Build.apart (node cfg schema scope)
  | schema => Build.apart (node cfg schema scope)

/-- The record that holds a type which has no name. -/
def valueRecord (name ns : String) (schema : Json) (t : AvroType) : AvroType :=
  let r : Record AvroType := (Record.empty name ns).pushField "value" t
  .record { r with doc := schema.asObject?.bind description? }

/-- Registers the type of a definition. A reference can name it only if its schema stands alone;
to any other schema it means the type without its record. -/
def registerDefinition (key : Option String) (schema : Json) (name ns : String) (t : AvroType)
    (names : List String) : Run String := do
  let registered ← Run.register ((t.withName name).withNs ns) names
  match key with
  | some key => if Schema.isStandalone schema then Run.remember key (.named registered)
  | none => pure ()
  return registered

/-- The registered type that a type is nothing but a reference to. -/
def aliasOf? (r : Registry) : AvroType → Option String
  | .reference target => if Registry.contains r target then some target else none
  | _ => none

/-- Keeps the type of a definition: a record or an enumeration under the definition's name, a
reference to a registered type as another name for that, and anything else in a record. -/
def keepDefinition (key : Option String) (schemaName : String) (schema : Json) (name ns : String)
    (t : Option AvroType) (names : List String) : Run (Option String) := do
  match t with
  | none =>
    Run.warn (.emptyDefinition schemaName)
    return none
  | some t =>
    if t.isRecord || t.isEnum then
      return some (← registerDefinition key schema name ns t names)
    else
      match aliasOf? (← get).registry t with
      | some target =>
        match key with
        | some key => Run.remember key (.named target)
        | none => pure ()
        return some target
      | none =>
        let r := valueRecord name ns schema t
        return some (← registerDefinition key schema name ns r names)

/-- Whether a reference has led to the definition and given it a name. -/
def isImported (key : Option String) : Run Bool := do
  match key with
  | some key =>
    match ← Run.imported? key with
    | some (.named _) => return true
    | _ => return false
  | none => return false

/-- Processes a definition and returns the name it is registered under. The pointer is where the
definition stands in the document; a definition that was imported already is passed over. -/
def definition (cfg : Setting) (document : Json) (baseUri schemaName : String) (schema : Json)
    (pointer : Option String) : Run (Option String) := do
  let key := pointer.map (pointerKey baseUri)
  if ← isImported key then return none
  else
    let (name, ns) := (pointer.bind (Schema.typeName? cfg.rootNs)).getD
      (Name.ofText schemaName, cfg.rootNs)
    let (t, names) ← definitionType cfg schema (Scope.root name ns document baseUri)
    keepDefinition key schemaName schema name ns t names

mutual

/-- Processes a member of a list of definitions: a schema, or a group of further definitions. -/
def definitionOrGroup (cfg : Setting) (document : Json) (baseUri pointer name : String) :
    Json → Run Unit
  | .obj members => do
    if Schema.isSchemaLike (.obj members) then
      let _ ← definition cfg document baseUri name (.obj members) (some pointer)
    else definitionList cfg document baseUri pointer members
  | _ => return ()

/-- Processes the definitions of a list, which stands at the pointer, in order. -/
def definitionList (cfg : Setting) (document : Json) (baseUri pointer : String) :
    List (String × Json) → Run Unit
  | [] => return ()
  | (name, schema) :: rest => do
    definitionOrGroup cfg document baseUri (pointer ++ "/" ++ Pointer.escape name) name schema
    definitionList cfg document baseUri pointer rest

end

/-- Whether the root of a document is a schema and not a collection of them. -/
def isSingleSchema (o : Object) : Bool :=
  Object.contains o "type" || Object.contains o "properties" || Schema.hasComposition o

/-- Processes the schemas of an array, named by their titles or their places. -/
def definitionItems (cfg : Setting) (document : Json) (baseUri : String) :
    Nat → List Json → Run Unit
  | _, [] => return ()
  | index, item :: rest => do
    match item with
    | .obj o =>
      let name := ((Object.get? o "title").bind Json.asString?).getD
        (cfg.options.rootName ++ "_" ++ toString index)
      let _ ← definition cfg document baseUri name item none
    | _ => pure ()
    definitionItems cfg document baseUri (index + 1) rest

/-- Processes every schema of a document: the document itself, its definitions, or the items of
an array. -/
def document (cfg : Setting) (j : Json) (baseUri : String) : Run Unit := do
  match j with
  | .obj o =>
    if isSingleSchema o then
      let _ ← definition cfg j baseUri cfg.options.rootName j none
    else if Object.contains o "swagger" || Object.contains o "definitions" ||
        Object.contains o "$defs" then
      let group := if Object.contains o "definitions" then "definitions" else "$defs"
      match (Object.get? o group).bind Json.asObject? with
      | some (first :: rest) =>
        definitionList cfg j baseUri ("/" ++ Pointer.escape group) (first :: rest)
      | _ => Run.fail (.noSchema (baseUri ++ " (no definitions)"))
    else Run.fail (.noSchema baseUri)
  | .arr items => definitionItems cfg j baseUri 0 items
  | _ => Run.fail (.noSchema baseUri)

end AvroDerive.Convert
