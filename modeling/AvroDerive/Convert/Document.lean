import AvroDerive.Avro.Evict
import AvroDerive.Avro.Inline
import AvroDerive.Avro.Json
import AvroDerive.Avro.Order
import AvroDerive.Convert.Definition

/-! # Whole documents and fragments

A conversion gives all types of a document, in the order of their dependencies and each name
defined once, or the single type that a fragment addresses, with what it depends on inside.
-/

namespace AvroDerive

/-- The types that a conversion gives. -/
inductive Output where
  | types (ts : List AvroType)
  | fragment (t : AvroType)
  deriving DecidableEq

/-- A single type stands alone, several make a list. -/
def Output.toJson : Output → Json
  | .types [t] => t.toJson
  | .types ts => .arr (ts.map AvroType.toJson)
  | .fragment t => t.toJson

namespace Convert

/-- The registered types in their order. Where a cycle had to be broken there is a warning. -/
def orderedTypes : Run (List AvroType) := do
  let ordered := AvroType.order (← get).registry
  Run.warnAll (ordered.brokenAt.map .brokenCycle)
  return ordered.types

/-- The type at a fragment of a document. -/
def fragmentOutput (cfg : Setting) (j : Json) (baseUri fragment : String) : Run Output := do
  let pointer := Schema.fragmentPointer fragment
  match j.pointer? pointer with
  | none => Run.fail (.unresolved ("#" ++ fragment) baseUri)
  | some schema =>
    let name := ((Schema.typeName? cfg.rootNs pointer).map Prod.fst).getD cfg.options.rootName
    match ← definition cfg j baseUri name schema (some pointer) with
    | none => Run.fail (.noSchema (baseUri ++ "#" ++ fragment))
    | some registered =>
      let types ← orderedTypes
      match AvroType.lookup? types registered with
      | some root => return .fragment (AvroType.inline types root)
      | none => Run.fail (.noSchema registered)

/-- All types of a document. -/
def documentOutput (cfg : Setting) (j : Json) (baseUri : String) : Run Output := do
  document cfg j baseUri
  if (← get).registry.isEmpty then Run.fail (.noSchema baseUri)
  else
    let types ← orderedTypes
    return .types (AvroType.evict types)

/-- Converts a document. The location is where it was found; with a fragment it is only that part
of the document that is converted. -/
def output (cfg : Setting) (j : Json) (location : String) : Run Output :=
  let base := if location = "" then "" else Location.baseUri cfg.workingDirectory location
  let (uri, fragment) := Text.cut '#' base.toList
  match fragment with
  | some (c :: rest) =>
    fragmentOutput cfg j (String.ofList uri) (String.ofList (c :: rest))
  | _ => documentOutput cfg j (String.ofList uri)

/-- The result of a conversion from the start, and its warnings. -/
def convert (cfg : Setting) (j : Json) (location : String) :
    Except Failure Output × List Warning :=
  let (result, state) := (output cfg j location).run.run {}
  (result, state.warnings)

end Convert

end AvroDerive
