import AvroDerive.Schema.Fragment
import AvroDerive.Schema.Merge

/-! # Composition keywords

A node with `allOf`, `oneOf` or `anyOf` stands for a list of candidate schemas without them.
-/

namespace AvroDerive.Schema

/-- Conditional keywords, which are dropped. -/
def conditionalKeywords : List String :=
  ["if", "then", "else", "dependentSchemas", "dependentRequired"]

def compositionKeywords : List String := ["allOf", "oneOf", "anyOf"]

def eraseAll (o : Object) (keys : List String) : Object := keys.foldl Object.erase o

/-- The schema without its conditional keywords; `none` if it has none. -/
def withoutConditionals? (o : Object) : Option Object :=
  if conditionalKeywords.any (Object.contains o) then some (eraseAll o conditionalKeywords)
  else none

/-- A member that refers to an object of the same document is replaced by it, merged with the
keys that stand beside the reference. -/
def dereference (document schema : Json) : Json × List Warning :=
  match schema with
  | .obj o =>
    match (Object.get? o "$ref").bind Json.asString? with
    | some reference =>
      match localFragment? document reference with
      | some (.obj fragment) =>
        let (merged, warnings) := mergeAll [.obj fragment, .obj (Object.erase o "$ref")]
        (.obj merged, warnings)
      | _ => (schema, [])
    | none => (schema, [])
  | _ => (schema, [])

def dereferenceAll (document : Json) (schemas : List Json) : List Json × List Warning :=
  let pairs := schemas.map (dereference document)
  (pairs.map Prod.fst, pairs.flatMap Prod.snd)

/-- The bases that a keyword applies to: the candidates so far as objects, or the node itself. -/
def bases (base : Object) : List Json → List Object
  | [] => [base]
  | candidates => candidates.map fun c => match c with
    | .obj o => o
    | value => [("type", value)]

def expandAll (document : Json) (base : Object) (members : List Json) :
    List Json × List Warning :=
  let (members, warnings) := dereferenceAll document members
  let (merged, more) := mergeAll (.obj base :: members)
  ([.obj merged], warnings ++ more)

def expandOne (base : Object) (options candidates : List Json) : List Json :=
  options.flatMap fun option => (bases base candidates).map fun b => mergeOne b option

def expandAny (document : Json) (base : Object) (branches candidates : List Json) :
    List Json × List Warning :=
  let (branches, warnings) := dereferenceAll document branches
  let merged := (bases base candidates).map fun b => mergeAny b branches
  (merged.map fun m => .obj m.1, warnings ++ merged.flatMap Prod.snd)

/-- The candidate that `allOf` gives, with its members merged into the base; none without it. -/
def afterAll (document : Json) (base o : Object) : List Json × List Warning :=
  match Object.get? o "allOf" with
  | some (.arr members) => expandAll document base members
  | _ => ([], [])

/-- The candidates with each option of `oneOf` laid over each of them. -/
def afterOne (base o : Object) (candidates : List Json) : List Json :=
  match Object.get? o "oneOf" with
  | some (.arr options) => expandOne base options candidates
  | _ => candidates

/-- The candidates of a node. `allOf` merges the node with its members into one candidate, `oneOf`
lays each option over each candidate, and `anyOf` merges its branches into each candidate. -/
def expand (document : Json) (o : Object) : List Json × List Warning :=
  let base := eraseAll o compositionKeywords
  let (candidates, warnings) := afterAll document base o
  let candidates := afterOne base o candidates
  match Object.get? o "anyOf" with
  | some (.arr branches) =>
    let (candidates, more) := expandAny document base branches candidates
    (candidates, warnings ++ more)
  | _ => (candidates, warnings)

end AvroDerive.Schema
