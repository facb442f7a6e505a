import AvroDerive.Avro.Generic
import AvroDerive.Convert.State
import AvroDerive.Json.Parser
import AvroDerive.Location
import AvroDerive.Schema.Fragment
import AvroDerive.Schema.Merge

/-! # References

A reference to a record or an enumeration becomes the name of a registered type, and every other
one the type itself; either is remembered. The name is remembered before the fragment is converted,
so a circular chain of references ends there.
-/

namespace AvroDerive.Convert

/-- A fragment and the document it was found in. -/
structure Located where
  fragment : Json
  document : Json
  baseUri : String
  /-- The absolute reference, if it leads out of the document. -/
  url : Option Url

/-- The document at a URL, fetched the first time it is asked for. -/
def fetchDocument (cfg : Setting) (url : Url) : Run Json := do
  match (← get).documents.lookup url.text with
  | some document => return document
  | none =>
    match cfg.source url with
    | .error e => Run.fail (.fetch e)
    | .ok text =>
      match Json.parse? text with
      | none => Run.fail (.invalidJson url.text)
      | some document =>
        modify fun s => { s with documents := (url.text, document) :: s.documents }
        return document

/-- A reference as a URL, relative to the document it stands in if that has one. -/
def absolute (reference base : String) : Except Url.Error Url :=
  match Url.parse base with
  | .ok base => base.resolve reference
  | .error _ => Url.parse reference

/-- Finds the fragment that a reference leads to. -/
def locate (cfg : Setting) (reference : String) (scope : Scope) : Run Located := do
  if (Schema.localPart? reference).isSome then
    match Schema.localFragment? scope.document reference with
    | some fragment =>
      return { fragment, document := scope.document, baseUri := scope.baseUri, url := none }
    | none => Run.fail (.unresolved reference scope.baseUri)
  else
    match absolute reference scope.baseUri with
    | .error e => Run.fail (.invalidReference reference e)
    | .ok url =>
      let place := url.withoutFragment
      let document ← fetchDocument cfg place
      match document.pointer? ((url.fragment.map Schema.fragmentPointer).getD "") with
      | some fragment => return { fragment, document, baseUri := place.text, url := some url }
      | none => Run.fail (.unresolved reference place.text)

/-- The name and the namespace of the type that a reference stands for: those its pointer gives,
else the name of the file under the root namespace. -/
def referenceName (cfg : Setting) (reference : String) (url : Option Url) (scope : Scope) :
    String × String :=
  let fragment := match url with
    | some url => url.fragment.getD ""
    | none => (Schema.localPart? reference).getD ""
  match Schema.typeName? cfg.rootNs (Schema.fragmentPointer fragment) with
  | some named => named
  | none =>
    let name := match url with
      | some url => (Location.fileStem? url.path).getD scope.record
      | none => cfg.options.rootName
    (Name.ofText name, cfg.rootNs)

/-- What a reference that was met before stands for. -/
def reuseImported (i : Imported) : Build AvroType := do
  match i with
  | .named name =>
    Build.depend name
    return .reference name
  | .inline t => return t

/-- Remembers what a converted fragment stands for. A record or an enumeration is registered if it
has the expected name; under another name it stands in for a type that is still under construction
and is used where it is. -/
def settle (key reference expected : String) (scope : Scope) (t : Option AvroType)
    (names : List String) : Build AvroType := do
  match t with
  | some t =>
    if t.isRecord || t.isEnum then
      if t.qualifiedName? = some expected then
        let name ← Run.register t names
        Run.remember key (.named name)
        Build.depend name
        return .reference name
      else
        Run.forget key
        Build.dependAll names
        return t
    else
      match t with
      | .reference name => Run.remember key (.named name)
      | t => Run.remember key (.inline t)
      Build.dependAll names
      return t
  | none =>
    Run.forget key
    Run.warn (.emptyReference reference scope.record)
    return .generic

/-- Converts the fragment of a reference that stands alone. -/
def importFragment (cfg : Setting) (node : NodeConverter) (key reference : String)
    (located : Located) (scope : Scope) : Build AvroType := do
  let (name, ns) := referenceName cfg reference located.url scope
  let expected := qualify (some ns) name
  if Schema.isStandalone located.fragment then Run.remember key (.named expected)
  let inner : Scope :=
    { record := name, ns, document := located.document, baseUri := located.baseUri,
      depth := scope.depth + 1 }
  let (t, names) ← Build.apart (node located.fragment inner)
  settle key reference expected scope t names

/-- The type of a node with a reference. Keys beside the reference are merged with the fragment,
and the result is not remembered. -/
def referenceType (cfg : Setting) (node : NodeConverter) (o : Object) (scope : Scope) :
    Build (Option AvroType) := do
  match (Object.get? o "$ref").bind Json.asString? with
  | none =>
    Run.warn (.unreadableReference scope.record)
    return some .generic
  | some reference =>
    let key := Location.resolve scope.baseUri reference
    match ← Run.imported? key with
    | some i => return some (← reuseImported i)
    | none =>
      let located ← locate cfg reference scope
      if Schema.isBareReference o then
        return some (← importFragment cfg node key reference located scope)
      else
        let (merged, warnings) :=
          Schema.mergeAll [.obj (Object.erase o "$ref"), located.fragment]
        Run.warnAll warnings
        node (.obj merged) (scope.withDocument located.document located.baseUri).deeper

end AvroDerive.Convert
