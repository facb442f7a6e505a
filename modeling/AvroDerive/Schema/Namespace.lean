import AvroDerive.Avro.Name
import AvroDerive.Json.Basic
import AvroDerive.Location

/-! # The namespace of a document

A document has the namespace that is given, else one that its `$id` gives, else one that its file
name gives.
-/

namespace AvroDerive.Schema

/-- The path of an `$id` without its extension, inner segments first. -/
def pathNamespace (path : String) : String :=
  let trimmed := Text.trimEnds (· = '/') path.toList
  let stem := Text.replaceChar '-' '_' (Text.before '.' (String.ofList trimmed))
  Namespace.compose (Text.split '/' stem).reverse

/-- The labels of a host, top domain first. -/
def hostNamespace (host : String) : String := Namespace.compose (Text.split '.' host).reverse

/-- The reversed host followed by the reversed path; empty if the text is no URL. -/
def idNamespace (id : String) : String :=
  match Url.parse id with
  | .ok url =>
    Namespace.compose [(url.hostText?.map hostNamespace).getD "", pathNamespace url.path]
  | .error _ => ""

/-- The file name of a location up to its first dot. -/
def fileNamespace (location : String) : String :=
  let path := Text.replaceChar '-' '_' (Text.replaceChar '\\' '/' (Text.before '#' location))
  Namespace.ofText (Text.before '.' ((Text.split '/' path).getLast?.getD ""))

def deriveNamespace (schema : Json) (location : String) (explicit : Option String) : String :=
  match explicit.filter (· ≠ "") with
  | some ns => ns
  | none =>
    match (((schema.get? "$id").bind Json.asString?).map idNamespace).filter (· ≠ "") with
    | some ns => ns
    | none => fileNamespace location

end AvroDerive.Schema
