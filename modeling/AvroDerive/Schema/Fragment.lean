import AvroDerive.Json.Pointer
import AvroDerive.Text.Percent
import AvroDerive.Avro.Name

/-! # Fragments of a document

A reference within a document leads to a value of it, and its pointer gives a type name.
-/

namespace AvroDerive.Schema

/-- The pointer for a URI fragment: its escapes decoded, with a `/` in front unless it is empty or
has one. -/
def fragmentPointer (fragment : String) : String :=
  let decoded := Text.percentDecode fragment.toList
  match decoded with
  | [] => ""
  | c :: rest => String.ofList (if c = '/' then c :: rest else '/' :: c :: rest)

/-- The fragment of a reference within the document, `#...`. -/
def localPart? (reference : String) : Option String :=
  match reference.toList with
  | '#' :: fragment => some (String.ofList fragment)
  | _ => none

/-- The value that a reference within the document refers to. -/
def localFragment? (document : Json) (reference : String) : Option Json :=
  (localPart? reference).bind fun fragment => document.pointer? (fragmentPointer fragment)

/-- Keys of definition groups that do not count in a namespace. -/
def definitionGroups : List String := ["definitions", "$defs"]

/-- The name and the namespace of the type that a path of keys addresses: the last key, and the
root namespace followed by the keys before it. -/
def typeNameOfKeys? (root : String) (keys : List String) : Option (String × String) :=
  keys.getLast?.map fun last =>
    (Name.ofText last,
      Namespace.compose (root :: keys.dropLast.filter (· ∉ definitionGroups)))

def typeName? (root pointer : String) : Option (String × String) :=
  typeNameOfKeys? root (Pointer.keys pointer)

end AvroDerive.Schema
