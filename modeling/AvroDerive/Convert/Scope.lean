import AvroDerive.Avro.Name
import AvroDerive.Json.Basic

/-! # Scopes

A scope says where in its document a node is converted: inside which record, as the type of which
field, and how deep.
-/

namespace AvroDerive

structure Scope where
  /-- The record around the node, or the type that is being defined. -/
  record : String
  /-- The field that the node is the type of; empty for a type on its own. -/
  field : String := ""
  ns : String
  /-- The document that references `#...` are looked up in. -/
  document : Json
  baseUri : String
  depth : Nat := 0

namespace Scope

def root (record ns : String) (document : Json) (baseUri : String) : Scope :=
  { record, ns, document, baseUri }

def deeper (s : Scope) : Scope := { s with depth := s.depth + 1 }

/-- The scope of a field's type in the same record. -/
def forField (s : Scope) (field : String) : Scope := { s with field, depth := s.depth + 1 }

/-- The scope of the fields of a record. -/
def forRecord (s : Scope) (record ns : String) : Scope :=
  { s with record, field := "", ns, depth := s.depth + 1 }

def withDocument (s : Scope) (document : Json) (baseUri : String) : Scope :=
  { s with document, baseUri }

/-- The name of a type that is made here. -/
def localName (s : Scope) : String := if s.field = "" then s.record else s.field

/-- The namespace of a type that is made here. The type of a field lives beneath its record. -/
def typeNs (s : Scope) : String :=
  if s.field = "" then s.ns else Namespace.compose [s.ns, s.record ++ "_types"]

end Scope

end AvroDerive
