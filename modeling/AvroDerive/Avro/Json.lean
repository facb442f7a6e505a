import AvroDerive.Json.Basic
import AvroDerive.Avro.Type

/-! # The JSON form of Avro types

Keys stand in Avro's conventional order, absent options are left out, and dependency lists are not
written.
-/

namespace AvroDerive.AvroType

def optionMember (key : String) (value : Option String) : List (String × Json) :=
  match value with
  | some text => [(key, .str text)]
  | none => []

def fixedJson (f : Fixed) : Json :=
  .obj ([("type", .str "fixed"), ("name", .str f.name)] ++ optionMember "namespace" f.ns ++
    [("size", .ofNat f.size)] ++ optionMember "logicalType" f.logicalType)

def enumJson (e : Enumeration) : Json :=
  .obj ([("type", .str "enum"), ("name", .str e.name)] ++ optionMember "namespace" e.ns ++
    optionMember "doc" e.doc ++ [("symbols", .ofStrings e.symbols)])

mutual

def toJson : AvroType → Json
  | .primitive name => .str name
  | .reference name => .str name
  | .logical base logicalType => .obj [("type", .str base), ("logicalType", .str logicalType)]
  | .fixed f => fixedJson f
  | .record r =>
    .obj ([("type", .str "record"), ("name", .str r.name)] ++ optionMember "namespace" r.ns ++
      optionMember "doc" r.doc ++ [("fields", .arr (fieldsJson r.fields))])
  | .enum e => enumJson e
  | .array items => .obj [("type", .str "array"), ("items", items.toJson)]
  | .map values => .obj [("type", .str "map"), ("values", values.toJson)]
  | .union branches => .arr (branchesJson branches)

def fieldsJson : List (Field AvroType) → List Json
  | [] => []
  | f :: fs =>
    .obj ([("name", .str f.name), ("type", f.type.toJson)] ++ optionMember "doc" f.doc) ::
      fieldsJson fs

def branchesJson : List AvroType → List Json
  | [] => []
  | t :: ts => t.toJson :: branchesJson ts

end

end AvroDerive.AvroType
