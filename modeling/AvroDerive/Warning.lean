import AvroDerive.Json.Printer

/-! # Warnings

What a conversion reports without failing, and the wording of it.
-/

namespace AvroDerive

inductive Warning where
  /-- A `$ref` of the record that is no text. -/
  | unreadableReference (record : String)
  /-- A reference whose target gives no type. -/
  | emptyReference (reference record : String)
  /-- Two merged schemas refer to different targets. -/
  | referenceConflict (kept dropped : Json)
  /-- A definition that gives no type. -/
  | emptyDefinition (name : String)
  /-- Conditional keywords, which Avro cannot express. -/
  | conditional
  | tooDeep (limit : Nat) (record : String)
  /-- A value in the place of a schema that is none. -/
  | unexpectedValue (value : Json) (record : String)
  /-- A type that is emitted before a type it depends on. -/
  | brokenCycle (name : String)

namespace Warning

def message : Warning → String
  | unreadableReference record => "Ignoring non-string $ref in record " ++ record
  | emptyReference reference record =>
    "No usable type definition for " ++ reference ++ " in record " ++ record ++
      ", using generic type"
  | referenceConflict kept dropped =>
    "Conflicting $ref values " ++ kept.compact ++ " and " ++ dropped.compact ++
      " in merged schema, keeping the first"
  | emptyDefinition name => "Definition " ++ name ++ " has no usable type and is skipped"
  | conditional => "Conditional schema is not supported and will be ignored"
  | tooDeep limit record =>
    "Maximum recursion depth " ++ toString limit ++ " exceeded in record " ++ record ++
      ", using generic type"
  | unexpectedValue value record =>
    "Unexpected schema value " ++ value.compact ++ " in record " ++ record
  | brokenCycle name => "Circular dependencies remain unresolved at " ++ name

end Warning

end AvroDerive
