import AvroDerive.Avro.Type

/-! # The generic type

Stands in for a schema that admits any value: the simple types, and arrays and maps of such values
nested two levels deep.
-/

namespace AvroDerive.AvroType

def simpleTypes : List AvroType :=
  ["null", "boolean", "int", "long", "float", "double", "bytes", "string"].map .primitive

/-- A choice of branches, an array of such values and a map of them. -/
def withContainers (branches : List AvroType) : List AvroType :=
  simpleTypes ++ [.array (.union branches), .map (.union branches)]

def generic : AvroType := .union (withContainers (withContainers simpleTypes))

end AvroDerive.AvroType
