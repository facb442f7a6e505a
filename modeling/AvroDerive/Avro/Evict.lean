import AvroDerive.Avro.Type

/-! # One definition per name

In a list of types read in order, each type in pre-order, a definition of a name that is defined
before becomes a reference, and a whole type that is defined before is dropped.
-/

namespace AvroDerive.AvroType

mutual

/-- Replaces repeated definitions inside a type, given the names defined before it; returns also
the names defined after it. -/
def evictIn (defined : List String) : AvroType → AvroType × List String
  | .record r =>
    let name := qualify r.ns r.name
    if name ∈ defined then (.reference name, defined)
    else
      let (fields, defined) := evictFields (name :: defined) r.fields
      (.record { r with fields }, defined)
  | .enum e =>
    let name := qualify e.ns e.name
    if name ∈ defined then (.reference name, defined) else (.enum e, name :: defined)
  | .fixed f =>
    let name := qualify f.ns f.name
    if name ∈ defined then (.reference name, defined) else (.fixed f, name :: defined)
  | .array items =>
    let (items, defined) := evictIn defined items
    (.array items, defined)
  | .map values =>
    let (values, defined) := evictIn defined values
    (.map values, defined)
  | .union branches =>
    let (branches, defined) := evictBranches defined branches
    (.union branches, defined)
  | t => (t, defined)

def evictFields (defined : List String) :
    List (Field AvroType) → List (Field AvroType) × List String
  | [] => ([], defined)
  | f :: fs =>
    let (type, defined) := evictIn defined f.type
    let (fs, defined) := evictFields defined fs
    ({ f with type } :: fs, defined)

def evictBranches (defined : List String) : List AvroType → List AvroType × List String
  | [] => ([], defined)
  | t :: ts =>
    let (t, defined) := evictIn defined t
    let (ts, defined) := evictBranches defined ts
    (t :: ts, defined)

end

/-- Whether the type is a definition of one of the names. -/
def isDefinedIn (names : List String) (t : AvroType) : Bool :=
  t.qualifiedName?.any (· ∈ names)

def evictFrom : List String → List AvroType → List AvroType
  | _, [] => []
  | defined, t :: ts =>
    if t.isDefinedIn defined then evictFrom defined ts
    else
      let (t, defined) := evictIn defined t
      t :: evictFrom defined ts

def evict (types : List AvroType) : List AvroType := evictFrom [] types

end AvroDerive.AvroType
