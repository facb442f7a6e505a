import AvroDerive.Avro.Type

/-! # Inlined definitions

The first reference to a type of the list is replaced by the type's definition, into which the
replacement goes on; later references, and those from inside the definition, stay. A repeated
definition becomes a reference.

Following a reference leaves the type at hand, so the traversal takes the function that follows
one. Every reference followed from inside a definition defines a further name of the list, so
definitions nest no deeper than the list is long.
-/

namespace AvroDerive.AvroType

/-- What a reference turns into, given the names defined before it. -/
abbrev Follow := List String → String → AvroType × List String

mutual

def inlineWith (follow : Follow) (defined : List String) : AvroType → AvroType × List String
  | .record r =>
    let name := qualify r.ns r.name
    if name ∈ defined then (.reference name, defined)
    else
      let (fields, defined) := inlineFields follow (name :: defined) r.fields
      (.record { r with fields }, defined)
  | .enum e =>
    let name := qualify e.ns e.name
    if name ∈ defined then (.reference name, defined) else (.enum e, name :: defined)
  | .fixed f =>
    let name := qualify f.ns f.name
    if name ∈ defined then (.reference name, defined) else (.fixed f, name :: defined)
  | .reference name => if name ∈ defined then (.reference name, defined) else follow defined name
  | .array items =>
    let (items, defined) := inlineWith follow defined items
    (.array items, defined)
  | .map values =>
    let (values, defined) := inlineWith follow defined values
    (.map values, defined)
  | .union branches =>
    let (branches, defined) := inlineBranches follow defined branches
    (.union branches, defined)
  | t => (t, defined)

def inlineFields (follow : Follow) (defined : List String) :
    List (Field AvroType) → List (Field AvroType) × List String
  | [] => ([], defined)
  | f :: fs =>
    let (type, defined) := inlineWith follow defined f.type
    let (fs, defined) := inlineFields follow defined fs
    ({ f with type } :: fs, defined)

def inlineBranches (follow : Follow) (defined : List String) :
    List AvroType → List AvroType × List String
  | [] => ([], defined)
  | t :: ts =>
    let (t, defined) := inlineWith follow defined t
    let (ts, defined) := inlineBranches follow defined ts
    (t :: ts, defined)

end

/-- The first type of the list with the qualified name. -/
def lookup? (types : List AvroType) (name : String) : Option AvroType :=
  types.find? fun t => decide (t.qualifiedName? = some name)

/-- Follows references through at most `depth` nested definitions. -/
def followAt (types : List AvroType) : Nat → Follow
  | 0 => fun defined name => (.reference name, defined)
  | depth + 1 => fun defined name =>
    match lookup? types name with
    | some definition => inlineWith (followAt types depth) defined definition
    | none => (.reference name, defined)

/-- The type with every type of the list that it reaches defined inside it. -/
def inline (types : List AvroType) (root : AvroType) : AvroType :=
  (inlineWith (followAt types types.length) [] root).1

end AvroDerive.AvroType
