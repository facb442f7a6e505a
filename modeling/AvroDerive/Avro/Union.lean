import AvroDerive.Distinct
import AvroDerive.Avro.Equality

/-! # Unions and merged types

A union is flattened to distinct branches that are no unions, with at most one array and one map
among them; contents of arrays, and of maps, that differ are joined. Records are merged field by
field and enumerations symbol by symbol.

Joining the contents of two containers flattens again, one level further in. So each function takes
the joining function for the level below it, and `joinAt` ties them together by recursion on the
level.
-/

namespace AvroDerive.AvroType

mutual

/-- The branches of a type, looking through unions in unions. -/
def leaves : AvroType → List AvroType
  | .union branches => branchLeaves branches
  | t => [t]

def branchLeaves : List AvroType → List AvroType
  | [] => []
  | t :: ts => t.leaves ++ branchLeaves ts

end

def arrayItems? : AvroType → Option AvroType
  | .array items => some items
  | _ => none

def mapValues? : AvroType → Option AvroType
  | .map values => some values
  | _ => none

/-- Joins the content of a container into the first container of its kind. -/
def joinInto (content? : AvroType → Option AvroType) (wrap : AvroType → AvroType)
    (join : AvroType → AvroType → AvroType) (content : AvroType) :
    List AvroType → Option (List AvroType)
  | [] => none
  | t :: ts =>
    match content? t with
    | some existing => some (wrap (join existing content) :: ts)
    | none => (joinInto content? wrap join content ts).map (t :: ·)

/-- Adds a branch; an array or a map is joined with the one that is there already. -/
def addBranch (join : AvroType → AvroType → AvroType) (branches : List AvroType)
    (t : AvroType) : List AvroType :=
  match t with
  | .array items => (joinInto arrayItems? .array join items branches).getD (branches ++ [t])
  | .map values => (joinInto mapValues? .map join values branches).getD (branches ++ [t])
  | _ => branches ++ [t]

def flattenWith (join : AvroType → AvroType → AvroType) (types : List AvroType) :
    List AvroType :=
  (distinct (branchLeaves types)).foldl (addBranch join) []

/-- A single branch needs no union. -/
def unwrap : List AvroType → AvroType
  | [t] => t
  | branches => .union branches

/-- Adds a field to a record. A field of that name gets the union of both types if they differ,
and the documentation if it has none. -/
def mergeField (join : AvroType → AvroType → AvroType) (field : Field AvroType) :
    List (Field AvroType) → List (Field AvroType)
  | [] => [field]
  | f :: fs =>
    if f.name = field.name then
      { f with
        type := if f.type = field.type then f.type
          else .union (flattenWith join [f.type, field.type])
        doc := f.doc.or field.doc } :: fs
    else f :: mergeField join field fs

/-- The name of a merged type: concatenated, unless the names agree or a name is given. -/
def mergedName (given : Option String) (a b : String) : String :=
  if given.isNone && a ≠ b then a ++ b else a

/-- Merges the second record into the first; the dependencies are left to the caller. -/
def mergeRecordPair (join : AvroType → AvroType → AvroType) (given : Option String)
    (a b : Record AvroType) : Record AvroType :=
  { a with
    name := mergedName given a.name b.name
    ns := a.ns.or b.ns
    doc := a.doc.or b.doc
    fields := b.fields.foldl (fun fields f => mergeField join f fields) a.fields }

def mergeEnumPair (given : Option String) (a b : Enumeration) : Enumeration :=
  { a with
    name := mergedName given a.name b.name
    doc := a.doc.or b.doc
    symbols := addAll a.symbols b.symbols }

/-- The common type of the contents of two containers. Records merged here keep the dependencies
of both. -/
def joinWith (join : AvroType → AvroType → AvroType) (a b : AvroType) : AvroType :=
  if a = b then a
  else
    match a, b with
    | .record r, .record s =>
      .record { mergeRecordPair join none r s with
        dependencies := distinct (r.dependencies ++ s.dependencies) }
    | .enum d, .enum e => .enum (mergeEnumPair none d e)
    | a, b => unwrap (flattenWith join [a, b])

/-- Joins types nested less than `level` deep. -/
def joinAt : Nat → AvroType → AvroType → AvroType
  | 0 => fun a _ => a
  | level + 1 => joinWith (joinAt level)

/-- Joins the contents of two containers. -/
def join (a b : AvroType) : AvroType := joinAt (max a.depth b.depth + 1) a b

/-- The distinct branches of a list of types, with one array and one map at most. -/
def flatten (types : List AvroType) : List AvroType :=
  flattenWith (joinAt (branchesDepth types)) types

/-- The flattened union of a list of types, or its only branch. -/
def unionOf (types : List AvroType) : AvroType := unwrap (flatten types)

def records : List AvroType → List (Record AvroType) :=
  List.filterMap fun t => match t with
    | .record r => some r
    | _ => none

def enums : List AvroType → List Enumeration :=
  List.filterMap fun t => match t with
    | .enum e => some e
    | _ => none

/-- Merges a list of records, of which the first is given apart, level by level of `depth`. -/
def mergeRecords (given : Option String) (depth : Nat) (first : Record AvroType)
    (rest : List (Record AvroType)) : Record AvroType :=
  let merged := rest.foldl (mergeRecordPair (joinAt depth) given)
    { first with dependencies := [] }
  { merged with name := given.getD merged.name }

def mergeEnums (given : Option String) (first : Enumeration) (rest : List Enumeration) :
    Enumeration :=
  let merged := rest.foldl (mergeEnumPair given) first
  { merged with name := given.getD merged.name }

def isEmptyUnion : AvroType → Bool
  | .union [] => true
  | _ => false

/-- Merges types into one, and lists the dependencies that the result no longer holds. Empty
unions do not count. Records are merged with records and enumerations with enumerations, under
their concatenated names unless a name is given; anything else becomes a union. -/
def merge (given : Option String) (types : List AvroType) : AvroType × List String :=
  match types.filter (!·.isEmptyUnion) with
  | [] => (.union [], [])
  | [t] => (t, [])
  | types =>
    if types.all isRecord then
      match records types with
      | [] => (.union [], [])
      | first :: rest =>
        (.record (mergeRecords given (branchesDepth types) first rest),
          (records types).flatMap Record.dependencies)
    else if types.all isEnum then
      match enums types with
      | [] => (.union [], [])
      | first :: rest => (.enum (mergeEnums given first rest), [])
    else (unionOf (clearBranches types), branchDependencies types)

end AvroDerive.AvroType
