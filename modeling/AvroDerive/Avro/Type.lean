/-! # Avro types

Records, enumerations and fixed types are named; a named type is used either through its definition
or through a reference to its qualified name. A record also keeps the qualified names that its
fields depend on, which are no part of its written form.
-/

namespace AvroDerive

structure Field (α : Type) where
  name : String
  type : α
  doc : Option String := none
  deriving DecidableEq, Repr

structure Record (α : Type) where
  name : String
  ns : Option String
  doc : Option String := none
  fields : List (Field α) := []
  dependencies : List String := []
  deriving DecidableEq, Repr

structure Enumeration where
  name : String
  ns : Option String
  doc : Option String := none
  symbols : List String
  deriving DecidableEq, Repr

structure Fixed where
  name : String
  ns : Option String
  size : Nat
  logicalType : Option String := none
  deriving DecidableEq, Repr

inductive AvroType where
  | primitive (name : String)
  | reference (name : String)
  | logical (base logicalType : String)
  | fixed (f : Fixed)
  | record (r : Record AvroType)
  | enum (e : Enumeration)
  | array (items : AvroType)
  | map (values : AvroType)
  | union (branches : List AvroType)

instance : Inhabited AvroType := ⟨.union []⟩

/-- The full name of a type: its namespace, unless that is absent or empty, a dot and its name. -/
def qualify (ns : Option String) (name : String) : String :=
  match ns with
  | some ns => if ns = "" then name else ns ++ "." ++ name
  | none => name

namespace Record

variable {α : Type}

/-- A record without fields; the empty namespace counts as none. -/
def empty (name ns : String) : Record α :=
  { name, ns := if ns = "" then none else some ns }

def field? (r : Record α) (name : String) : Option (Field α) :=
  r.fields.find? (·.name = name)

def pushField (r : Record α) (name : String) (type : α) : Record α :=
  { r with fields := r.fields ++ [{ name, type }] }

end Record

namespace AvroType

def null : AvroType := .primitive "null"

def isNull (t : AvroType) : Bool :=
  match t with
  | .primitive name => name == "null"
  | _ => false

/-- Whether `null` itself or a branch of the union is `null`. -/
def containsNull : AvroType → Bool
  | .union branches => branches.any isNull
  | t => t.isNull

def isNamed : AvroType → Bool
  | .record _ | .enum _ | .fixed _ => true
  | _ => false

def isRecord : AvroType → Bool
  | .record _ => true
  | _ => false

def isEnum : AvroType → Bool
  | .enum _ => true
  | _ => false

def name? : AvroType → Option String
  | .record r => some r.name
  | .enum e => some e.name
  | .fixed f => some f.name
  | _ => none

def ns? : AvroType → Option String
  | .record r => r.ns
  | .enum e => e.ns
  | .fixed f => f.ns
  | _ => none

def qualifiedName? (t : AvroType) : Option String := t.name?.map (qualify t.ns?)

/-- Renames a named type and leaves the others alone. -/
def withName (name : String) : AvroType → AvroType
  | .record r => .record { r with name }
  | .enum e => .enum { e with name }
  | .fixed f => .fixed { f with name }
  | t => t

def withNs (ns : String) : AvroType → AvroType
  | .record r => .record { r with ns := some ns }
  | .enum e => .enum { e with ns := some ns }
  | .fixed f => .fixed { f with ns := some ns }
  | t => t

/-- Documents a record or an enumeration that has no documentation yet. -/
def withDocIfMissing (doc : String) : AvroType → AvroType
  | .record r => .record { r with doc := r.doc.or (some doc) }
  | .enum e => .enum { e with doc := e.doc.or (some doc) }
  | t => t

/-- The dependencies of the outermost record. -/
def ownDependencies : AvroType → List String
  | .record r => r.dependencies
  | _ => []

mutual

/-- A union of empty types, a record without fields and an enumeration without symbols say
nothing. -/
def isEmpty : AvroType → Bool
  | .union branches => allEmpty branches
  | .record r => r.fields.isEmpty
  | .enum e => e.symbols.isEmpty
  | _ => false

def allEmpty : List AvroType → Bool
  | [] => true
  | t :: ts => t.isEmpty && allEmpty ts

end

mutual

/-- The dependency lists of the records at any depth, outer records first. -/
def dependencies : AvroType → List String
  | .record r => r.dependencies ++ fieldDependencies r.fields
  | .array items => items.dependencies
  | .map values => values.dependencies
  | .union branches => branchDependencies branches
  | _ => []

def fieldDependencies : List (Field AvroType) → List String
  | [] => []
  | f :: fs => f.type.dependencies ++ fieldDependencies fs

def branchDependencies : List AvroType → List String
  | [] => []
  | t :: ts => t.dependencies ++ branchDependencies ts

end

mutual

/-- The type with the dependency lists of its records emptied at every depth. -/
def clearDependencies : AvroType → AvroType
  | .record r => .record { r with fields := clearFields r.fields, dependencies := [] }
  | .array items => .array items.clearDependencies
  | .map values => .map values.clearDependencies
  | .union branches => .union (clearBranches branches)
  | t => t

def clearFields : List (Field AvroType) → List (Field AvroType)
  | [] => []
  | f :: fs => { f with type := f.type.clearDependencies } :: clearFields fs

def clearBranches : List AvroType → List AvroType
  | [] => []
  | t :: ts => t.clearDependencies :: clearBranches ts

end

mutual

/-- How deep containers and records are nested. A union is as deep as its deepest branch. -/
def depth : AvroType → Nat
  | .record r => fieldsDepth r.fields + 1
  | .array items => items.depth + 1
  | .map values => values.depth + 1
  | .union branches => branchesDepth branches
  | _ => 0

def fieldsDepth : List (Field AvroType) → Nat
  | [] => 0
  | f :: fs => max f.type.depth (fieldsDepth fs)

def branchesDepth : List AvroType → Nat
  | [] => 0
  | t :: ts => max t.depth (branchesDepth ts)

end

end AvroType

end AvroDerive
