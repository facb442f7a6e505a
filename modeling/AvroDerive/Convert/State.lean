import AvroDerive.Avro.Registry
import AvroDerive.Convert.Scope
import AvroDerive.Convert.Source
import AvroDerive.Warning

/-! # The state of a conversion

A failure keeps the state as it is at that point. A computation that builds a type also gathers the
names that the type depends on.
-/

namespace AvroDerive

structure Options where
  /-- Replaces the namespace that the document gives. -/
  ns : Option String := none
  rootName : String := "document"
  splitRecords : Bool := false
  /-- Nodes nested deeper get the generic type. -/
  maxDepth : Nat := 64
  deriving DecidableEq, Repr

/-- What stays the same during a conversion. -/
structure Setting where
  rootNs : String
  options : Options := {}
  source : Source
  workingDirectory : String := "/"

/-- What a reference stands for. -/
inductive Imported where
  /-- The name of a registered type, or of one that is on its way there. -/
  | named (name : String)
  /-- A type that is used as it is. -/
  | inline (t : AvroType)

/-- What the references met so far stand for, each under its absolute form. The newest entry of a
reference counts; it has no content if the reference was given up. -/
abbrev Imports := List (String × Option Imported)

namespace Imports

def get? (c : Imports) (key : String) : Option Imported := (c.lookup key).join

def erase (c : Imports) (key : String) : Imports := (key, none) :: c

def insert (c : Imports) (key : String) (i : Imported) : Imports := (key, some i) :: c

theorem get?_erase (c : Imports) (k key : String) :
    get? (erase c k) key = if key = k then none else get? c key := by
  simp only [get?, erase, List.lookup_cons]
  grind

theorem get?_insert (c : Imports) (k key : String) (i : Imported) :
    get? (insert c k i) key = if key = k then some i else get? c key := by
  simp only [get?, insert, List.lookup_cons]
  grind

end Imports

/-- A record under construction. -/
structure Frame where
  name : String
  ns : String
  deriving DecidableEq, Repr

def Frame.qualifiedName (f : Frame) : String := qualify (some f.ns) f.name

/-- The records under construction, innermost first. -/
abbrev Frames := List Frame

/-- The innermost record of a name. -/
def Frames.find? (frames : Frames) (name : String) : Option Frame :=
  List.find? (·.name = name) frames

structure State where
  imports : Imports := []
  registry : Registry := []
  frames : Frames := []
  /-- The documents fetched so far, under their URLs without fragment. -/
  documents : List (String × Json) := []
  warnings : List Warning := []

/-- A computation that may fail; the state survives a failure. -/
abbrev Run (α : Type) := ExceptT Failure (StateM State) α

/-- A computation that gathers the names its result depends on. -/
abbrev Build (α : Type) := StateT (List String) Run α

namespace Run

def fail {α : Type} (f : Failure) : Run α := throw f

def warn (w : Warning) : Run Unit := modify fun s => { s with warnings := s.warnings ++ [w] }

def warnAll (ws : List Warning) : Run Unit :=
  modify fun s => { s with warnings := s.warnings ++ ws }

def imported? (key : String) : Run (Option Imported) := do
  return Imports.get? (← get).imports key

def remember (key : String) (i : Imported) : Run Unit :=
  modify fun s => { s with imports := Imports.insert s.imports key i }

def forget (key : String) : Run Unit :=
  modify fun s => { s with imports := Imports.erase s.imports key }

def register (t : AvroType) (dependencies : List String) : Run String := do
  let (name, registry) := Registry.register (← get).registry t dependencies
  modify fun s => { s with registry }
  return name

/-- Runs a computation while a record is under construction, which ends also if it fails. -/
def within {α : Type} (f : Frame) (x : Run α) : Run α := fun s =>
  let (result, after) := x { s with frames := f :: s.frames }
  (result, { after with frames := after.frames.tail })

end Run

namespace Build

def depend (name : String) : Build Unit := modify fun names => addNew names name

def dependAll (more : List String) : Build Unit := modify fun names => addAll names more

/-- Takes over the names of a record, also those that are there already. -/
def lift (more : List String) : Build Unit := modify fun names => names ++ more

/-- Runs a computation with a list of its own, and returns that list too. -/
def apart {α : Type} (x : Build α) : Run (α × List String) := x.run []

end Build

/-- Converts a node at a scope; nodes that say nothing have no type. -/
abbrev NodeConverter := Json → Scope → Build (Option AvroType)

end AvroDerive
