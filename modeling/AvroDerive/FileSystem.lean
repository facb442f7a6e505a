import AvroDerive.Route

/-! # Files and directories

A tree of files and directories, as far as a run looks at it, with the answers and the refusals of
the usual calls. A path leads from step to step, `.` and `..` included, so what a step starts from
must be a directory.
-/

namespace AvroDerive

namespace FileSystem

inductive Entry where
  | file (text : String)
  | directory
  deriving DecidableEq, Repr

inductive Error where
  | missing
  | present
  | notDirectory
  | isDirectory
  /-- The path, or a name on it. -/
  | nameTooLong
  | notText
  | other (text : String)
  deriving DecidableEq, Repr

def Error.message : Error → String
  | .missing => "No such file or directory (os error 2)"
  | .present => "File exists (os error 17)"
  | .notDirectory => "Not a directory (os error 20)"
  | .isDirectory => "Is a directory (os error 21)"
  | .nameTooLong => "File name too long (os error 36)"
  | .notText => "stream did not contain valid UTF-8"
  | .other text => text

end FileSystem

/-- The entries below the root, each under the components of its path. -/
structure FileSystem where
  entries : List (List String × FileSystem.Entry) := []
  workingDirectory : List String := []
  deriving DecidableEq, Repr

namespace FileSystem

/-- The entry at a place; the root is a directory. -/
def entry? (fs : FileSystem) (place : List String) : Option Entry :=
  if place.isEmpty then some .directory else fs.entries.lookup place

/-- An entry that is there already is replaced. -/
def put (fs : FileSystem) (place : List String) (entry : Entry) : FileSystem :=
  if (fs.entries.lookup place).isSome then
    { fs with entries := fs.entries.map fun e => if e.1 = place then (place, entry) else e }
  else { fs with entries := fs.entries ++ [(place, entry)] }

/-- How many bytes a path may have. -/
def pathLimit : Nat := 4095

/-- How many bytes a name may have. -/
def nameLimit : Nat := 255

/-- Walks from a directory to a place that need not exist itself. -/
def walk (fs : FileSystem) : List String → List Step → Except Error (List String)
  | here, [] => .ok here
  | here, step :: rest =>
    match fs.entry? here with
    | some .directory =>
      if step.name = "." then walk fs here rest
      else if step.name = ".." then walk fs here.dropLast rest
      else if nameLimit < step.size then .error .nameTooLong
      else walk fs (here ++ [step.name]) rest
    | some (.file _) => .error .notDirectory
    | none => .error .missing

/-- Where steps lead from the beginning of a route. -/
def place (fs : FileSystem) (route : Route) (steps : List Step) : Except Error (List String) :=
  if route.holdsNul then .error (.other "file name contained an unexpected NUL byte")
  else if route.size = 0 then .error .missing
  else if pathLimit < route.size then .error .nameTooLong
  else walk fs (if route.isAbsolute then [] else fs.workingDirectory) steps

/-- Reads a file. -/
def read (fs : FileSystem) (route : Route) : Except Error String := do
  let place ← fs.place route
    (if route.endsInSlash then route.steps ++ [.stay] else route.steps)
  match fs.entry? place with
  | some (.file text) => return text
  | some .directory => throw .isDirectory
  | none => throw .missing

/-- Writes a file; its directory must be there. No file is written where a path asks for a
directory, whatever the name before the slash. -/
def write (fs : FileSystem) (path text : String) : Except Error FileSystem := do
  let route := Route.ofText path
  let place ← fs.place route
    (if route.endsInSlash then route.steps.dropLast ++ [.stay] else route.steps)
  match fs.entry? place with
  | some .directory => throw .isDirectory
  | _ => return fs.put place (.file text)

/-- Makes a directory, unless it is there; the one it stands in must be there. -/
def makeOne (fs : FileSystem) (path : String) : FileSystem × Option Error :=
  let route := Route.ofText path
  match fs.place route route.steps with
  | .error e => (fs, some e)
  | .ok place =>
    match fs.entry? place with
    | some .directory => (fs, none)
    | some (.file _) => (fs, some .present)
    | none => (fs.put place .directory, none)

/-- Makes the first of the paths. If something on its way is missing, the others are made before. -/
def makeAfter (fs : FileSystem) : List String → FileSystem × Option Error
  | [] => (fs, none)
  | path :: shorter =>
    match fs.makeOne path with
    | (_, some .missing) =>
      match makeAfter fs shorter with
      | (fs, none) => fs.makeOne path
      | refused => refused
    | result => result

/-- Makes a directory and those it stands in, unless they are there. -/
def makeDirectory (fs : FileSystem) (path : String) : FileSystem × Option Error :=
  if path = "" then (fs, none) else fs.makeAfter (path :: Path.parents path)

end FileSystem

end AvroDerive
