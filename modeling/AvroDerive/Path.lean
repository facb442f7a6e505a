import AvroDerive.Text.Split

/-! # File paths

Components are set apart by `/`. Empty ones and `.` say nothing; `..` is kept, since what it leads
to depends on the files.
-/

namespace AvroDerive.Path

/-- The components of a path, without its root. -/
def components (path : String) : List String :=
  (Text.split '/' path).filter fun c => c ≠ "" ∧ c ≠ "."

def isAbsolute (path : String) : Bool := path.toList.head? == some '/'

/-- The components of a path that is read in a working directory; the empty path has none. -/
def absolute? (workingDirectory path : String) : Option (List String) :=
  if path = "" then none
  else if isAbsolute path then some (components path)
  else some (components workingDirectory ++ components path)

/-- The last component, unless it is `..`. -/
def fileName? (path : String) : Option String :=
  (components path).getLast?.filter (· ≠ "..")

/-- The paths of the directories that a path stands in, the longest first; neither the root nor the
working directory is one of them. -/
def parents (path : String) : List String :=
  let components := components path
  let lengths := (List.range components.length).tail.reverse
  let root := if isAbsolute path then "/" else ""
  lengths.map fun n => root ++ "/".intercalate (components.take n)

/-- A relative path below a directory; an absolute one stands for itself. -/
def join (directory path : String) : String :=
  if isAbsolute path || directory = "" then path
  else if directory.toList.getLast? = some '/' then directory ++ path
  else directory ++ "/" ++ path

end AvroDerive.Path
