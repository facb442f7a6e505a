import AvroDerive.Path
import AvroDerive.Text.Utf8

/-! # Routes

What a path says to the file system: where to begin, and the steps to take. A path is a text, or
bytes that need not be one. Names of files are texts, so a name that is none leads to no file.
-/

namespace AvroDerive

/-- `.`, `..`, or a name, and how many bytes it has. -/
structure Step where
  name : String
  size : Nat
  deriving DecidableEq, Repr

namespace Step

def ofText (name : String) : Step := ⟨name, name.utf8ByteSize⟩

/-- A step that is no text gets a name that no file has. -/
def ofBytes (bytes : List UInt8) : Step where
  name := if Text.isText bytes then String.ofList (Text.decodeLossy bytes) else "/"
  size := bytes.length

/-- The step that stays in place. -/
def stay : Step := ⟨".", 1⟩

end Step

structure Route where
  size : Nat
  holdsNul : Bool
  isAbsolute : Bool
  steps : List Step
  /-- Whether the path ends in a slash, so that it asks for a directory. -/
  endsInSlash : Bool
  deriving DecidableEq, Repr

namespace Route

def ofText (path : String) : Route where
  size := path.utf8ByteSize
  holdsNul := path.toList.contains '\x00'
  isAbsolute := Path.isAbsolute path
  steps := ((Text.split '/' path).filter (· ≠ "")).map Step.ofText
  endsInSlash := path.toList.getLast? == some '/'

def ofBytes (path : List UInt8) : Route where
  size := path.length
  holdsNul := path.contains 0
  isAbsolute := path.head? == some 0x2F
  steps := ((Text.splitOn 0x2F path).filter (!·.isEmpty)).map Step.ofBytes
  endsInSlash := path.getLast? == some 0x2F

end Route

end AvroDerive
