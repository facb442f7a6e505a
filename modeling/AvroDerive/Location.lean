import AvroDerive.Url.File

/-! # Locations of documents

A document is at a URL, or at a file path that stands for one. Either may carry a fragment.
-/

namespace AvroDerive.Location

/-- The absolute URL of a location. A scheme of one letter is no scheme; what is no URL is a path
in the working directory, with a fragment after the first `#`. -/
def baseUri (workingDirectory location : String) : String :=
  let asPath : String :=
    let (path, fragment) := Text.cut '#' location.toList
    match Path.absolute? workingDirectory (String.ofList path) with
    | some components =>
      ((Url.ofComponents components).setFragment (fragment.map String.ofList)).text
    | none => location
  match Url.parse location with
  | .ok url => if 1 < url.scheme.length then url.text else asPath
  | .error _ => asPath

/-- A reference made absolute against the URL of the document it stands in, if there is one. -/
def resolve (base reference : String) : String :=
  match (Url.parse base).bind fun url => url.resolve reference with
  | .ok url => url.text
  | .error _ => reference

/-- The name of the file at a location up to its first dot. -/
def fileStem? (location : String) : Option String :=
  let path := match Url.parse location with
    | .ok url => url.path
    | .error _ => location
  ((Path.fileName? path).map (Text.before '.')).filter (· ≠ "")

end AvroDerive.Location
