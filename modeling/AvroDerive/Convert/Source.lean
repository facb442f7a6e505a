import AvroDerive.Convert.Failure
import AvroDerive.Url.File

/-! # Sources of documents

A source gives the texts of documents. It gives the same answer whenever it is asked.
-/

namespace AvroDerive

abbrev Source := Url → Except FetchError String

namespace Source

/-- Texts kept under their URLs; the fragment of a URL does not count. -/
def ofTexts (texts : List (String × String)) : Source := fun url =>
  let key := url.withoutFragment.text
  match texts.lookup key with
  | some text => .ok text
  | none => .error (.notFound key)

/-- Files behind `file` URLs, which the given function reads. Other schemes have no content. -/
def ofReader (read : List UInt8 → Except FileSystem.Error String) : Source := fun url =>
  if url.scheme = "file" then
    match url.toPath? with
    | some path => (read path).mapError (.file path)
    | none => .error (.invalidFileUrl url.text)
  else if url.scheme = "http" ∨ url.scheme = "https" then
    .error (.http url.text "no connection")
  else .error (.unsupportedScheme url.scheme)

/-- The files of a file system. -/
def ofFiles (fs : FileSystem) : Source := ofReader fun path => fs.read (.ofBytes path)

end Source

end AvroDerive
