import AvroDerive.Path
import AvroDerive.Url.Parser

/-! # File URLs

A file URL stands for a file path; the components of the path are escaped in it.
-/

namespace AvroDerive.Url

/-- The file URL of a path from the root, given by its components. -/
def ofComponents (components : List String) : Url :=
  let encoded := components.map fun c =>
    '/' :: Text.percentEncode inComponentSet c.toList
  { scheme := "file", authority := some {},
    path := if encoded.isEmpty then "/" else String.ofList encoded.flatten }

/-- A path that ends in a drive letter ends in a slash. -/
def closeDrive (path : List UInt8) : List UInt8 :=
  let isLetter (b : UInt8) : Bool := (Char.ofNat b.toNat).isAlpha
  match path.reverse with
  | b :: a :: _ :: _ => if isLetter a && (b = 0x3A || b = 0x7C) then path ++ [0x2F] else path
  | _ => path

/-- The path of a URL without host, its escapes decoded: any bytes. -/
def toPath? (u : Url) : Option (List UInt8) :=
  if u.isPathless || (u.authority.bind Authority.host).any (· ≠ .domain "localhost") then none
  else some (closeDrive (Text.percentBytes u.path.toList))

end AvroDerive.Url
