import AvroDerive.Text.Normal
import AvroDerive.Url.Domain.Direction
import AvroDerive.Url.Domain.Joining
import AvroDerive.Url.Domain.Mapping
import AvroDerive.Url.Punycode

/-! # Labels and domain names

A domain name consists of labels between dots. A label beyond ASCII is written in its ASCII form,
and a label that is already in that form must stand for a label that may be written so.
-/

namespace AvroDerive.Url.Domain

/-- What a label reads, and how it is written. -/
structure Label where
  text : List Char
  ascii : List Char
  deriving DecidableEq, Repr

def isAscii (cs : List Char) : Bool := cs.all (·.toNat < 0x80)

/-- The characters of a URL that no host holds. -/
def isForbiddenInHost (c : Char) : Bool :=
  c ∈ ['\x00', '\t', '\n', '\r', ' ', '#', '/', ':', '<', '>', '?', '@', '[', '\\', ']', '^', '|']

def isForbidden (c : Char) : Bool :=
  isForbiddenInHost c || c.toNat < 0x20 || c = '%' || c = '\x7f'

/-- The longest label beyond ASCII that is encoded, and the longest encoded one that is decoded. -/
def encodeLimit : Nat := 1000

def decodeLimit : Nat := 2000

/-- Whether a label may stand in a domain name, its directions aside. -/
def isLabel (text : List Char) : Bool :=
  !text.any isForbidden && !(text.head?.any Text.isMark) && joinersFit [] text &&
    (isAscii text || text.length ≤ encodeLimit)

/-- What follows the sign of an encoded label. -/
def encoded? : List Char → Option (List Char)
  | 'x' :: 'n' :: '-' :: '-' :: rest => some rest
  | _ => none

/-- The label that an encoded one stands for. It must be the text that it would be mapped to. -/
def decode? (code : List Char) : Option (List Char) := do
  if decodeLimit < code.length ∨ code.getLast?.getD '-' = '-' then none
  let text ← Punycode.decode? code
  let mapped ← mapText text
  if Text.normal mapped = text ∧ isLabel text ∧ '.' ∉ text then some text else none

def Label.write (text : List Char) : Label :=
  { text, ascii := if isAscii text then text else "xn--".toList ++ Punycode.encode text }

/-- A label of ASCII characters, which is written in lower case. -/
def asciiLabel? (cs : List Char) : Option Label :=
  let lower := cs.map Char.toLower
  match encoded? lower with
  | some code => (decode? code).map fun text => { text, ascii := lower }
  | none => if lower.any isForbidden then none else some { text := lower, ascii := lower }

/-- A label whose characters are mapped already. -/
def mappedLabel? (text : List Char) : Option Label :=
  match encoded? text with
  | some code => if isAscii code then (decode? code).map Label.write else none
  | none => if isLabel text then some (.write text) else none

/-- The labels that stand between two dots; a character that is mapped to a dot divides them. -/
def labels? (cs : List Char) : Option (List Label) :=
  if isAscii cs then (asciiLabel? cs).map ([·])
  else do
    let mapped ← mapText cs
    (Text.splitOn '.' (Text.normal mapped)).mapM mappedLabel?

/-- The ASCII form of a domain name; `none` if it is no domain name. -/
def toAscii? (domain : List Char) : Option (List Char) := do
  let labels := (← (Text.splitOn '.' domain).mapM labels?).flatten
  if labels.any (·.text.any isLeftward) && !labels.all (keepsDirection ·.text) then none
  return Text.joinChars '.' (labels.map Label.ascii)

end AvroDerive.Url.Domain
