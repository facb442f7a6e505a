import AvroDerive.Text.Digits
import AvroDerive.Text.Utf8

/-! # Percent escapes

A byte is written as `%` and two hexadecimal digits. A `%` that two digits do not follow stands for
itself.
-/

namespace AvroDerive.Text

def escapeByte (b : UInt8) : List Char :=
  ['%', hexDigit (b.toNat / 16), hexDigit (b.toNat % 16)]

/-- The bytes that a text with escapes stands for. -/
def percentBytes : List Char → List UInt8
  | [] => []
  | '%' :: h :: l :: rest =>
    match hexValue? h, hexValue? l with
    | some x, some y => UInt8.ofNat (16 * x + y) :: percentBytes rest
    | _, _ => utf8Bytes '%' ++ percentBytes (h :: l :: rest)
  | c :: rest => utf8Bytes c ++ percentBytes rest

def percentDecode (cs : List Char) : List Char := decodeLossy (percentBytes cs)

/-- Writes each byte of the characters in the set, and of all characters beyond ASCII, as an
escape. -/
def percentEncode (inSet : Char → Bool) (cs : List Char) : List Char :=
  cs.flatMap fun c =>
    if inSet c || 0x7F ≤ c.toNat || c.toNat < 0x20 then (utf8Bytes c).flatMap escapeByte else [c]

end AvroDerive.Text
