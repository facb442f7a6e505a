import AvroDerive.Text.Digits
import AvroDerive.Text.Utf8
import AvroDerive.Text.Visible

/-! # Quoted texts for messages

Texts in double quotes, in which quotes, backslashes, characters that cannot be seen, and bytes that
belong to no character are escaped.
-/

namespace AvroDerive.Text

def debugChar (c : Char) : List Char :=
  if c = '"' then ['\\', '"']
  else if c = '\\' then ['\\', '\\']
  else if c = '\t' then ['\\', 't']
  else if c = '\r' then ['\\', 'r']
  else if c = '\n' then ['\\', 'n']
  else if c = '\x00' then ['\\', '0']
  else if isVisible c then [c]
  else ['\\', 'u', '\x7b'] ++ Nat.toDigits 16 c.toNat ++ ['\x7d']

def debugByte (b : UInt8) : List Char :=
  ['\\', 'x', hexDigit (b.toNat / 16), hexDigit (b.toNat % 16)]

def Piece.debug : Piece → List Char
  | .char c => debugChar c
  | .broken bytes => bytes.flatMap debugByte

def quoted (inner : List Char) : String := String.ofList ('"' :: (inner ++ ['"']))

def debug (text : String) : String := quoted (text.toList.flatMap debugChar)

def debugBytes (bytes : List UInt8) : String := quoted ((pieces bytes).flatMap Piece.debug)

end AvroDerive.Text
