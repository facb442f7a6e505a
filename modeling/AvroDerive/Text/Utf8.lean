/-! # Bytes and text

Decoding never fails: every longest beginning of a character that the bytes do not complete is a
broken piece, for which a text has one replacement character.
-/

namespace AvroDerive.Text

def replacement : Char := '\uFFFD'

def utf8Bytes (c : Char) : List UInt8 := (String.singleton c).toUTF8.toList

/-- A character of several bytes, after some of them. -/
structure Begun where
  bytes : List UInt8
  /-- The value of the bits that were read. -/
  value : Nat
  /-- How many bytes are to follow, and between which bounds the next one lies. -/
  owed : Nat
  low : UInt8 := 0x80
  high : UInt8 := 0xBF

/-- What a byte begins that is no character by itself. Characters are written as shortly as
possible, and surrogates are none. -/
def Begun.ofByte? (b : UInt8) : Option Begun :=
  if 0xC2 ≤ b && b ≤ 0xDF then some { bytes := [b], value := b.toNat % 32, owed := 1 }
  else if b = 0xE0 then some { bytes := [b], value := 0, owed := 2, low := 0xA0 }
  else if b = 0xED then some { bytes := [b], value := 13, owed := 2, high := 0x9F }
  else if 0xE1 ≤ b && b ≤ 0xEF then some { bytes := [b], value := b.toNat % 16, owed := 2 }
  else if b = 0xF0 then some { bytes := [b], value := 0, owed := 3, low := 0x90 }
  else if b = 0xF4 then some { bytes := [b], value := 4, owed := 3, high := 0x8F }
  else if 0xF1 ≤ b && b ≤ 0xF3 then some { bytes := [b], value := b.toNat % 8, owed := 3 }
  else none

/-- The next byte of a character. -/
def Begun.add? (s : Begun) (b : UInt8) : Option Begun :=
  if s.low ≤ b && b ≤ s.high then
    some { bytes := s.bytes ++ [b], value := 64 * s.value + b.toNat % 64, owed := s.owed - 1 }
  else none

/-- What bytes hold: characters, and bytes that belong to none. -/
inductive Piece where
  | char (c : Char)
  | broken (bytes : List UInt8)
  deriving DecidableEq, Repr

/-- Reads a byte between two characters. -/
def openByte (b : UInt8) : List Piece × Option Begun :=
  if b < 0x80 then ([.char (Char.ofNat b.toNat)], none)
  else
    match Begun.ofByte? b with
    | some s => ([], some s)
    | none => ([.broken [b]], none)

/-- Reads a byte, inside a character or between two. -/
def readByte (begun : Option Begun) (b : UInt8) : List Piece × Option Begun :=
  match begun with
  | none => openByte b
  | some s =>
    match s.add? b with
    | none =>
      let (pieces, begun) := openByte b
      (.broken s.bytes :: pieces, begun)
    | some s => if s.owed = 0 then ([.char (Char.ofNat s.value)], none) else ([], some s)

def piecesFrom : Option Begun → List UInt8 → List Piece
  | none, [] => []
  | some s, [] => [.broken s.bytes]
  | begun, b :: rest =>
    let (pieces, begun) := readByte begun b
    pieces ++ piecesFrom begun rest

def pieces (bytes : List UInt8) : List Piece := piecesFrom none bytes

theorem pieces_cons_of_ascii {b : UInt8} (h : b < 0x80) (rest : List UInt8) :
    pieces (b :: rest) = .char (Char.ofNat b.toNat) :: pieces rest := by
  simp [pieces, piecesFrom, readByte, openByte, h]

def Piece.text : Piece → Char
  | .char c => c
  | .broken _ => replacement

def decodeLossy (bytes : List UInt8) : List Char := (pieces bytes).map Piece.text

/-- Whether bytes are a text. -/
def isText (bytes : List UInt8) : Bool :=
  (pieces bytes).all fun
    | .char _ => true
    | .broken _ => false

end AvroDerive.Text
