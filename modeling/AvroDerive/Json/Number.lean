import AvroDerive.Json.Basic
import AvroDerive.Decimal.Shortest

/-! # The text of JSON numbers

Integers are plain decimals. A float is positional with a fraction from `1e-5` up to below `1e16`,
and has an exponent elsewhere.
-/

namespace AvroDerive

/-- Digits around the decimal point, with a fraction in every case. -/
def Decimal.positional (digits : List Char) (place : Int) : List Char :=
  if place < 0 then
    '0' :: '.' :: (List.replicate (-place - 1).toNat '0' ++ digits)
  else
    let whole := place.toNat + 1
    let fraction := digits.drop whole
    digits.take whole ++ List.replicate (whole - digits.length) '0' ++
      '.' :: (if fraction.isEmpty then ['0'] else fraction)

/-- One digit before the point and a signed exponent. -/
def Decimal.exponential (digits : List Char) (place : Int) : List Char :=
  let fraction := digits.drop 1
  digits.take 1 ++ (if fraction.isEmpty then [] else '.' :: fraction) ++
    'e' :: (if place < 0 then '-' else '+') :: Nat.toDigits 10 place.natAbs

namespace Number

def floatChars (bits : UInt64) : List Char :=
  let sign := if Decimal.isNegative bits then ['-'] else []
  if Decimal.isZero bits then sign ++ ['0', '.', '0']
  else
    let (digits, place) := Decimal.shortest (Decimal.Binary.ofBits bits)
    if -5 ≤ place ∧ place < 16 then sign ++ Decimal.positional digits place
    else sign ++ Decimal.exponential digits place

def text : Number → String
  | .int (.ofNat n) => String.ofList (Nat.toDigits 10 n)
  | .int (.negSucc n) => String.ofList ('-' :: Nat.toDigits 10 (n + 1))
  | .float bits => String.ofList (floatChars bits)

/-- Numbers are the same if they are the same integer or equal floats; the two zeros are equal. -/
def same : Number → Number → Bool
  | .int a, .int b => a == b
  | .float a, .float b => a == b || (Decimal.isZero a && Decimal.isZero b)
  | _, _ => false

/-- Reads digits into a significand as long as it stays below `2 ^ 64`; counts the digits read. -/
def significand (value taken : Nat) : List Char → Nat × Nat × List Char
  | [] => (value, taken, [])
  | c :: rest =>
    let next := 10 * value + (c.toNat - '0'.toNat)
    if c.isDigit && next < 0x10000000000000000 then significand next (taken + 1) rest
    else (value, taken, c :: rest)

def digitsValue (digits : List Char) : Nat :=
  digits.foldl (fun n c => 10 * n + (c.toNat - '0'.toNat)) 0

def ofParts? (negative : Bool) (value : Nat) (power : Int) : Option Number :=
  (Decimal.bits? negative value power).map .float

/-- The optional exponent of a float. -/
def exponent? (negative : Bool) (value : Nat) (power : Int) (cs : List Char) :
    Option (Number × List Char) :=
  match cs with
  | c :: rest =>
    if c = 'e' ∨ c = 'E' then
      let (down, body) := match rest with
        | '+' :: r => (false, r)
        | '-' :: r => (true, r)
        | r => (false, r)
      let digits := body.takeWhile Char.isDigit
      if digits.isEmpty then none
      else
        let shift : Int := digitsValue digits
        (ofParts? negative value (if down then power - shift else power + shift)).map
          (·, body.dropWhile Char.isDigit)
    else (ofParts? negative value power).map (·, cs)
  | [] => (ofParts? negative value power).map (·, [])

/-- An integer without fraction and exponent; `-0` and integers out of range are floats. -/
def whole? (negative : Bool) (value : Nat) : Option Number :=
  if !negative then some (.int value)
  else if 0 < value ∧ value ≤ 0x8000000000000000 then some (.int (-(value : Int)))
  else ofParts? true value 0

/-- What follows the digits before the point, of which `dropped` did not fit the significand. -/
def finish? (negative : Bool) (value dropped : Nat) (cs : List Char) :
    Option (Number × List Char) :=
  match cs with
  | '.' :: rest =>
    let (value, taken, rest₁) := significand value 0 rest
    let rest₂ := rest₁.dropWhile Char.isDigit
    if taken = 0 ∧ rest₂.length = rest₁.length then none
    else exponent? negative value ((dropped : Int) - taken) rest₂
  | c :: _ =>
    if c = 'e' ∨ c = 'E' ∨ 0 < dropped then exponent? negative value dropped cs
    else (whole? negative value).map (·, cs)
  | [] =>
    if 0 < dropped then exponent? negative value dropped []
    else (whole? negative value).map (·, [])

/-- Reads the longest number at the front; no leading zeros, no leading plus. -/
def read? (cs : List Char) : Option (Number × List Char) :=
  let (negative, body) := match cs with
    | '-' :: rest => (true, rest)
    | _ => (false, cs)
  match body with
  | [] => none
  | '0' :: rest => if rest.head?.any Char.isDigit then none else finish? negative 0 0 rest
  | c :: rest =>
    if c.isDigit then
      let (value, _, rest₁) := significand (c.toNat - '0'.toNat) 0 rest
      finish? negative value (rest₁.takeWhile Char.isDigit).length (rest₁.dropWhile Char.isDigit)
    else none

end Number

end AvroDerive
