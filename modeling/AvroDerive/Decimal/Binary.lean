/-! # Decimal numerals read as binary64

A numeral is first read as a whole significand below `2 ^ 64` and a power of ten; the value is the
significand, rounded once, times or divided by the power.
-/

namespace AvroDerive.Decimal

def twoTo (n : Nat) : Nat := Nat.pow 2 n

def tenTo (n : Nat) : Nat := Nat.pow 10 n

/-- The finite magnitude `mantissa * 2 ^ exponent`. -/
structure Binary where
  mantissa : Nat
  exponent : Int
  deriving DecidableEq, Repr

def isNegative (bits : UInt64) : Bool := 0x8000000000000000 ≤ bits

/-- The magnitude of the binary64 value with these bits. -/
def Binary.ofBits (bits : UInt64) : Binary :=
  let fraction : Nat := bits.toNat % twoTo 52
  let biased : Nat := bits.toNat / twoTo 52 % twoTo 11
  if biased = 0 then ⟨fraction, -1074⟩ else ⟨twoTo 52 + fraction, (biased : Int) - 1075⟩

/-- Whether the bits stand for zero of either sign. -/
def isZero (bits : UInt64) : Bool := bits.toNat % twoTo 63 = 0

def powerOfTen (n : Nat) : Float := Float.ofScientific 1 false n

/-- `value * 10 ^ power`, one step for each 308 of a negative power; `none` beyond the range of
binary64. -/
def scale? (value : Float) (power : Int) : Option Float :=
  if power.natAbs ≤ 308 then
    if 0 ≤ power then
      let scaled := value * powerOfTen power.natAbs
      if scaled.isInf then none else some scaled
    else some (value / powerOfTen power.natAbs)
  else if value == 0 then some value
  else if 0 ≤ power then none
  else scale? (value / powerOfTen 308) (power + 308)
termination_by power.natAbs

/-- The bits of `significand * 10 ^ power` with the given sign. -/
def bits? (negative : Bool) (significand : Nat) (power : Int) : Option UInt64 :=
  (scale? (UInt64.ofNat significand).toFloat power).map fun value =>
    (if negative then -value else value).toBits

end AvroDerive.Decimal
