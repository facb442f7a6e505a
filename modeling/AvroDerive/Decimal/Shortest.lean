import AvroDerive.Decimal.Binary

/-! # The shortest decimal of a binary64 value

Of the numerals with the fewest digits that lie in the interval of reals rounding to the value, the
nearest one. All arithmetic is exact.
-/

namespace AvroDerive.Decimal

/-- The value and the ends of its rounding interval over one denominator. An end belongs to the
interval iff the mantissa is even. -/
structure Interval where
  low : Nat
  value : Nat
  high : Nat
  denominator : Nat
  closed : Bool

def Interval.ofBinary (b : Binary) : Interval :=
  let below := if b.mantissa = twoTo 52 ∧ b.exponent ≠ -1074 then 1 else 2
  let up := (b.exponent - 2).toNat
  { low := (4 * b.mantissa - below) * twoTo up
    value := 4 * b.mantissa * twoTo up
    high := (4 * b.mantissa + 2) * twoTo up
    denominator := twoTo (2 - b.exponent).toNat
    closed := b.mantissa % 2 = 0 }

/-- Whether `n * 10 ^ g` rounds to the value. -/
def Interval.contains (i : Interval) (n : Nat) (g : Int) : Bool :=
  let point := n * tenTo g.toNat * i.denominator
  let grid := tenTo (-g).toNat
  if i.closed then i.low * grid ≤ point && point ≤ i.high * grid
  else i.low * grid < point && point < i.high * grid

/-- The count of whole multiples of `10 ^ g` below the value, and twice the remainder compared
with the step. -/
def Interval.floorAt (i : Interval) (g : Int) : Nat × Ordering :=
  let above := i.value * tenTo (-g).toNat
  let step := i.denominator * tenTo g.toNat
  (above / step, compare (2 * (above % step)) step)

/-- The nearest point of the grid of step `10 ^ g` that rounds to the value; a tie goes to the
even one. -/
def Interval.nearest? (i : Interval) (g : Int) : Option Nat :=
  let (n, half) := i.floorAt g
  match i.contains n g, i.contains (n + 1) g with
  | true, false => some n
  | false, true => some (n + 1)
  | false, false => none
  | true, true =>
    match half with
    | .lt => some n
    | .gt => some (n + 1)
    | .eq => some (if n % 2 = 0 then n else n + 1)

/-- The least `k ≤ fuel` with `den ≤ num * 10 ^ k`. -/
def leadingZeros (num den : Nat) : Nat → Nat
  | 0 => 0
  | fuel + 1 => if den ≤ num then 0 else leadingZeros (10 * num) den fuel + 1

/-- The place of the first digit: the largest `x` with `10 ^ x` not above the value. -/
def Interval.place (i : Interval) : Int :=
  if i.denominator ≤ i.value then (Nat.toDigits 10 (i.value / i.denominator)).length - 1
  else -(leadingZeros i.value i.denominator 400 : Int)

/-- Removes trailing zeros. -/
def trimZeros : List Char → List Char := fun digits =>
  (digits.reverse.dropWhile (· = '0')).reverse

/-- The significant digits of a positive value, without trailing zeros, and the place of the
first of them. -/
def shortest (b : Binary) : List Char × Int :=
  let i := Interval.ofBinary b
  let x := i.place
  let hit := (List.range 17).findSome? fun (n : Nat) =>
    let g := x - (n : Int)
    (i.nearest? g).map fun digits => (digits, g)
  let (n, g) := hit.getD ((i.floorAt (x - 16)).1, x - 16)
  let digits := Nat.toDigits 10 n
  (trimZeros digits, g + digits.length - 1)

end AvroDerive.Decimal
