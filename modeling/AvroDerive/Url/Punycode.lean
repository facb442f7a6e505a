/-! # Punycode

The ASCII form of a domain label. The ASCII characters come first; the others follow as differences
between code points in increasing order, each a number with digits of falling weight.
-/

namespace AvroDerive.Url.Punycode

def digit (n : Nat) : Char :=
  if n < 26 then Char.ofNat ('a'.toNat + n) else Char.ofNat ('0'.toNat + (n - 26))

/-- The largest digit that may end a number at this place. -/
def threshold (bias place : Nat) : Nat := min 26 (max 1 (place - bias))

/-- The digits of a difference. -/
def digits (bias : Nat) : Nat → Nat → Nat → List Char
  | 0, _, _ => []
  | fuel + 1, place, n =>
    let t := threshold bias place
    if n < t then [digit n]
    else digit (t + (n - t) % (36 - t)) :: digits bias fuel (place + 36) ((n - t) / (36 - t))

def reduce : Nat → Nat → Nat → Nat × Nat
  | 0, delta, k => (delta, k)
  | fuel + 1, delta, k => if 455 < delta then reduce fuel (delta / 35) (k + 36) else (delta, k)

/-- The bias after a difference, so that differences of like size take few digits. -/
def adapt (delta points : Nat) (first : Bool) : Nat :=
  let delta := if first then delta / 700 else delta / 2
  let (delta, k) := reduce 64 (delta + delta / points) 0
  k + 36 * delta / (delta + 38)

structure State where
  written : List Char
  /-- How many characters are written already. -/
  count : Nat
  delta : Nat
  bias : Nat

/-- Passes a character of the label while the code point is inserted. -/
def visit (ascii point : Nat) (s : State) (c : Char) : State :=
  if c.toNat < point then { s with delta := s.delta + 1 }
  else if c.toNat = point then
    { written := s.written ++ digits s.bias 64 36 s.delta
      count := s.count + 1
      delta := 0
      bias := adapt s.delta (s.count + 1) (s.count == ascii) }
  else s

def insertPoints (label : List Char) (ascii : Nat) : List Nat → Nat → State → State
  | [], _, s => s
  | point :: points, next, s =>
    let s := { s with delta := s.delta + (point - next) * (s.count + 1) }
    let s := label.foldl (visit ascii point) s
    insertPoints label ascii points (point + 1) { s with delta := s.delta + 1 }

def encode (label : List Char) : List Char :=
  let ascii := label.filter (·.toNat < 0x80)
  let points := ((label.filter (0x80 ≤ ·.toNat)).map Char.toNat).mergeSort.eraseDups
  let s := insertPoints label ascii.length points 0x80 ⟨[], ascii.length, 0, 72⟩
  (if ascii.isEmpty then [] else ascii ++ ['-']) ++ s.written

def digitValue? (c : Char) : Option Nat :=
  if 'a' ≤ c && c ≤ 'z' then some (c.toNat - 'a'.toNat)
  else if '0' ≤ c && c ≤ '9' then some (c.toNat - '0'.toNat + 26)
  else none

/-- The numbers of a code stay below this one. -/
def limit : Nat := 0x100000000

/-- Adds the difference that digits begin with to a number; the digits behind it are left. -/
def readDigits (bias : Nat) : Nat → Nat → Nat → List Char → Option (Nat × List Char)
  | _, _, _, [] => none
  | place, weight, sum, c :: rest =>
    match digitValue? c with
    | none => none
    | some d =>
      let t := threshold bias place
      if limit ≤ sum + d * weight then none
      else if d < t then some (sum + d * weight, rest)
      else if limit ≤ weight * (36 - t) then none
      else readDigits bias (place + 36) (weight * (36 - t)) (sum + d * weight) rest

/-- A difference takes at least one digit. -/
theorem length_lt_of_readDigits {bias place weight sum : Nat} {cs : List Char}
    {r : Nat × List Char} (h : readDigits bias place weight sum cs = some r) :
    r.2.length < cs.length := by
  induction cs generalizing place weight sum with
  | nil => simp [readDigits] at h
  | cons c rest ih =>
    simp only [readDigits] at h
    split at h
    · exact absurd h (by simp)
    · split at h
      · exact absurd h (by simp)
      · split at h
        · obtain rfl := Option.some.inj h
          simp
        · split at h
          · exact absurd h (by simp)
          · have := ih h
            simp only [List.length_cons]
            omega

/-- Inserts the characters that the differences stand for: code points in increasing order, each at
its place in what is decoded so far. -/
def insertCoded (bias point place : Nat) (decoded digits : List Char) : Option (List Char) :=
  match digits with
  | [] => some decoded
  | c :: cs =>
    match h : readDigits bias 36 1 place (c :: cs) with
    | none => none
    | some (sum, rest) =>
      let count := decoded.length + 1
      let point := point + sum / count
      let place' := sum % count
      if point < 0xD800 ∨ (0xDFFF < point ∧ point < 0x110000) then
        insertCoded (adapt (sum - place) count (place == 0)) point (place' + 1)
          (decoded.insertIdx place' (Char.ofNat point)) rest
      else none
  termination_by digits.length
  decreasing_by simpa using length_lt_of_readDigits h

/-- The label that a code stands for; what is before the last hyphen of the code is kept. -/
def decode? (code : List Char) : Option (List Char) :=
  let digits := (code.reverse.takeWhile (· ≠ '-')).reverse
  let kept := code.length - digits.length
  if kept = 1 then none else insertCoded 72 0x80 0 (code.take (kept - 1)) digits

end AvroDerive.Url.Punycode
