import AvroDerive.Text.Percent

/-! # What a URL escapes

Each part of a URL has characters of its own that are written as escapes, beside control characters
and those beyond ASCII.
-/

namespace AvroDerive.Url

def inFragmentSet (c : Char) : Bool := c ∈ [' ', '"', '<', '>', '\x60']

def inPathSet (c : Char) : Bool := inFragmentSet c || c ∈ ['#', '?', '\x7b', '\x7d']

def inUserInfoSet (c : Char) : Bool :=
  inPathSet c || c ∈ ['/', ':', ';', '=', '@', '[', '\\', ']', '^', '|']

def inQuerySet (c : Char) : Bool := c ∈ [' ', '"', '#', '<', '>']

def inSpecialQuerySet (c : Char) : Bool := inQuerySet c || c = '\''

/-- For the components of a file path, which may hold what separates them in a URL. -/
def inComponentSet (c : Char) : Bool := inPathSet c || c ∈ ['/', '%', '\\']

def encodeFragment (fragment : List Char) : List Char := Text.percentEncode inFragmentSet fragment

/-- Tabs and line breaks do not count in a URL. -/
def isBreak (c : Char) : Bool := c = '\t' || c = '\n' || c = '\r'

def dropBreaks (cs : List Char) : List Char := cs.filter (!isBreak ·)

/-- The beginning of a text with so many characters that count, and the breaks among them. -/
def takeCounted : Nat → List Char → List Char
  | 0, _ => []
  | _ + 1, [] => []
  | n + 1, c :: rest => if isBreak c then c :: takeCounted (n + 1) rest else c :: takeCounted n rest

/-- The end of a text, with the breaks that were left out of it. -/
def withBreaks (text ending : List Char) : List Char :=
  (takeCounted ending.length text.reverse).reverse

theorem dropBreaks_takeCounted (n : Nat) (cs : List Char) :
    dropBreaks (takeCounted n cs) = (dropBreaks cs).take n := by
  induction cs generalizing n with
  | nil => cases n <;> simp [takeCounted, dropBreaks]
  | cons c rest ih =>
    cases n with
    | zero => simp [takeCounted, dropBreaks]
    | succ n =>
      simp only [dropBreaks] at ih
      by_cases hc : isBreak c = true <;> simp [takeCounted, dropBreaks, hc, ih]

end AvroDerive.Url
