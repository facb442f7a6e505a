import AvroDerive.Text.Digits
import AvroDerive.Text.Split

/-! # Tables of characters

A property of characters is a list of runs: neighbouring code points that share a value, from zero
on. In a table's text the runs are words, each with its length.
-/

namespace AvroDerive.Text

abbrev Runs (α : Type) := List (Nat × α)

namespace Runs

/-- The value of a code point, and how many code points of its run stand before it. -/
def find? {α : Type} : Runs α → Nat → Option (α × Nat)
  | [], _ => none
  | (length, value) :: rest, n => if n < length then some (value, n) else find? rest (n - length)

def get? {α : Type} (runs : Runs α) (c : Char) : Option α := (runs.find? c.toNat).map Prod.fst

/-- How many code points the runs cover. -/
def size {α : Type} : Runs α → Nat
  | [] => 0
  | (length, _) :: rest => length + size rest

/-- Exactly the code points that the runs cover have a value. -/
theorem find?_isSome_iff {α : Type} (runs : Runs α) (n : Nat) :
    (runs.find? n).isSome ↔ n < runs.size := by
  induction runs generalizing n with
  | nil => simp [find?, size]
  | cons run rest ih =>
    obtain ⟨length, value⟩ := run
    simp only [find?, size]
    split
    · simp only [Option.isSome_some, true_iff]
      omega
    · rw [ih]
      omega

def decimal (cs : List Char) : Nat := (digitsValue? 10 cs).getD 0

def codePoint (cs : List Char) : Nat := (digitsValue? 16 cs).getD 0

/-- The words of a table; blanks or line breaks stand between them. -/
def words (table : String) : List (List Char) :=
  (splitOn ' ' (replaceChar '\n' ' ' table).toList).filter (!·.isEmpty)

theorem mem_words {table : String} {word : List Char} (h : word ∈ words table) :
    word ≠ [] ∧ ' ' ∉ word := by
  obtain ⟨hmem, hne⟩ := List.mem_filter.1 h
  exact ⟨by simpa using hne, not_mem_of_mem_splitOn hmem⟩

/-- Runs outside and inside a set by turns. -/
def byTurns : Bool → List Nat → Runs Bool
  | _, [] => []
  | inside, length :: rest => (length, inside) :: byTurns (!inside) rest

/-- A set whose table gives the lengths of such runs, the first one outside. -/
def ofLengths (table : String) : Runs Bool := byTurns false ((words table).map decimal)

/-- A table whose words are a letter for the value and the length. -/
def ofLetters {α : Type} (value : Char → α) (table : String) : Runs α :=
  (words table).filterMap fun
    | letter :: length => some (decimal length, value letter)
    | [] => none

end Runs

end AvroDerive.Text
