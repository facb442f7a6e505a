import AvroDerive.Text.Composition
import AvroDerive.Text.Mark

/-! # Composed normal form

Texts that look the same become the same: characters are taken apart, marks put in the order of
their classes, and everything that can be composed is composed.
-/

namespace AvroDerive.Text

/-- Takes a character apart, in at most so many steps. -/
def takeApart : Nat → Char → List Char
  | 0, c => [c]
  | steps + 1, c =>
    match parts? c with
    | some (first, second) => takeApart steps first ++ [second]
    | none => [c]

/-- No composed character has more than four marks. -/
def decomposed (cs : List Char) : List Char := cs.flatMap (takeApart 4)

/-- Adds a character to a text read backwards; a mark passes those of higher classes. -/
def addInOrder (c : Char) : List Char → List Char
  | [] => [c]
  | d :: before =>
    if combiningClass c ≠ 0 ∧ combiningClass c < combiningClass d then d :: addInOrder c before
    else c :: d :: before

theorem addInOrder_perm (c : Char) (before : List Char) :
    (addInOrder c before).Perm (c :: before) := by
  induction before with
  | nil => exact List.Perm.refl _
  | cons d before ih =>
    simp only [addInOrder]
    split
    · exact (ih.cons d).trans (List.Perm.swap c d before)
    · exact List.Perm.refl _

def inOrder (cs : List Char) : List Char :=
  (cs.foldl (fun before c => addInOrder c before) []).reverse

/-- A text while it is composed, read backwards. -/
structure Composing where
  before : List Char := []
  /-- The last character of class zero, with which marks are composed. -/
  starter : Option Char := none
  /-- The marks after it that could not be composed. -/
  marks : List Char := []

namespace Composing

def all (s : Composing) : List Char := s.marks ++ s.starter.toList ++ s.before

/-- The character that the starter and a later one make, unless a mark stands between them that
keeps them apart. -/
def joined? (s : Composing) (c : Char) : Option Char := do
  let starter ← s.starter
  match s.marks with
  | [] => compose? starter c
  | mark :: _ => if combiningClass mark < combiningClass c then compose? starter c else none

def add (s : Composing) (c : Char) : Composing :=
  match s.joined? c with
  | some whole => { s with starter := some whole }
  | none =>
    if combiningClass c = 0 then { before := s.all, starter := some c }
    else { s with marks := c :: s.marks }

end Composing

def composed (cs : List Char) : List Char := (cs.foldl Composing.add {}).all.reverse

def normal (cs : List Char) : List Char := composed (inOrder (decomposed cs))

end AvroDerive.Text
