import AvroDerive.Json.Basic
import AvroDerive.Text.Split

/-! # JSON Pointers

The empty pointer addresses the whole value; every other one starts with `/` and lists tokens, in
which `~1` stands for `/` and `~0` for `~`.
-/

namespace AvroDerive

namespace Pointer

/-- Replaces the character pairs `a b` by `c`, from left to right. -/
def replacePair (a b c : Char) : List Char → List Char
  | [] => []
  | [x] => [x]
  | x :: y :: rest =>
    if x = a ∧ y = b then c :: replacePair a b c rest
    else x :: replacePair a b c (y :: rest)

def unescapeChars (cs : List Char) : List Char :=
  replacePair '~' '0' '~' (replacePair '~' '1' '/' cs)

def escapeChar (c : Char) : List Char :=
  if c = '~' then ['~', '0'] else if c = '/' then ['~', '1'] else [c]

/-- The key that a token stands for. -/
def unescape (token : String) : String := String.ofList (unescapeChars token.toList)

/-- The token that stands for a key. -/
def escape (key : String) : String := String.ofList (key.toList.flatMap escapeChar)

theorem replacePair_escapeChar (c : Char) (rest : List Char) :
    replacePair '~' '1' '/' (escapeChar c ++ rest) =
      (if c = '~' then ['~', '0'] else [c]) ++ replacePair '~' '1' '/' rest := by
  by_cases h : c = '~'
  · subst h
    cases rest <;> simp [escapeChar, replacePair]
  · by_cases h' : c = '/'
    · subst h'; simp [escapeChar, replacePair]
    · cases rest <;> simp [escapeChar, replacePair, h, h']

theorem replacePair_tilde (c : Char) (rest : List Char) :
    replacePair '~' '0' '~' ((if c = '~' then ['~', '0'] else [c]) ++ rest) =
      c :: replacePair '~' '0' '~' rest := by
  by_cases h : c = '~'
  · subst h; simp [replacePair]
  · cases rest <;> simp [replacePair, h]

/-- Every key comes back from its token. -/
theorem unescape_escape (key : String) : unescape (escape key) = key := by
  have chars : ∀ cs : List Char, unescapeChars (cs.flatMap escapeChar) = cs := by
    intro cs
    induction cs with
    | nil => rfl
    | cons c cs ih =>
      simp only [unescapeChars, List.flatMap_cons] at *
      rw [replacePair_escapeChar, replacePair_tilde, ih]
  simp [unescape, escape, chars]

/-- The keys along a pointer, without what stands before its first `/`. -/
def keys (pointer : String) : List String :=
  ((Text.split '/' pointer).drop 1).map unescape

theorem slash_not_mem_escape (key : String) : '/' ∉ (escape key).toList := by
  simp only [escape, String.toList_ofList, List.mem_flatMap, escapeChar]
  grind

/-- A key that is appended to a pointer is the last of its keys. -/
theorem keys_append_escape (pointer key : String) :
    keys (pointer ++ "/" ++ escape key) = keys pointer ++ [key] := by
  have hs : "/".toList = ['/'] := rfl
  simp only [keys, Text.split, String.toList_append, hs, List.append_assoc, List.cons_append,
    List.nil_append, Text.splitOn_append, Text.splitOn_of_not_mem (slash_not_mem_escape key)]
  cases h : Text.splitOn '/' pointer.toList with
  | nil => exact absurd h (Text.splitOn_ne_nil _ _)
  | cons _ _ => simp [unescape_escape]

/-- Decimal digits without sign and without leading zeros. -/
def index? (token : String) : Option Nat :=
  let cs := token.toList
  if cs.isEmpty || !cs.all Char.isDigit || (cs.head? == some '0' && cs.length ≠ 1) then none
  else some (cs.foldl (fun n c => 10 * n + (c.toNat - '0'.toNat)) 0)

end Pointer

namespace Json

def child? (j : Json) (key : String) : Option Json :=
  match j with
  | .obj members => Object.get? members key
  | .arr items => (Pointer.index? key).bind fun i => items[i]?
  | _ => none

/-- The value that a path of keys leads to. -/
def descend? (j : Json) (keys : List String) : Option Json :=
  keys.foldlM child? j

theorem descend?_append (j : Json) (keys more : List String) :
    j.descend? (keys ++ more) = (j.descend? keys).bind (·.descend? more) := by
  simp [descend?, List.foldlM_append]

/-- The value that a pointer addresses. -/
def pointer? (j : Json) (pointer : String) : Option Json :=
  match pointer.toList with
  | [] => some j
  | c :: _ => if c = '/' then j.descend? (Pointer.keys pointer) else none

end Json

end AvroDerive
