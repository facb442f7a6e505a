import AvroDerive.Text.Split
import AvroDerive.Url.Basic
import AvroDerive.Url.Encode

/-! # The path of a URL

A hierarchical path is kept as text. Segments are added one by one: `.` stays in place, `..` leaves
the last segment, also where a dot is written as an escape. In a file path a drive letter at the
front is never left, and is written with a colon. A tab or a line break behind that colon counts: it
sets the drive letter off from the rest of its segment.
-/

namespace AvroDerive.Url.PathText

/-- How many dots a segment consists of, if it consists of dots. -/
def dots? : List Char → Option Nat
  | [] => some 0
  | '.' :: rest => (dots? rest).map (· + 1)
  | '%' :: '2' :: 'e' :: rest => (dots? rest).map (· + 1)
  | '%' :: '2' :: 'E' :: rest => (dots? rest).map (· + 1)
  | _ => none

def isDrive : List Char → Bool
  | [a, b] => a.isAlpha && (b = ':' || b = '|')
  | _ => false

def isNormalDrive : List Char → Bool
  | [a, b] => a.isAlpha && b = ':'
  | _ => false

/-- Whether a text begins with a drive letter that is a segment of its own. -/
def startsWithDrive : List Char → Bool
  | [a, b] => isDrive [a, b]
  | a :: b :: c :: _ => isDrive [a, b] && (c = '/' || c = '\\' || c = '?' || c = '#')
  | _ => false

/-- The text after the last slash, and the text up to it. -/
def splitLast (path : List Char) : List Char × List Char :=
  ((path.reverse.takeWhile (· ≠ '/')).reverse, (path.reverse.dropWhile (· ≠ '/')).reverse)

def endsInSlash (path : List Char) : Bool := path.getLast? = some '/'

/-- Removes what stands after the last slash. -/
def leave (file : Bool) (path : List Char) : List Char :=
  let (last, before) := splitLast path
  if file && isNormalDrive last then path else before

/-- Removes a last slash that is neither the root nor behind a drive letter. -/
def dropSlash (path : List Char) : List Char :=
  if endsInSlash path then
    let (last, before) := splitLast path.dropLast
    if before.isEmpty || startsWithDrive (last ++ ['/']) then path else path.dropLast
  else path

/-- What stands between two slashes, as it is written in a URL. -/
structure Segment where
  text : List Char
  /-- Whether a break follows a drive letter at the front of the segment. -/
  setsOff : Bool := false

/-- Whether a text begins with a drive letter, a break, and something else. -/
def breaksAfterDrive (cs : List Char) : Bool :=
  match cs.dropWhile isBreak with
  | a :: rest =>
    match rest.dropWhile isBreak with
    | ':' :: rest => a.isAlpha && rest.head?.any isBreak && rest.any (!isBreak ·)
    | _ => false
  | [] => false

def Segment.ofChars (cs : List Char) : Segment where
  text := Text.percentEncode inPathSet (dropBreaks cs)
  setsOff := breaksAfterDrive cs

/-- Whether a segment is a drive letter at the front of a file path. -/
def takesDrive (file : Bool) (path : List Char) (segment : Segment) : Bool :=
  file && path = ['/'] && isDrive segment.text

/-- The text that a segment adds to a path. -/
def added (file : Bool) (path : List Char) (segment : Segment) : List Char :=
  if takesDrive file path segment then segment.text.take 1 ++ [':']
  else if file && path = ['/'] && segment.setsOff then
    segment.text.take 2 ++ '/' :: segment.text.drop 2
  else segment.text

/-- Adds a segment, and the slash that follows it if there is one. -/
def addSegment (file slash : Bool) (path : List Char) (segment : Segment) : List Char :=
  match dots? segment.text with
  | some 1 => if endsInSlash path then path else path ++ ['/']
  | some 2 =>
    let path := leave file (dropSlash path)
    if slash && !endsInSlash path then path ++ ['/'] else path
  | _ => path ++ added file path segment ++ (if slash then ['/'] else [])

/-- Adds segments, and tells whether one of them was a drive letter at the front. -/
def addSegments (file : Bool) (path : List Char) : List Segment → List Char × Bool
  | [] => (path, false)
  | [segment] => (addSegment file false path segment, takesDrive file path segment)
  | segment :: rest =>
    let (longer, onDrive) := addSegments file (addSegment file true path segment) rest
    (longer, takesDrive file path segment || onDrive)

/-- Splits at slashes, in special URLs also at backslashes. -/
def segments (kind : Kind) (cs : List Char) : List (List Char) :=
  Text.splitOn '/' (if kind.isSpecial then cs.map fun c => if c = '\\' then '/' else c else cs)

/-- A slash sets a drive letter off from what is added to it. -/
def openDrive (path : List Char) : List Char :=
  match path with
  | ['/', a, ':'] => if a.isAlpha then path ++ ['/'] else path
  | _ => path

/-- A file path begins with one slash. -/
def collapse (path : List Char) : List Char := '/' :: path.dropWhile (· = '/')

/-- A path to which a text was added. -/
structure Extended where
  path : List Char
  /-- Whether the text put a drive letter at the front. -/
  onDrive : Bool
  /-- The query and the fragment, which are left. -/
  rest : List Char

/-- Adds the segments of a text to a path, up to a query or a fragment. -/
def extend (kind : Kind) (path cs : List Char) : Extended :=
  let isPath (c : Char) : Bool := c ≠ '?' && c ≠ '#'
  let added := (segments kind (cs.takeWhile isPath)).map Segment.ofChars
  let (path, onDrive) := addSegments (kind = .file) path added
  { path, onDrive, rest := dropBreaks (cs.dropWhile isPath) }

end AvroDerive.Url.PathText
