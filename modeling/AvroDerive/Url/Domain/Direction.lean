import AvroDerive.Text.Runs

/-! # Directions of writing

A domain name that has characters written from right to left must not mix directions inside a
label, so that it is shown the way it is read.
-/

namespace AvroDerive.Url.Domain

inductive Direction where
  /-- Letters written from left to right. -/
  | left
  /-- Letters written from right to left. -/
  | right
  /-- Digits as they are written in texts from left to right. -/
  | european
  /-- Digits as they are written in texts from right to left. -/
  | arabic
  /-- Marks, which take the direction of the character before them. -/
  | mark
  | neutral
  deriving DecidableEq, Repr

def Direction.ofLetter : Char → Direction
  | 'L' => .left
  | 'R' => .right
  | 'E' => .european
  | 'A' => .arabic
  | 'M' => .mark
  | _ => .neutral

/-- The directions of the characters that a domain name may hold. -/
def directionTable : String :=
  "N48 E10 N39 L26 N100 L24 N1 L449 N2 L7 N14 L2 N28 L1 N17 M113 L4 N2 L127 N2 L139 M8 L255 N7
   M45 R1 M1 R1 M2 R1 M2 R1 M9 R54 N2 R1 N2 R1 N1 R1 N2 M11 R48 M21 A10 N1 A2 R3 M1 R101 M8 N1
   M6 R2 M2 N1 M4 R2 E10 R23 M1 R30 M29 R89 M11 R58 M9 R2 N4 R3 M1 R24 M4 R1 M9 R1 M3 R1 M7 R41
   M5 R57 M9 R42 M57 L55 M1 L1 M1 L4 M8 L4 M1 L3 M15 L2 M2 L29 M1 L58 M1 L4 M6 L6 M1 L20 M4 L12
   N2 L7 N1 L2 M5 L57 M2 L3 M27 L20 M2 L3 M1 L11 M2 L57 M1 L4 M8 L4 M3 L18 M4 L11 N8 L1 M8 L58
   M1 L2 M1 L1 M6 L6 M10 L11 M4 L28 M1 L61 M1 L12 M3 L35 N13 M1 L3 M1 L55 M1 L1 M3 L5 M18 L10 M4
   L18 N7 L2 M1 L58 M1 L15 M9 L13 M4 L26 M2 L57 M2 L4 M5 L7 M1 L20 M4 L27 M1 L72 M5 L3 M6 L89 M1
   L2 M11 N1 L7 M8 L98 M1 L2 M9 L11 M8 L72 M2 L27 M1 L1 M1 L1 M1 N4 L51 M14 L1 M5 L1 M2 L5 M49
   L8 M1 L102 M4 L1 M6 L1 M2 L2 M2 L25 M2 L4 M3 L16 M4 L13 M1 L2 M2 L6 M1 L15 M1 L703 M3 L48 N16
   L96 N1 L666 N5 L114 M3 L29 M2 L30 M14 L18 M14 L55 M7 L8 M1 L2 M11 L7 N1 L1 M3 L16 N32 L117 M2
   L34 M1 L118 M3 L4 M2 L9 M1 L6 M7 N6 L152 N34 L23 M2 L2 M3 L56 M1 L1 M9 L1 M1 L2 M8 L6 M13 L48
   M84 L48 M1 L1 M5 L1 M1 L5 M1 L40 M9 L12 M2 L32 M4 L2 M2 L1 M3 L56 M1 L1 M2 L3 M1 L1 M3 L58 M8
   L2 M5 L149 M3 L1 M13 L1 M7 L4 M1 L6 M1 L3 M2 L198 M65 L523 N196 M52 N74 L60 N428 L69 N26 L1
   N790 L1 N339 L256 N816 L181 N7 L3 M4 L6 N7 L127 M1 L96 M32 N517 L3 N25 L9 M4 L2 N1 L6 N4 L2
   N4 L88 M4 L3 N1 L90 N1 L196 N48 L7120 N64 L22160 N64 L317 N3 L95 M4 N1 M10 N3 L29 M2 L80 M2
   L14 N35 L101 N1 L121 M1 L3 M1 L4 M1 L25 M2 L1 N4 M4 L8 N8 L52 N12 L68 M10 L18 M18 L13 M1 L38
   M8 L25 M11 L46 M3 L48 M1 L2 M4 L2 M2 L39 M1 L67 M6 L2 M2 L2 M11 L3 M1 L8 M1 L47 M1 L51 M1 L1
   M3 L2 M2 L5 M2 L1 M1 L42 M2 L8 M11 L105 N86 L37 M1 L2 M1 L4 M3 L20270 M148 R17 N605 M37 N46
   R397 L257 N1 L62 N77 L3 N64 L45 M131 L96 M1 E31 L118 M10 L1152 R287 N1 R225 M15 R40 M8 R165
   M6 R78 N7 R484 M12 A16 R41 M5 N1 R241 A32 R43 M2 R35 N42 M6 R70 M11 R49 M4 R122 L1 M1 L54 M15
   L11 N20 L10 M1 L2 M2 L10 M3 L49 M4 L2 M2 L7 M14 L48 M3 L36 M5 L1 M9 L61 M1 L12 M2 L52 M9 L10
   M4 L2 M1 L95 M3 L2 M1 L1 M2 L6 M1 L2 M63 L95 M1 L3 M13 L16 M2 L57 M2 L3 M1 L37 M26 L59 M7 L12
   M1 L1 M1 L1 M1 L14 M31 L56 M8 L2 M3 L1 M1 L23 M1 L84 M6 L1 M1 L4 M2 L1 M2 L238 M6 L4 M2 L1 M2
   L27 M36 L51 M8 L2 M1 L1 M2 L31 N32 L43 M1 L1 M1 L2 M6 L1 M1 L101 M3 L2 M4 L1 M9 L255 M9 L1 M2
   L256 M2 L1 M1 L4 M1 L144 M8 L4 M1 L32 M6 L2 M2 L40 M6 L2 M4 L8 M9 L1 M6 L2 M3 L46 M13 L1 M2
   L198 M1 L1 M3 L1 M1 L201 M14 L84 M23 L1 M7 L1 M2 L1 M75 L49 M21 L1 M9 L64 M3 L2 M1 L1 M1 L347
   M2 L11 M2 L52 M8 L2 M1 L1 M1 L23 M86 L37 N42 L5185 M1 L6 M25 L11454 M12 L3 M3 L2496 M5 L59 M7
   L1048 M1 L63 M4 L79 N1 L1 M12 L19629 M2 L3937 N768 M80 L535 M3 L17 M8 L2 M7 L30 M4 L59 N89 M3
   N123 L64 N96 L1696 M55 L4 M50 L8 M1 L14 M1 L22 M1125 L256 M256 L48 M7 L375 M18 L44 M4 L15
   N465 L28 M4 L254 M2 L243 M1 L2 M1 L7 M2 L5 M9 L258 R208 M82 R34 M7 R1445 N608 L29 N3 L61 N57
   L122 N3488 L983040"

def directionRuns : Text.Runs Direction := .ofLetters Direction.ofLetter directionTable

def direction (c : Char) : Direction := (directionRuns.get? c).getD .neutral

/-- Whether a character makes its domain name one of mixed directions. -/
def isLeftward (c : Char) : Bool :=
  if c.toNat < 0x590 then false else direction c = .right || direction c = .arabic

/-- Whether a label keeps to the direction of its first character. -/
def keepsDirection (label : List Char) : Bool :=
  match label.map direction with
  | [] => true
  | first :: rest =>
    let rest := (rest.reverse.dropWhile (· = .mark)).reverse
    let inner := rest.dropLast
    match first with
    | .left =>
      rest.getLast?.all (fun d => d = .left || d = .european) &&
        inner.all fun d => d ≠ .right && d ≠ .arabic
    | .right =>
      rest.getLast?.all (fun d => d = .right || d = .european || d = .arabic) &&
        inner.all (· ≠ .left) && !(rest.contains .european && rest.contains .arabic)
    | _ => false

end AvroDerive.Url.Domain
