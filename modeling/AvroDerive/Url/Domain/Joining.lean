import AvroDerive.Text.Mark

/-! # Joiners

Two characters without a glyph tell whether the letters beside them are joined. A domain name may
hold them only where they change how it looks: behind a sign that takes a vowel away, or, for the
one that separates, between letters that would be joined.
-/

namespace AvroDerive.Url.Domain

/-- With which neighbours a letter is joined. -/
inductive Joining where
  | after
  | before
  | both
  | neither
  /-- Marks, across which letters are joined. -/
  | across
  deriving DecidableEq, Repr

def Joining.ofLetter : Char → Joining
  | 'L' => .after
  | 'R' => .before
  | 'D' => .both
  | 'T' => .across
  | _ => .neither

def joiningTable : String :=
  "U768 T113 U274 T8 U262 T45 U1 T1 U1 T2 U1 T2 U1 T9 U64 T11 U5 D1 U1 R4 D1 R1 D1 R1 D5 R4 D13
   U1 D7 R1 D2 T21 U14 D2 T1 R3 U5 D15 R18 D38 R1 D2 R9 D1 R1 D1 R1 D2 R2 U1 R1 T8 U1 T6 U2 T2
   U1 T4 R2 U10 D3 U2 D1 U16 R1 T1 D3 R5 D4 R1 D9 R1 D1 R1 D1 R1 D2 R1 T29 R1 D11 R3 D15 R2 D4
   R1 D1 R2 D3 R2 D6 U38 T11 U25 D33 T9 U9 T1 U24 T4 U1 T9 U1 T3 U1 T7 U16 R1 D5 R2 D1 R1 D10 R1
   D1 R3 T5 U2 D1 U1 D4 U1 R1 D1 R26 U3 D1 U2 D5 R1 D8 T9 D10 R3 U1 R1 D2 R2 D6 R1 D15 U1 T57
   U55 T1 U1 T1 U4 T8 U4 T1 U3 T15 U2 T2 U29 T1 U58 T1 U4 T6 U6 T1 U20 T4 U24 T5 U57 T2 U3 T27
   U20 T2 U3 T1 U11 T2 U57 T1 U4 T8 U4 T3 U18 T4 U20 T8 U58 T1 U2 T1 U1 T6 U6 T10 U11 T4 U28 T1
   U61 T1 U12 T3 U48 T1 U3 T1 U55 T1 U1 T3 U5 T18 U10 T4 U27 T1 U58 T1 U2 T1 U6 T1 U5 T9 U13 T4
   U26 T2 U57 T2 U4 T5 U7 T1 U20 T4 U27 T1 U72 T5 U3 T6 U89 T1 U2 T11 U8 T8 U98 T1 U2 T9 U11 T8
   U72 T2 U27 T1 U1 T1 U1 T1 U55 T14 U1 T5 U1 T2 U5 T49 U8 T1 U102 T4 U1 T6 U1 T2 U2 T2 U25 T2
   U4 T3 U16 T4 U13 T1 U2 T2 U6 T1 U15 T1 U703 T3 U946 T3 U29 T2 U30 T14 U18 T14 U55 T7 U8 T1 U2
   T11 U9 T3 U39 D1 U24 D96 U5 T2 D34 T1 D6 U112 T3 U4 T2 U9 T1 U6 T7 U215 T2 U2 T3 U56 T1 U1 T9
   U1 T1 U2 T8 U6 T13 U48 T84 U48 T1 U1 T5 U1 T1 U5 T1 U40 T9 U12 T2 U32 T4 U2 T2 U1 T3 U56 T1
   U1 T2 U3 T1 U1 T3 U58 T8 U2 T5 U149 T3 U1 T13 U1 T7 U4 T1 U6 T1 U3 T2 U198 T65 U719 T52 U3051
   T4 U140 T1 U96 T32 U554 T4 U107 T4 U30162 T4 U1 T10 U32 T2 U80 T2 U272 T1 U3 T1 U4 T1 U25 T2
   U5 T4 U16 D50 L1 U81 T10 U18 T18 U13 T1 U38 T8 U25 T11 U46 T3 U48 T1 U2 T4 U2 T2 U39 T1 U67
   T6 U2 T2 U2 T11 U3 T1 U8 T1 U47 T1 U51 T1 U1 T3 U2 T2 U5 T2 U1 T1 U42 T2 U8 T11 U228 T1 U2 T1
   U4 T3 U20270 T148 U622 T37 U952 T131 U96 T1 U149 T10 U1665 T15 U40 T8 U128 D5 R1 U1 R1 U1 R2
   U2 L1 R5 D4 L1 D5 R1 D3 R1 U2 R1 T6 D4 R1 U144 D1 R1 D1 R3 D3 R1 D2 R1 D1 R2 D1 R8 U16 R4 D2
   U337 L1 D33 R1 D1 T12 U57 T5 U317 T2 U21 R1 D2 U1 D10 U42 T6 U48 D3 R1 D17 U1 T11 D3 R1 U27
   D4 R2 D12 T4 U42 D1 U1 D2 R3 U1 D1 R2 D2 R1 D2 U1 D1 R2 D1 U4 R1 D1 L21 U33 T1 U54 T15 U41 T1
   U2 T2 U10 T3 U49 T4 U2 T2 U7 T14 U48 T3 U36 T5 U1 T9 U61 T1 U12 T2 U52 T9 U10 T4 U2 T1 U95 T3
   U2 T1 U1 T2 U6 T1 U2 T63 U95 T1 U3 T13 U16 T2 U57 T2 U3 T1 U37 T26 U59 T7 U12 T1 U1 T1 U1 T1
   U14 T31 U56 T8 U2 T3 U1 T1 U23 T1 U84 T6 U1 T1 U4 T2 U1 T2 U238 T6 U4 T2 U1 T2 U27 T36 U51 T8
   U2 T1 U1 T2 U106 T1 U1 T1 U2 T6 U1 T1 U101 T1 U1 T1 U2 T4 U1 T9 U255 T9 U1 T2 U256 T2 U1 T1
   U4 T1 U144 T8 U4 T1 U32 T10 U40 T6 U2 T4 U8 T9 U1 T6 U2 T3 U46 T13 U1 T2 U198 T1 U1 T3 U1 T1
   U201 T14 U1 T1 U82 T23 U1 T7 U1 T2 U1 T75 U49 T21 U1 T9 U64 T3 U2 T1 U1 T1 U347 T2 U11 T2 U52
   T8 U2 T1 U1 T1 U23 T86 U5264 T1 U6 T25 U11454 T12 U3 T3 U2496 T5 U59 T7 U1048 T1 U63 T4 U81
   T12 U19629 T2 U4705 T80 U535 T3 U17 T8 U2 T7 U30 T4 U148 T3 U1979 T55 U4 T50 U8 T1 U14 T1 U22
   T1125 U256 T256 U48 T7 U375 T18 U44 T4 U508 T4 U254 T2 U243 T1 U2 T1 U7 T2 U5 T9 U466 T82 D34
   T12"

def joiningRuns : Text.Runs Joining := .ofLetters Joining.ofLetter joiningTable

def joining (c : Char) : Joining := (joiningRuns.get? c).getD .neither

def separator : Char := '\u200C'

def joiner : Char := '\u200D'

/-- How the first letter of a text is joined, marks left out. -/
def firstJoining (cs : List Char) : Joining :=
  ((cs.map joining).find? (· ≠ .across)).getD .neither

/-- Whether a joiner may stand between two texts, the first of them read backwards. -/
def mayJoin (c : Char) (before after : List Char) : Bool :=
  match before with
  | [] => false
  | last :: _ =>
    Text.isVirama last ||
      (c = separator &&
        (firstJoining before = .after || firstJoining before = .both) &&
        (firstJoining after = .before || firstJoining after = .both))

/-- Whether all joiners of a text stand where they may, given what stands before the text. -/
def joinersFit : List Char → List Char → Bool
  | _, [] => true
  | before, c :: rest =>
    (if c = separator ∨ c = joiner then mayJoin c before rest else true) &&
      joinersFit (c :: before) rest

end AvroDerive.Url.Domain
