import AvroDerive.Text.Split
import AvroDerive.Text.Percent
import AvroDerive.Url.Basic
import AvroDerive.Url.Domain.Label

/-! # Hosts

Domain names, IPv4 addresses in all their spellings, and IPv6 addresses in brackets.
-/

namespace AvroDerive.Url.Host

/-- A part of an IPv4 address: decimal, octal after `0`, hexadecimal after `0x`. -/
def ipv4Number? (cs : List Char) : Option Nat :=
  match cs with
  | [] => none
  | '0' :: 'x' :: rest => Text.digitsValue? 16 rest
  | '0' :: 'X' :: rest => Text.digitsValue? 16 rest
  | '0' :: c :: rest => Text.digitsValue? 8 (c :: rest)
  | cs => Text.digitsValue? 10 cs

/-- The parts between dots; a last empty one does not count. -/
def ipv4Parts (cs : List Char) : List (List Char) :=
  let parts := Text.splitOn '.' cs
  if parts.getLast? = some [] then parts.dropLast else parts

/-- Whether the last part is a number, so that the host must be an IPv4 address. -/
def endsInNumber (cs : List Char) : Bool :=
  match (ipv4Parts cs).getLast? with
  | some last => (!last.isEmpty && last.all Char.isDigit) || (ipv4Number? last).isSome
  | none => false

/-- The last number fills the bytes that the numbers before it leave. -/
def ipv4? (cs : List Char) : Option Nat := do
  let parts := ipv4Parts cs
  if 4 < parts.length then none
  let numbers ← parts.mapM ipv4Number?
  let last ← numbers.getLast?
  let leading := numbers.dropLast
  if Nat.pow 256 (4 - leading.length) ≤ last ∨ leading.any (255 < ·) then none
  return leading.zipIdx.foldl (fun sum (n, i) => sum + n * Nat.pow 256 (3 - i)) last

/-- One to four hexadecimal digits. -/
def piece? (cs : List Char) : Option Nat :=
  if cs.length ≤ 4 ∧ ¬cs.isEmpty then Text.digitsValue? 16 cs else none

/-- A decimal byte without leading zeros. -/
def byte? (cs : List Char) : Option Nat :=
  match cs with
  | [] => none
  | ['0'] => some 0
  | '0' :: _ => none
  | cs => if cs.all Char.isDigit then (Text.digitsValue? 10 cs).filter (· < 256) else none

/-- Four bytes between dots as two pieces. -/
def embeddedIpv4? (cs : List Char) : Option (List Nat) :=
  match (Text.splitOn '.' cs).mapM byte? with
  | some [a, b, c, d] => some [256 * a + b, 256 * c + d]
  | _ => none

/-- Pieces between colons; the last of them may be an IPv4 address. -/
def pieces? (cs : List Char) : Option (List Nat) :=
  let parts := Text.splitOn ':' cs
  match parts.getLast? with
  | some last =>
    if last.contains '.' then do
      let leading ← parts.dropLast.mapM piece?
      let pair ← embeddedIpv4? last
      return leading ++ pair
    else parts.mapM piece?
  | none => none

/-- Splits at the first `::`. -/
def cutGap : List Char → List Char × Option (List Char)
  | [] => ([], none)
  | ':' :: ':' :: rest => ([], some rest)
  | c :: rest =>
    let (before, after) := cutGap rest
    (c :: before, after)

/-- Eight pieces; `::` stands for at least one piece of zeros. -/
def ipv6? (cs : List Char) : Option (List Nat) := do
  let (before, after) := cutGap cs
  match after with
  | none =>
    let pieces ← pieces? before
    if pieces.length = 8 then some pieces else none
  | some after =>
    if before.contains '.' then none
    let leading ← if before.isEmpty then some [] else pieces? before
    let trailing ← if after.isEmpty then some [] else pieces? after
    if leading.length + trailing.length ≤ 7 then
      some (leading ++ List.replicate (8 - leading.length - trailing.length) 0 ++ trailing)
    else none

/-- What stands between brackets, or the error of an address that is not closed. -/
def bracketed? (cs : List Char) : Option (Except Error Host) :=
  match cs with
  | '[' :: rest =>
    some <| if rest.getLast? = some ']' then
      match ipv6? rest.dropLast with
      | some pieces => .ok (.ipv6 pieces)
      | none => .error .invalidIpv6
    else .error .invalidIpv6
  | _ => none

/-- The host of a URL whose scheme is special; the text is not empty. -/
def ofSpecial (cs : List Char) : Except Error Host :=
  match bracketed? cs with
  | some host => host
  | none =>
    match Domain.toAscii? (Text.percentDecode cs) with
    | none => .error .invalidDomain
    | some name =>
      if name.isEmpty then .error .emptyHost
      else if endsInNumber name then
        match ipv4? name with
        | some address => .ok (.ipv4 address)
        | none => .error .invalidIpv4
      else .ok (.domain (String.ofList name))

/-- The host of any other URL; it may be empty. -/
def ofOther (cs : List Char) : Except Error (Option Host) :=
  match bracketed? cs with
  | some host => host.map some
  | none =>
    if cs.any Domain.isForbiddenInHost then .error .forbiddenHostCharacter
    else if cs.isEmpty then .ok none
    else .ok (some (.domain (String.ofList (Text.percentEncode (fun _ => false) cs))))

end AvroDerive.Url.Host
