/-! # Absolute URLs

All parts are kept as they are written: percent-encoded, the scheme and the host in lower case, a
default port left out.
-/

namespace AvroDerive

namespace Url

inductive Host where
  | domain (name : String)
  | ipv4 (address : Nat)
  | ipv6 (pieces : List Nat)
  deriving DecidableEq, Repr

/-- What follows `//`. The user information is empty or ends in `@`. -/
structure Authority where
  userInfo : String := ""
  host : Option Host := none
  port : Option Nat := none
  deriving DecidableEq, Repr

/-- Why a text is no URL. -/
inductive Error where
  | emptyHost
  | invalidDomain
  | invalidPort
  | invalidIpv4
  | invalidIpv6
  | forbiddenHostCharacter
  | relativeWithoutBase
  | relativeWithPathlessBase
  deriving DecidableEq, Repr

def Error.message : Error → String
  | .emptyHost => "empty host"
  | .invalidDomain => "invalid international domain name"
  | .invalidPort => "invalid port number"
  | .invalidIpv4 => "invalid IPv4 address"
  | .invalidIpv6 => "invalid IPv6 address"
  | .forbiddenHostCharacter => "invalid domain character"
  | .relativeWithoutBase => "relative URL without a base"
  | .relativeWithPathlessBase => "relative URL with a cannot-be-a-base base"

/-- How the rest of a URL is read depends on its scheme. -/
inductive Kind where
  | file
  | special
  | other
  deriving DecidableEq, Repr

def Kind.ofScheme (scheme : String) : Kind :=
  if scheme = "file" then .file
  else if scheme ∈ ["http", "https", "ws", "wss", "ftp"] then .special
  else .other

/-- In files and special URLs a backslash counts as a slash. -/
def Kind.isSpecial : Kind → Bool
  | .other => false
  | _ => true

def defaultPort? : String → Option Nat
  | "http" | "ws" => some 80
  | "https" | "wss" => some 443
  | "ftp" => some 21
  | _ => none

end Url

structure Url where
  scheme : String
  authority : Option Url.Authority := none
  path : String
  query : Option String := none
  fragment : Option String := none
  deriving DecidableEq, Repr

namespace Url

def hexText (n : Nat) : String := String.ofList (Nat.toDigits 16 n)

/-- The first longest run of at least two zeros: where it starts and how long it is. -/
def zeroRun (pieces : List Nat) : Option (Nat × Nat) :=
  let runs := (List.range pieces.length).map fun i =>
    (i, ((pieces.drop i).takeWhile (· = 0)).length)
  runs.foldl (fun best run =>
    if 2 ≤ run.2 ∧ (best.map Prod.snd).getD 0 < run.2 then some run else best) none

def ipv6Text (pieces : List Nat) : String :=
  let join (ps : List Nat) := ":".intercalate (ps.map hexText)
  match zeroRun pieces with
  | some (start, length) =>
    join (pieces.take start) ++ "::" ++ join (pieces.drop (start + length))
  | none => join pieces

def Host.text : Host → String
  | .domain name => name
  | .ipv4 a =>
    ".".intercalate ([a / 0x1000000, a / 0x10000, a / 0x100, a].map
      fun n => toString (n % 256))
  | .ipv6 pieces => "[" ++ ipv6Text pieces ++ "]"

def Authority.text (a : Authority) : String :=
  a.userInfo ++ (a.host.map Host.text).getD "" ++
    (match a.port with
      | some port => ":" ++ toString port
      | none => "")

def kind (u : Url) : Kind := Kind.ofScheme u.scheme

/-- Whether the path is no hierarchy, so that no relative reference can be resolved. -/
def isPathless (u : Url) : Bool := u.authority.isNone && u.path.toList.head? != some '/'

def hostText? (u : Url) : Option String :=
  (u.authority.bind Authority.host).map Host.text

def withFragment (u : Url) (fragment : Option String) : Url := { u with fragment }

/-- The URL of the document alone. Blanks at the end of a path that is no hierarchy count only as
long as something follows them. -/
def withoutFragment (u : Url) : Url :=
  let trimmed := String.ofList (u.path.toList.reverse.dropWhile (· = ' ')).reverse
  { u with
    path := if u.isPathless && u.query.isNone then trimmed else u.path
    fragment := none }

/-- Which fragment a URL has does not matter for its document. -/
theorem withoutFragment_withFragment (u : Url) (fragment : Option String) :
    (u.withFragment fragment).withoutFragment = u.withoutFragment := rfl

/-- The written form. A path that begins with `//` is set off from the scheme by `/.`. -/
def text (u : Url) : String :=
  let path := match u.authority, u.path.toList with
    | none, '/' :: '/' :: _ => "/." ++ u.path
    | _, _ => u.path
  u.scheme ++ ":" ++
    (match u.authority with
      | some a => "//" ++ a.text
      | none => "") ++ path ++
    (match u.query with
      | some q => "?" ++ q
      | none => "") ++
    (match u.fragment with
      | some f => "#" ++ f
      | none => "")

end Url

end AvroDerive
