import AvroDerive.Url.Host
import AvroDerive.Url.PathText

/-! # Reading URLs

URLs are read alone, and references relative to a base. Blanks around the text do not count,
nor do tabs and line breaks inside it, but for one place in the path of a file.
-/

namespace AvroDerive.Url

namespace Parser

/-- The scheme in lower case and what follows its colon. -/
def scheme? (cs : List Char) : Option (String × List Char) :=
  let isPart (c : Char) : Bool := c.isAlphanum || c = '+' || c = '-' || c = '.'
  match cs.head?, cs.dropWhile isPart with
  | some first, ':' :: rest =>
    if first.isAlpha then
      some (String.ofList ((cs.takeWhile isPart).map Char.toLower), rest)
    else none
  | _, _ => none

/-- The query and the fragment at the end of a URL. -/
def tail (kind : Kind) (cs : List Char) : Option String × Option String :=
  let fragment (cs : List Char) : String := String.ofList (encodeFragment cs)
  match cs with
  | '?' :: rest =>
    let (query, after) := Text.cut '#' rest
    let set := if kind.isSpecial then inSpecialQuerySet else inQuerySet
    (some (String.ofList (Text.percentEncode set query)), after.map fragment)
  | '#' :: rest => (none, some (fragment rest))
  | _ => (none, none)

/-- Completes a URL whose path text is `path` and whose query and fragment are still to read. -/
def finish (scheme : String) (authority : Option Authority) (path rest : List Char) : Url :=
  let (query, fragment) := tail (Kind.ofScheme scheme) rest
  { scheme, authority, path := String.ofList path, query, fragment }

def isDelimiter (kind : Kind) (c : Char) : Bool :=
  c = '/' || c = '?' || c = '#' || (kind.isSpecial && c = '\\')

/-- The user information before the last `@` of an authority; an empty password is left out. -/
def userInfo (cs : List Char) : String :=
  let (user, password) := Text.cut ':' cs
  let encode := Text.percentEncode inUserInfoSet
  let password := encode (password.getD [])
  let written := encode user ++ (if password.isEmpty then [] else ':' :: password)
  if written.isEmpty then "" else String.ofList (written ++ ['@'])

/-- Splits an authority's text off, and the user information off that. -/
def splitUserInfo (kind : Kind) (cs : List Char) : Except Error (String × List Char) :=
  let region := cs.takeWhile fun c => !isDelimiter kind c
  if region.contains '@' then
    let host := (region.reverse.takeWhile (· ≠ '@')).reverse
    let info := region.take (region.length - host.length - 1)
    let rest := host ++ cs.drop region.length
    if info.isEmpty && (rest.head?.map (isDelimiter kind)).getD false then .error .emptyHost
    else .ok (userInfo info, rest)
  else .ok ("", cs)

/-- The text of the host, which ends at a delimiter or at a colon outside brackets. -/
def hostText (kind : Kind) : Bool → List Char → List Char × List Char
  | _, [] => ([], [])
  | inside, c :: rest =>
    if isDelimiter kind c || (c = ':' && !inside) then ([], c :: rest)
    else
      let inside := if c = '[' then true else if c = ']' then false else inside
      let (host, rest) := hostText kind inside rest
      (c :: host, rest)

/-- The digits after a colon; no digits are no port. -/
def port (cs : List Char) : Except Error (Option Nat × List Char) :=
  let digits := cs.takeWhile Char.isDigit
  let rest := cs.dropWhile Char.isDigit
  let value := digits.foldl (fun n c => 10 * n + (c.toNat - '0'.toNat)) 0
  let ends := match rest with
    | [] => true
    | c :: _ => c = '/' || c = '\\' || c = '?' || c = '#'
  if 65535 < value || !ends then .error .invalidPort
  else .ok (if digits.isEmpty then none else some value, rest)

/-- The path that follows an authority. -/
def afterAuthority (scheme : String) (authority : Authority) (cs : List Char) : Url :=
  let kind := Kind.ofScheme scheme
  let below (cs : List Char) : Url :=
    let below := PathText.extend kind ['/'] cs
    finish scheme (some authority) below.path below.rest
  match kind.isSpecial, cs with
  | _, '/' :: rest => below rest
  | true, '\\' :: rest => below rest
  | false, [] => finish scheme (some authority) [] []
  | false, '?' :: rest => finish scheme (some authority) [] ('?' :: rest)
  | false, '#' :: rest => finish scheme (some authority) [] ('#' :: rest)
  | _, cs => below cs

/-- What follows `//`, for all schemes but `file`. -/
def afterSlashes (scheme : String) (cs : List Char) : Except Error Url := do
  let kind := Kind.ofScheme scheme
  let (info, cs) ← splitUserInfo kind cs
  let (text, cs) := hostText kind false cs
  if kind.isSpecial && text.isEmpty then throw .emptyHost
  let host ← if kind.isSpecial then (Host.ofSpecial text).map some else Host.ofOther text
  match cs with
  | ':' :: rest =>
    if host.isNone then throw .emptyHost
    let (port, cs) ← port rest
    let port := if port = defaultPort? scheme then none else port
    return afterAuthority scheme { userInfo := info, host, port } cs
  | cs =>
    if host.isNone && info ≠ "" then throw .emptyHost
    return afterAuthority scheme { userInfo := info, host } cs

def isSlash (c : Char) : Bool := c = '/' || c = '\\'

/-- The host of a file URL, which a drive letter is not; `localhost` is no host. -/
def fileHost (cs : List Char) : Except Error (Option Host × List Char) :=
  let isHost (c : Char) : Bool := !isDelimiter .file c
  let text := cs.takeWhile isHost
  if text.isEmpty || PathText.isDrive text then .ok (none, cs)
  else
    match Host.ofSpecial text with
    | .error e => .error e
    | .ok host =>
      .ok (if host = .domain "localhost" then none else some host, cs.dropWhile isHost)

/-- A file path under its host. -/
def filePath (host : Option Host) (path : PathText.Extended) : Url :=
  finish "file" (some { host }) (PathText.collapse path.path) path.rest

def dropSlash : List Char → List Char
  | c :: rest => if isSlash c then rest else c :: rest
  | [] => []

/-- Adds the end of a file URL's text to a path, with its breaks. -/
def extendFile (text path cs : List Char) : PathText.Extended :=
  PathText.extend .file path (withBreaks text cs)

/-- What follows `file://`. A drive letter at the front of the path drops the host. Without a host,
the slash that ends it is one more slash of the path, so that no segment is at the front. -/
def fileAfterSlashes (text cs : List Char) : Except Error Url := do
  let (host, rest) ← fileHost cs
  let below := extendFile text ['/'] (if host.isSome then dropSlash rest else rest)
  return filePath (if below.onDrive then none else host) below

/-- Reads the end of a text: what follows `file:`, or a reference whose base is a file. -/
def file (text : List Char) (base : Option Url) (cs : List Char) : Except Error Url :=
  match cs with
  | c :: d :: rest =>
    if isSlash c && isSlash d then fileAfterSlashes text rest
    else if isSlash c then .ok (rooted base (d :: rest))
    else .ok (relative base cs)
  | [c] => .ok (if isSlash c then rooted base [] else relative base cs)
  | [] => .ok (relative base [])
where
  /-- A path from the root keeps the host or the drive letter of the base. -/
  rooted (base : Option Url) (cs : List Char) : Url :=
    let below (host : Option Host) (path : List Char) : Url :=
      filePath host (extendFile text path cs)
    match base with
    | some base =>
      if PathText.startsWithDrive cs then below none ['/']
      else
        match PathText.segments .other (base.path.toList.drop 1) with
        | first :: _ =>
          if PathText.isNormalDrive first then below none ('/' :: first ++ ['/'])
          else below (base.authority.bind Authority.host) ['/']
        | [] => below none ['/']
    | none => below none ['/']
  /-- Anything else replaces the last segment of the base. -/
  relative (base : Option Url) (cs : List Char) : Url :=
    match base with
    | none => filePath none (extendFile text ['/'] cs)
    | some base =>
      match cs with
      | [] => base.withFragment none
      | '?' :: _ => finish base.scheme base.authority base.path.toList cs
      | '#' :: rest => base.withFragment (some (String.ofList (encodeFragment rest)))
      | cs =>
        if PathText.startsWithDrive cs then filePath none (extendFile text ['/'] cs)
        else
          let directory := PathText.openDrive (PathText.leave true base.path.toList)
          filePath (base.authority.bind Authority.host) (extendFile text directory cs)

/-- A reference without scheme, or with the special scheme of its base. -/
def relative (base : Url) (cs : List Char) : Except Error Url :=
  let kind := base.kind
  let below (path cs : List Char) : Url :=
    let below := PathText.extend kind path cs
    finish base.scheme base.authority below.path below.rest
  match cs with
  | [] => .ok (base.withFragment none)
  | '?' :: _ => .ok (finish base.scheme base.authority base.path.toList cs)
  | '#' :: rest => .ok (base.withFragment (some (String.ofList (encodeFragment rest))))
  | '/' :: '/' :: rest => afterSlashes base.scheme rest
  | c :: rest =>
    if isSlash c then
      match rest with
      | d :: _ =>
        if isSlash d then afterSlashes base.scheme (rest.dropWhile isSlash)
        else .ok (below ['/'] rest)
      | [] => .ok (below ['/'] rest)
    else
      let path := PathText.leave false base.path.toList
      .ok (below (if path.isEmpty then ['/'] else path) cs)

/-- Reads the end of a text: what follows the colon of a scheme. -/
def afterScheme (text : List Char) (base : Option Url) (scheme : String) (cs : List Char) :
    Except Error Url :=
  match Kind.ofScheme scheme with
  | .file => file text (base.filter (·.scheme = "file")) cs
  | .special =>
    let afterBase := base.filter fun base =>
      decide ((cs.takeWhile isSlash).length < 2 ∧ base.scheme = scheme)
    match afterBase with
    | some base => relative base cs
    | none => afterSlashes scheme (cs.dropWhile isSlash)
  | .other =>
    match cs with
    | '/' :: '/' :: rest => afterSlashes scheme rest
    | '/' :: rest =>
      let below := PathText.extend .other ['/'] rest
      .ok (finish scheme none below.path below.rest)
    | cs =>
      let isPath (c : Char) : Bool := c ≠ '?' && c ≠ '#'
      .ok (finish scheme none (Text.percentEncode (fun _ => false) (cs.takeWhile isPath))
        (cs.dropWhile isPath))

/-- A reference that is read against a base, if there is one. -/
def reference (base : Option Url) (text : String) : Except Error Url :=
  let text := Text.trimEnds (fun c => c.toNat ≤ 0x20) text.toList
  let cs := dropBreaks text
  match scheme? cs with
  | some (scheme, rest) => afterScheme text base scheme rest
  | none =>
    match base with
    | none => .error .relativeWithoutBase
    | some base =>
      match cs with
      | '#' :: rest => .ok (base.withFragment (some (String.ofList (encodeFragment rest))))
      | cs =>
        if base.isPathless then .error .relativeWithPathlessBase
        else if base.kind = .file then file text (some base) cs
        else relative base cs

end Parser

/-- Reads an absolute URL. -/
def parse (text : String) : Except Error Url := Parser.reference none text

/-- Resolves a reference against a base. -/
def resolve (base : Url) (reference : String) : Except Error Url :=
  Parser.reference (some base) reference

/-- The URL with the fragment that a text gives. -/
def setFragment (u : Url) (fragment : Option String) : Url :=
  match fragment with
  | some f => u.withFragment (some (String.ofList (encodeFragment (dropBreaks f.toList))))
  | none => u.withoutFragment

end AvroDerive.Url
