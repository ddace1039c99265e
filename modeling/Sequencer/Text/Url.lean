import Sequencer.Text.IpLiteral

/-!
# URLs

A URL is taken apart into a scheme, an authority, a path, a query and a
fragment, and put together again. Parts hold bytes, which are handled as the
characters with their numbers; in writing, a byte that its part does not allow
is a percent sign and two hexadecimal digits.
-/

namespace Sequencer.Text

inductive UrlPart where
  | path | host | zone | user | fragment
  deriving DecidableEq

inductive UrlError where
  | controlCharacter
  | missingScheme
  | colonInFirstSegment
  | missingBracket
  | badService (text : List Char)
  | address (e : AddressError)
  | shortAddress
  | userInfo
  | escape (text : List Char)
  | hostCharacter (c : Char)

def UrlError.message : UrlError → String
  | .controlCharacter => "net/url: invalid control character in URL"
  | .missingScheme => "missing protocol scheme"
  | .colonInFirstSegment => "first path segment in URL cannot contain colon"
  | .missingBracket => "missing ']' in host"
  | .badService text => "invalid port " ++ (RawText.ofOctets text).quoted ++ " after host"
  | .address e => "invalid host: " ++ e.message
  | .shortAddress => "invalid IP-literal"
  | .userInfo => "net/url: invalid userinfo"
  | .escape text => "invalid URL escape " ++ (RawText.ofOctets text).quoted
  | .hostCharacter c => "invalid character " ++ (RawText.ofOctets [c]).quoted ++ " in host name"

structure UserInfo where
  name : List Char
  password : Option (List Char)

structure Url where
  scheme : List Char := []
  /-- What follows the scheme when that is no rooted path. -/
  rootless : List Char := []
  user : Option UserInfo := none
  host : List Char := []
  path : List Char := []
  givenPath : List Char := []
  /-- A scheme is followed by the path at once. -/
  omitsHost : Bool := false
  emptyQuery : Bool := false
  query : List Char := []
  fragment : List Char := []
  givenFragment : List Char := []

namespace Url

-- ---------------------------------------------------------------------------
-- Escapes
-- ---------------------------------------------------------------------------

def hostMarks : List Char :=
  ['!', '$', '&', '\'', '(', ')', '*', '+', ',', ';', '=', ':', '[', ']', '<', '>', '"']

def plainMarks : List Char := ['-', '_', '.', '~']

def reservedMarks : List Char := ['$', '&', '+', ',', '/', ':', ';', '=', '?', '@']

def fragmentMarks : List Char := ['!', '(', ')', '*']

def needsEscape (part : UrlPart) (c : Char) : Bool :=
  if c.isAlphanum || plainMarks.contains c then false
  else
    match part with
    | .host | .zone => !hostMarks.contains c
    | .path => !reservedMarks.contains c || c = '?'
    | .user => !reservedMarks.contains c || ['@', '/', '?', ':'].contains c
    | .fragment => !reservedMarks.contains c && !fragmentMarks.contains c

def escapeOctet (c : Char) : List Char :=
  '%' :: (hexDigits 2 c.toNat).map Char.toUpper

def escape (part : UrlPart) (cs : List Char) : List Char :=
  cs.flatMap fun c => if needsEscape part c then escapeOctet c else [c]

def barredEscape (part : UrlPart) (code : Nat) : Bool :=
  code ≠ '%'.toNat &&
    match part with
    | .host => code < 0x80
    | .zone => code ≠ ' '.toNat && needsEscape .host (Char.ofNat code)
    | _ => false

def unescape (part : UrlPart) : List Char → Except UrlError (List Char)
  | [] => .ok []
  | c :: rest =>
    if c = '%' then
      match rest with
      | a :: b :: more =>
        match Decimal.alphaDigit? a, Decimal.alphaDigit? b with
        | some high, some low =>
          if 16 ≤ high ∨ 16 ≤ low ∨ barredEscape part (16 * high + low) then .error (.escape [c, a, b])
          else (unescape part more).map (Char.ofNat (16 * high + low) :: ·)
        | _, _ => .error (.escape [c, a, b])
      | _ => .error (.escape (c :: rest))
    else if (part = .host ∨ part = .zone) ∧ c.toNat < 0x80 ∧ needsEscape part c then
      .error (.hostCharacter c)
    else (unescape part rest).map (c :: ·)

def allowedMarks : List Char :=
  ['!', '$', '&', '\'', '(', ')', '*', '+', ',', ';', '=', ':', '@', '[', ']', '%']

def isEncoded (part : UrlPart) (cs : List Char) : Bool :=
  cs.all fun c => allowedMarks.contains c || !needsEscape part c

/-- A part in writing: as it was given if it is encoded, or escaped. -/
def written (part : UrlPart) (value given : List Char) : List Char :=
  if isEncoded part given then given else escape part value

-- ---------------------------------------------------------------------------
-- Reading
-- ---------------------------------------------------------------------------

def cut (mark : Char) (cs : List Char) : List Char × List Char :=
  (cs.takeWhile (· ≠ mark), (cs.dropWhile (· ≠ mark)).drop 1)

def cutLast? (mark : Char) (cs : List Char) : Option (List Char × List Char) :=
  if cs.contains mark then
    let tail := cs.reverse.takeWhile (· ≠ mark)
    some (cs.take (cs.length - tail.length - 1), tail.reverse)
  else none

def isSchemeChar (c : Char) : Bool := c.isAlphanum || c = '+' || c = '-' || c = '.'

def splitScheme (cs : List Char) : Except UrlError (List Char × List Char) :=
  let (word, rest) := (cs.takeWhile isSchemeChar, cs.dropWhile isSchemeChar)
  match word, rest with
  | [], ':' :: _ => .error .missingScheme
  | c :: _, ':' :: more => .ok (if c.isAlpha then (word, more) else ([], cs))
  | _, _ => .ok ([], cs)

def isOptionalService : List Char → Bool
  | [] => true
  | c :: rest => c = ':' && rest.all Char.isDigit

def checkService (text : List Char) : Except UrlError Unit :=
  if isOptionalService text then .ok () else .error (.badService text)

/-- The name in brackets, where `%25` begins a zone. -/
def readBracketed (name : List Char) : Except UrlError (List Char) := do
  let parts := (String.ofList name).splitOn "%25"
  match parts with
  | first :: _ :: _ =>
    let host ← unescape .host first.toList
    let zone ← unescape .zone (name.drop first.length)
    return host ++ zone
  | _ => unescape .host name

def readHost (host : List Char) : Except UrlError (List Char) := do
  match cutLast? '[' host with
  | some (_, inner) =>
    match cutLast? ']' inner with
    | none => throw .missingBracket
    | some (name, service) =>
      checkService service
      let service ← unescape .host service
      let name ← readBracketed name
      match checkAddress name with
      | .error e => throw (.address e)
      | .ok true => throw .shortAddress
      | .ok false => return '[' :: name ++ ']' :: service
  | none =>
    match cutLast? ':' host with
    | some (_, service) => checkService (':' :: service)
    | none => pure ()
    unescape .host host

def userMarks : List Char :=
  ['-', '.', '_', ':', '~', '!', '$', '&', '\'', '(', ')', '*', '+', ',', ';', '=', '%', '@']

def readUser (cs : List Char) : Except UrlError UserInfo := do
  if !cs.all fun c => c.isAlphanum || userMarks.contains c then throw .userInfo
  if cs.contains ':' then
    let (name, password) := cut ':' cs
    return ⟨← unescape .user name, some (← unescape .user password)⟩
  else return ⟨← unescape .user cs, none⟩

def readAuthority (cs : List Char) : Except UrlError (Option UserInfo × List Char) := do
  match cutLast? '@' cs with
  | none => return (none, ← readHost cs)
  | some (user, host) =>
    let host ← readHost host
    return (some (← readUser user), host)

/-- The query after the first question mark; one at the end alone begins an
empty query. -/
def splitQuery (cs : List Char) : List Char × Bool × List Char :=
  if cs.getLast? = some '?' ∧ cs.count '?' = 1 then (cs.dropLast, true, [])
  else
    let (rest, query) := cut '?' cs
    (rest, false, query)

def readHierarchy (u : Url) (rest : List Char) : Except UrlError Url := do
  if rest.take 2 = ['/', '/'] ∧ (!u.scheme.isEmpty ∨ rest.take 3 ≠ ['/', '/', '/']) then
    let authority := (rest.drop 2).takeWhile (· ≠ '/')
    let path := (rest.drop 2).dropWhile (· ≠ '/')
    let (user, host) ← readAuthority authority
    return { u with user := user, host := host, path := ← unescape .path path, givenPath := path }
  else
    return { u with
      omitsHost := !u.scheme.isEmpty && rest.head? = some '/'
      path := ← unescape .path rest
      givenPath := rest }

def readMain (cs : List Char) : Except UrlError Url := do
  if cs.any fun c => c.toNat < 0x20 || c.toNat = 0x7f then throw .controlCharacter
  if cs = ['*'] then return { path := cs, givenPath := cs }
  let (scheme, rest) ← splitScheme cs
  let (rest, emptyQuery, query) := splitQuery rest
  let u : Url := { scheme := scheme.map Char.toLower, emptyQuery := emptyQuery, query := query }
  if rest.head? ≠ some '/' then
    if !scheme.isEmpty then return { u with rootless := rest }
    if (cut '/' rest).1.contains ':' then throw .colonInFirstSegment
  readHierarchy u rest

/-- Reads a URL. An error tells the part of the text that was being read. -/
def read (text : RawText) : Except (RawText × UrlError) Url := do
  let (main, fragment) := cut '#' text.octets
  let u ← (readMain main).mapError fun e => (.ofOctets main, e)
  let value ← (unescape .fragment fragment).mapError fun e => (text, e)
  return { u with fragment := value, givenFragment := fragment }

-- ---------------------------------------------------------------------------
-- Writing and looking
-- ---------------------------------------------------------------------------

def hostAndService (u : Url) : List Char × List Char :=
  let (host, service) :=
    match cutLast? ':' u.host with
    | some (name, service) => if service.all Char.isDigit then (name, service) else (u.host, [])
    | none => (u.host, [])
  match host, host.getLast? with
  | '[' :: rest, some ']' => (rest.dropLast, service)
  | _, _ => (host, service)

def userText (i : UserInfo) : List Char :=
  escape .user i.name ++
    match i.password with
    | none => []
    | some p => ':' :: escape .user p

def authorityText (u : Url) : List Char :=
  if u.omitsHost ∧ u.host.isEmpty ∧ u.user.isNone then []
  else if u.host.isEmpty ∧ u.path.isEmpty ∧ u.user.isNone then []
  else
    ['/', '/'] ++ (u.user.map fun i => userText i ++ ['@']).getD [] ++ escape .host u.host

def pathText (u : Url) : List Char :=
  if u.path = ['*'] then u.path else written .path u.path u.givenPath

def text (u : Url) : RawText :=
  let path := u.pathText
  let body :=
    if !u.rootless.isEmpty then u.rootless
    else
      let slash := if !u.host.isEmpty && path.head?.isSome && path.head? != some '/' then ['/'] else []
      u.authorityText ++ slash ++ path
  let query := if u.emptyQuery || !u.query.isEmpty then '?' :: u.query else []
  let fragment :=
    if u.fragment.isEmpty then [] else '#' :: written .fragment u.fragment u.givenFragment
  .ofOctets (u.scheme ++ ':' :: body ++ query ++ fragment)

end Url
end Sequencer.Text
