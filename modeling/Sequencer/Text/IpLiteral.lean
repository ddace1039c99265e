import Sequencer.Decimal.Reader
import Sequencer.Text.RawText

/-!
# Addresses in brackets

The host of a URL in brackets is an address of eight groups of hexadecimal
digits. Two colons stand once for any number of zero groups, the last two
groups may be written as four decimal octets, and a zone may follow.
-/

namespace Sequencer.Text

structure AddressError where
  address : List Char
  problem : String
  rest : List Char := []

def AddressError.message (e : AddressError) : String :=
  "ParseAddr(" ++ (RawText.ofOctets e.address).quoted ++ "): " ++ e.problem ++
    (if e.rest.isEmpty then "" else " (at " ++ (RawText.ofOctets e.rest).quoted ++ ")")

/-- Checks the digits of an octet and what follows them: a value, the number of
digits so far, the number of points so far. -/
def checkOctets (bad : String → List Char → AddressError) :
    Nat → Nat → Nat → List Char → Except AddressError Unit
  | _, _, points, [] => if points < 3 then .error (bad "IPv4 address too short" []) else .ok ()
  | value, count, points, c :: rest =>
    if c.isDigit then
      let next := 10 * value + Decimal.digitValue c
      if count = 1 ∧ value = 0 then .error (bad "IPv4 field has octet with leading zero" [])
      else if 255 < next then .error (bad "IPv4 field has value >255" [])
      else checkOctets bad next (count + 1) points rest
    else if c = '.' then
      if count = 0 ∨ rest.isEmpty then
        .error (bad "IPv4 field must have at least one digit" (c :: rest))
      else if points = 3 then .error (bad "IPv4 address too long" [])
      else checkOctets bad 0 0 (points + 1) rest
    else .error (bad "unexpected character" (c :: rest))

structure Groups where
  count : Nat := 0
  shortened : Bool := false

def checkGroups (bad : String → List Char → AddressError) :
    Nat → Groups → List Char → Except AddressError Groups
  | 0, g, _ => .ok g
  | fuel + 1, g, cs => do
    if 8 ≤ g.count then
      throw (bad "trailing garbage after address" cs)
    let digits := cs.takeWhile (Decimal.isDigitOf 16)
    let rest := cs.dropWhile (Decimal.isDigitOf 16)
    if 4 < digits.length then throw (bad "each group must have 4 or less digits" cs)
    if digits.isEmpty then
      throw (bad "each colon-separated field must have at least one digit" cs)
    match rest with
    | [] => return { g with count := g.count + 1 }
    | '.' :: _ =>
      if !g.shortened ∧ g.count ≠ 6 then
        throw (bad "embedded IPv4 address must replace the final 2 fields of the address" cs)
      if 6 < g.count then
        throw (bad "too many hex fields to fit an embedded IPv4 at the end of the address" cs)
      checkOctets bad 0 0 0 cs
      return { g with count := g.count + 2 }
    | ':' :: [] => throw (bad "colon must be followed by more characters" rest)
    | ':' :: ':' :: more =>
      if g.shortened then throw (bad "multiple :: in address" (':' :: more))
      let g : Groups := ⟨g.count + 1, true⟩
      if more.isEmpty then return g else checkGroups bad fuel g more
    | ':' :: more => checkGroups bad fuel { g with count := g.count + 1 } more
    | _ => throw (bad "unexpected character, want colon" rest)

def checkLongAddress (address : List Char) : Except AddressError Unit := do
  let bad (problem : String) (rest : List Char) : AddressError := ⟨address, problem, rest⟩
  let body := address.takeWhile (· ≠ '%')
  let zone := address.dropWhile (· ≠ '%')
  if zone = ['%'] then throw (bad "zone must be a non-empty string" [])
  let g ←
    match body with
    | [':', ':'] => pure ⟨0, true⟩
    | ':' :: ':' :: rest => checkGroups bad body.length ⟨0, true⟩ rest
    | _ => checkGroups bad (body.length + 1) {} body
  if g.count < 8 ∧ !g.shortened then throw (bad "address string too short" [])
  if 8 ≤ g.count ∧ g.shortened then
    throw (bad "the :: must expand to at least one field of zeros" [])

/-- Checks an address of either kind. The answer tells an address of four
octets, which has no place in brackets. -/
def checkAddress (address : List Char) : Except AddressError Bool := do
  let bad (problem : String) (rest : List Char) : AddressError := ⟨address, problem, rest⟩
  match address.find? fun c => c = '.' || c = ':' || c = '%' with
  | some '.' =>
    checkOctets bad 0 0 0 address
    return true
  | some ':' =>
    checkLongAddress address
    return false
  | some _ => throw (bad "missing IPv6 address" [])
  | none => throw (bad "unable to parse IP" [])

end Sequencer.Text
