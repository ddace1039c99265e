import Sequencer.Decimal.Binary

/-!
# Reading numbers

Literals as exact coefficients and exponents, and the binary number nearest to
them; integers with an optional base given by their first characters.
Underscores may separate digits.
-/

namespace Sequencer.Decimal

/-- The value `coefficient * 10 ^ exponent`, or with a power of two, and its
sign. -/
structure Literal where
  negative : Bool
  coefficient : Nat
  exponent : Int
  binary : Bool

def digitValue (c : Char) : Nat := c.toNat - '0'.toNat

def foldDigits (start : Nat) (digits : List Char) : Nat :=
  digits.foldl (fun n c => 10 * n + digitValue c) start

def spanDigits (cs : List Char) : List Char × List Char :=
  (cs.takeWhile Char.isDigit, cs.dropWhile Char.isDigit)

def splitSign : List Char → Bool × List Char
  | '-' :: rest => (true, rest)
  | '+' :: rest => (false, rest)
  | cs => (false, cs)

def alphaDigit? (c : Char) : Option Nat :=
  if c.isDigit then some (digitValue c)
  else if 'a' ≤ c ∧ c ≤ 'z' then some (c.toNat - 'a'.toNat + 10)
  else if 'A' ≤ c ∧ c ≤ 'Z' then some (c.toNat - 'A'.toNat + 10)
  else none

def isDigitOf (base : Nat) (c : Char) : Bool := ((alphaDigit? c).map fun d => decide (d < base)).getD false

/-- Underscores stand between digits only, or after the mark of a base, which
counts as a digit. -/
def underscoresSeparate (isDigit : Char → Bool) : Bool → List Char → Bool
  | _, [] => true
  | afterDigit, c :: rest =>
    if c = '_' then
      afterDigit && (rest.head?.map isDigit).getD false && underscoresSeparate isDigit false rest
    else underscoresSeparate isDigit (isDigit c) rest

def withoutUnderscores (cs : List Char) : List Char := cs.filter (· ≠ '_')

/-- The size of an exponent; it stops to grow at five digits. -/
def foldExponent (digits : List Char) : Nat :=
  digits.foldl (fun n c => if n < 10000 then 10 * n + digitValue c else n) 0

def readExponent? (rest : List Char) : Option Int :=
  let (negative, digits) := splitSign rest
  if !(digits.head?.map Char.isDigit).getD false || !digits.all fun c => c.isDigit || c = '_' then none
  else
    let size : Int := foldExponent (withoutUnderscores digits)
    some (if negative then -size else size)

def splitPoint (isPart : Char → Bool) (cs : List Char) : List Char × List Char × List Char :=
  let whole := cs.takeWhile isPart
  match cs.dropWhile isPart with
  | '.' :: more => (whole, more.takeWhile isPart, more.dropWhile isPart)
  | rest => (whole, [], rest)

def splitHexMark : List Char → Bool × List Char
  | '0' :: x :: c :: rest =>
    if x = 'x' ∨ x = 'X' then (true, c :: rest) else (false, '0' :: x :: c :: rest)
  | cs => (false, cs)

/-- Reads `[sign] digits [. digits] [e [sign] digits]` with at least one digit
before the exponent, or `[sign] 0x digits [. digits] p [sign] digits` in base
sixteen with an exponent of two. -/
def readLiteral? (cs : List Char) : Option Literal := do
  let (negative, number) := splitSign cs
  let (hex, body) := splitHexMark number
  let base := if hex then 16 else 10
  let (whole, fraction, rest) := splitPoint (fun c => isDigitOf base c || c = '_') body
  let whole := withoutUnderscores whole
  let fraction := withoutUnderscores fraction
  if whole.isEmpty ∧ fraction.isEmpty then none
  if !underscoresSeparate (isDigitOf base) hex body then none
  let exponent ←
    match rest with
    | [] => if hex then none else some 0
    | c :: more => if c.toLower = (if hex then 'p' else 'e') then readExponent? more else none
  let coefficient := (whole ++ fraction).foldl (fun n c => base * n + (alphaDigit? c).getD 0) 0
  let places : Int := if hex then 4 * fraction.length else fraction.length
  return ⟨negative, coefficient, exponent - places, hex⟩

def bitLength (n : Nat) : Nat := if n = 0 then 0 else Nat.log2 n + 1

def nearestBinary (m : Nat) (e : Int) : Float :=
  let size : Int := bitLength m + e
  if m = 0 ∨ size < -1100 then 0.0
  else if 1100 < size then 1.0 / 0.0
  else
    -- The last place that the format keeps.
    let last : Int := max (size - 53) (-1074)
    let (num, den) := scaled m (e - last) 0
    (Float.ofNat (roundHalfEven num den)).scaleB last

/-- The decimal number's nearest binary one. Literals beyond every finite
number or below half the least one need no arithmetic. -/
def nearestDecimal (m : Nat) (e : Int) : Float :=
  let size : Int := (toString m).length + e
  if m = 0 ∨ size < -330 then 0.0
  else if 310 < size then 1.0 / 0.0
  else if 0 ≤ e then Float.ofScientific m false e.toNat
  else Float.ofScientific m true (-e).toNat

def Literal.toFloat (l : Literal) : Float :=
  let value := if l.binary then nearestBinary l.coefficient l.exponent else nearestDecimal l.coefficient l.exponent
  if l.negative then -value else value

inductive NumberError where
  | syntaxError
  | outOfRange
  deriving DecidableEq, Repr

def NumberError.message : NumberError → String
  | .syntaxError => "invalid syntax"
  | .outOfRange => "value out of range"

def readWord? (cs : List Char) : Option Float :=
  let (negative, word) := splitSign cs
  let word := String.ofList (word.map Char.toLower)
  if word = "inf" ∨ word = "infinity" then some (if negative then -1.0 / 0.0 else 1.0 / 0.0)
  else if String.ofList (cs.map Char.toLower) = "nan" then some (0.0 / 0.0)
  else none

def readFloat (s : String) : Except NumberError Float :=
  match readLiteral? s.toList with
  | none => .error .syntaxError
  | some l => if l.toFloat.isInf then .error .outOfRange else .ok l.toFloat

def readExtendedFloat (s : String) : Except NumberError Float :=
  match readWord? s.toList with
  | some x => .ok x
  | none => readFloat s

/-- Digits of a base, left to right: the first foreign digit is a syntax
error, the first excess over 64 bits is out of range. -/
def readDigits (base : Nat) : Nat → List Char → Except NumberError Nat
  | n, [] => .ok n
  | n, c :: rest =>
    match alphaDigit? c with
    | none => .error .syntaxError
    | some d =>
      if base ≤ d then .error .syntaxError
      else if Nat.pow 2 64 ≤ n * base + d then .error .outOfRange
      else readDigits base (n * base + d) rest

def splitBase : List Char → Nat × List Char
  | '0' :: c :: d :: rest =>
    if c = 'b' ∨ c = 'B' then (2, d :: rest)
    else if c = 'o' ∨ c = 'O' then (8, d :: rest)
    else if c = 'x' ∨ c = 'X' then (16, d :: rest)
    else (8, c :: d :: rest)
  | '0' :: rest => (8, rest)
  | cs => (10, cs)

def signedRange (negative : Bool) (n : Nat) : Except NumberError Int :=
  if negative then
    if Nat.pow 2 63 < n then .error .outOfRange else .ok (-(n : Int))
  else if Nat.pow 2 63 ≤ n then .error .outOfRange
  else .ok n

def readInt (s : String) : Except NumberError Int :=
  let (negative, digits) := splitSign s.toList
  if digits.isEmpty then .error .syntaxError
  else readDigits 10 0 digits >>= signedRange negative

/-- A signed 64-bit integer whose base follows from its first characters: `0x`,
`0o` or `0`, `0b`, and ten otherwise. Underscores may separate its digits. -/
def readIntAnyBase (s : String) : Except NumberError Int :=
  let (negative, digits) := splitSign s.toList
  if digits.isEmpty then .error .syntaxError
  else do
    let (base, shown) := splitBase digits
    let n ← readDigits base 0 (withoutUnderscores shown)
    let marked := base ≠ 10
    if !underscoresSeparate (isDigitOf base) marked shown then throw .syntaxError
    signedRange negative n

end Sequencer.Decimal
