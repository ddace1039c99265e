import Sequencer.Decimal.Reader
import Sequencer.Integer
import Sequencer.Text.Base64

/-!
# What plain scalars stand for

A plain scalar without a tag is a null, a truth value, a number or a date when
it is spelt like one, and a text otherwise. The first character decides what
is tried.
-/

namespace Sequencer.Yaml

inductive Value where
  | null
  | bool (b : Bool)
  | int (n : Int)
  | float (x : Float)
  | timestamp
  | text
  | binary (bytes : List UInt8)

inductive TagKind where
  | untagged | text | bool | int | float | null | timestamp | binary
  /-- Any other tag: the scalar is a text. -/
  | foreign
  deriving DecidableEq

def TagKind.ofTag (tag : String) : TagKind :=
  if tag = "" then .untagged
  else if tag = "tag:yaml.org,2002:str" then .text
  else if tag = "tag:yaml.org,2002:bool" then .bool
  else if tag = "tag:yaml.org,2002:int" then .int
  else if tag = "tag:yaml.org,2002:float" then .float
  else if tag = "tag:yaml.org,2002:null" then .null
  else if tag = "tag:yaml.org,2002:timestamp" then .timestamp
  else if tag = "tag:yaml.org,2002:binary" then .binary
  else .foreign

def Value.kind : Value → TagKind
  | .null => .null
  | .bool _ => .bool
  | .int _ => .int
  | .float _ => .float
  | .timestamp => .timestamp
  | .text => .text
  | .binary _ => .binary

def trueWords : List String :=
  ["y", "Y", "yes", "Yes", "YES", "true", "True", "TRUE", "on", "On", "ON"]

def falseWords : List String :=
  ["n", "N", "no", "No", "NO", "false", "False", "FALSE", "off", "Off", "OFF"]

def nullWords : List String := ["", "~", "null", "Null", "NULL"]

def notANumberWords : List String := [".nan", ".NaN", ".NAN"]

def infinityWords : List String := [".inf", ".Inf", ".INF", "+.inf", "+.Inf", "+.INF"]

def negativeInfinityWords : List String := ["-.inf", "-.Inf", "-.INF"]

def wordValue? (s : String) : Option Value :=
  if nullWords.contains s then some .null
  else if trueWords.contains s then some (.bool true)
  else if falseWords.contains s then some (.bool false)
  else if notANumberWords.contains s then some (.float (0.0 / 0.0))
  else if infinityWords.contains s then some (.float (1.0 / 0.0))
  else if negativeInfinityWords.contains s then some (.float (-1.0 / 0.0))
  else none

-- ---------------------------------------------------------------------------
-- Dates
-- ---------------------------------------------------------------------------

def daysIn (year month : Nat) : Nat :=
  match month with
  | 2 => if year % 4 = 0 ∧ (year % 100 ≠ 0 ∨ year % 400 = 0) then 29 else 28
  | 4 | 6 | 9 | 11 => 30
  | _ => 31

def shortNumber? (cs : List Char) : Option (Nat × List Char) :=
  let digits := (cs.take 2).takeWhile Char.isDigit
  if digits.isEmpty then none
  else some (Decimal.foldDigits 0 digits, cs.drop digits.length)

def expect? (ch : Char) : List Char → Option (List Char)
  | c :: rest => if c = ch then some rest else none
  | [] => none

def date? (cs : List Char) : Option (List Char) := do
  let year := cs.take 4
  if year.length < 4 ∨ !year.all Char.isDigit then none
  let rest ← expect? '-' (cs.drop 4)
  let (month, rest) ← shortNumber? rest
  let rest ← expect? '-' rest
  let (day, rest) ← shortNumber? rest
  if month < 1 ∨ 12 < month ∨ day < 1 ∨ daysIn (Decimal.foldDigits 0 year) month < day then none
  return rest

def clock? (cs : List Char) : Option (List Char) := do
  let (hour, rest) ← shortNumber? cs
  let rest ← expect? ':' rest
  let (minute, rest) ← shortNumber? rest
  let rest ← expect? ':' rest
  let (second, rest) ← shortNumber? rest
  if 24 ≤ hour ∨ 60 ≤ minute ∨ 60 ≤ second then none
  match rest with
  | p :: d :: _ =>
    if (p = '.' ∨ p = ',') ∧ d.isDigit then return (rest.drop 1).dropWhile Char.isDigit
    else return rest
  | _ => return rest

def isZone : List Char → Bool
  | ['Z'] => true
  | [sign, a, b, ':', c, d] =>
    (sign = '+' || sign = '-') && [a, b, c, d].all Char.isDigit &&
      Decimal.foldDigits 0 [a, b] ≤ 24 && Decimal.foldDigits 0 [c, d] ≤ 60
  | _ => false

def isTimestamp (s : String) : Bool :=
  match date? s.toList with
  | none => false
  | some [] => true
  | some (' ' :: rest) => clock? rest == some []
  | some (t :: rest) => (t = 'T' || t = 't') && ((clock? rest).map isZone).getD false

-- ---------------------------------------------------------------------------
-- Numbers
-- ---------------------------------------------------------------------------

/-- An integer below `2 ^ 64`; a magnitude beyond the signed range has no sign. -/
def wholeNumber? (s : String) : Option Int :=
  match Decimal.readIntAnyBase s with
  | .ok n => some n
  | .error _ =>
    match s.toList with
    | c :: _ =>
      if c = '+' ∨ c = '-' then none
      else
        let (base, digits) := Decimal.splitBase s.toList
        ((Decimal.readDigits base 0 digits).toOption).map fun n => (n : Int)
    | [] => none

def decimalNumber? (s : String) : Option Float :=
  if s.toList.all fun c => c.isDigit || ['+', '-', '.', 'e', 'E'].contains c then
    (Decimal.readFloat s).toOption
  else none

/-- Binary digits after their mark, which may have a sign of their own. -/
def binaryNumber? (s : String) : Option Int :=
  match s.toList with
  | '0' :: 'b' :: rest =>
    match Decimal.splitSign rest with
    | (negative, digits) =>
      if digits.isEmpty then none
      else
        match Decimal.readDigits 2 0 digits >>= Decimal.signedRange negative with
        | .ok n => some n
        | .error _ =>
          if digits.length < rest.length then none
          else (Decimal.readDigits 2 0 digits).toOption.map fun n => (n : Int)
  | _ => none

def numberValue? (s : String) : Option Value :=
  let plain := String.ofList (Decimal.withoutUnderscores s.toList)
  match wholeNumber? plain with
  | some n => some (.int n)
  | none =>
    match decimalNumber? plain with
    | some x => some (.float x)
    | none => (binaryNumber? plain).map .int

def plainValue (dated : Bool) (s : String) : Value :=
  match wordValue? s with
  | some v => v
  | none =>
    match s.toList with
    | [] => .text
    | c :: _ =>
      if c = '.' then (((Decimal.readFloat s).toOption).map .float).getD .text
      else if c.isDigit ∨ c = '+' ∨ c = '-' then
        if dated && isTimestamp s then .timestamp else (numberValue? s).getD .text
      else .text

def taggedValue? (kind : TagKind) (s : String) : Option Value :=
  let found := plainValue (kind = .untagged || kind = .timestamp) s
  match kind with
  | .untagged => some found
  | .text | .foreign => some .text
  | .binary => (Text.Base64.decode? s).map .binary
  | .float =>
    match found with
    | .int n => if n < Integer.bound then some (.float (Float.ofInt n)) else none
    | .float x => some (.float x)
    | _ => none
  | kind => if found.kind = kind then some found else none

/-- Sexagesimal numbers are texts here, and others read them as numbers. -/
def isSexagesimal (s : String) : Bool :=
  let cs := (Decimal.splitSign s.toList).2
  match cs with
  | d :: rest =>
    if !d.isDigit then false
    else
      let groups := (String.ofList (rest.dropWhile fun c => c.isDigit || c = '_')).splitOn ":"
      match groups with
      | "" :: parts@(_ :: _) =>
        let last := parts.getLastD ""
        let (whole, fraction) := (last.toList.takeWhile (· ≠ '.'), last.toList.dropWhile (· ≠ '.'))
        let isGroup (g : List Char) : Bool :=
          match g with
          | [a] => a.isDigit
          | [a, b] => '0' ≤ a && a ≤ '5' && b.isDigit
          | _ => false
        (parts.dropLast.all fun g => isGroup g.toList) && isGroup whole &&
          (fraction.drop 1).all fun c => c.isDigit || c = '_'
      | _ => false
  | [] => false

end Sequencer.Yaml
