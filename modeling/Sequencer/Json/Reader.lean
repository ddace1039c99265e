import Sequencer.Json.Value

/-!
# Reading JSON

`Json.read?` reads the first value of a text and ignores whatever follows it.
A surrogate escape without its partner reads as U+FFFD. The readers recurse on
a bound that is at least the number of characters left, so it never runs out.
-/

namespace Sequencer.Json

def isBlank (c : Char) : Bool := c = ' ' || c = '\t' || c = '\n' || c = '\r'

def skipBlanks (cs : List Char) : List Char := cs.dropWhile isBlank

def hexValue? (c : Char) : Option Nat :=
  if c.isDigit then some (c.toNat - '0'.toNat)
  else if 'a' ≤ c ∧ c ≤ 'f' then some (c.toNat - 'a'.toNat + 10)
  else if 'A' ≤ c ∧ c ≤ 'F' then some (c.toNat - 'A'.toNat + 10)
  else none

def readHex4? : List Char → Option (Nat × List Char)
  | a :: b :: c :: d :: rest => do
    let a ← hexValue? a
    let b ← hexValue? b
    let c ← hexValue? c
    let d ← hexValue? d
    return (((a * 16 + b) * 16 + c) * 16 + d, rest)
  | _ => none

def replacement : Char := Char.ofNat 0xfffd

/-- The character of the code unit before `rest`, joined with the low surrogate
that follows a high one. -/
def joinSurrogate (unit : Nat) (rest : List Char) : Char × List Char :=
  if 0xd800 ≤ unit ∧ unit < 0xdc00 then
    match rest with
    | '\\' :: 'u' :: more =>
      match readHex4? more with
      | some (low, after) =>
        if 0xdc00 ≤ low ∧ low < 0xe000 then
          (Char.ofNat (0x10000 + (unit - 0xd800) * 0x400 + (low - 0xdc00)), after)
        else (replacement, rest)
      | none => (replacement, rest)
    | _ => (replacement, rest)
  else if 0xdc00 ≤ unit ∧ unit < 0xe000 then (replacement, rest)
  else (Char.ofNat unit, rest)

/-- The characters up to the closing quote, in reverse before `acc`. -/
def readChars : Nat → List Char → List Char → Option (String × List Char)
  | 0, _, _ => none
  | fuel + 1, cs, acc =>
    match cs with
    | [] => none
    | '"' :: rest => some (String.ofList acc.reverse, rest)
    | '\\' :: rest =>
      match rest with
      | '"' :: more => readChars fuel more ('"' :: acc)
      | '\\' :: more => readChars fuel more ('\\' :: acc)
      | '/' :: more => readChars fuel more ('/' :: acc)
      | 'b' :: more => readChars fuel more (Char.ofNat 8 :: acc)
      | 'f' :: more => readChars fuel more (Char.ofNat 12 :: acc)
      | 'n' :: more => readChars fuel more ('\n' :: acc)
      | 'r' :: more => readChars fuel more ('\r' :: acc)
      | 't' :: more => readChars fuel more ('\t' :: acc)
      | 'u' :: more =>
        match readHex4? more with
        | none => none
        | some (unit, after) =>
          let (c, after) := joinSurrogate unit after
          readChars fuel after (c :: acc)
      | _ => none
    | c :: rest => if c.toNat < 0x20 then none else readChars fuel rest (c :: acc)

def spanDigits (cs : List Char) : List Char × List Char :=
  (cs.takeWhile Char.isDigit, cs.dropWhile Char.isDigit)

def readWhole? (cs : List Char) : Option (List Char × List Char) :=
  match cs with
  | '0' :: rest => some (['0'], rest)
  | _ =>
    let (digits, rest) := spanDigits cs
    if digits.isEmpty then none else some (digits, rest)

def readFraction? : List Char → Option (List Char × List Char)
  | '.' :: rest =>
    let (digits, after) := spanDigits rest
    if digits.isEmpty then none else some ('.' :: digits, after)
  | cs => some ([], cs)

def readPower? : List Char → Option (List Char × List Char)
  | e :: rest =>
    if e = 'e' ∨ e = 'E' then
      let (sign, rest) :=
        match rest with
        | '+' :: more => (['+'], more)
        | '-' :: more => (['-'], more)
        | _ => ([], rest)
      let (digits, after) := spanDigits rest
      if digits.isEmpty then none else some (e :: sign ++ digits, after)
    else some ([], e :: rest)
  | [] => some ([], [])

def readNumber? (cs : List Char) : Option (Json × List Char) := do
  let (sign, cs) :=
    match cs with
    | '-' :: rest => (['-'], rest)
    | _ => ([], cs)
  let (whole, cs) ← readWhole? cs
  let (fraction, cs) ← readFraction? cs
  let (power, cs) ← readPower? cs
  return (.number (String.ofList (sign ++ whole ++ fraction ++ power)), cs)

def readWord? (word : String) (value : Json) (cs : List Char) : Option (Json × List Char) :=
  let size := word.length
  if cs.take size = word.toList then some (value, cs.drop size) else none

def depthLimit : Nat := 10000

mutual
def readValue : Nat → Nat → List Char → Option (Json × List Char)
  | 0, _, _ => none
  | fuel + 1, depth, cs =>
    match skipBlanks cs with
    | [] => none
    | '"' :: rest => (readChars (rest.length + 1) rest []).map fun r => (.string r.1, r.2)
    | '[' :: rest =>
      if depthLimit ≤ depth then none
      else
        match skipBlanks rest with
        | ']' :: more => some (.array [], more)
        | more => readItems fuel (depth + 1) more []
    | c :: rest =>
      if c = '\x7b' then
        if depthLimit ≤ depth then none
        else
          match skipBlanks rest with
          | d :: more =>
            if d = '\x7d' then some (.object [], more)
            else readMembers fuel (depth + 1) (d :: more) []
          | [] => none
      else if c = 't' then readWord? "true" (.bool true) (c :: rest)
      else if c = 'f' then readWord? "false" (.bool false) (c :: rest)
      else if c = 'n' then readWord? "null" .null (c :: rest)
      else readNumber? (c :: rest)
def readItems : Nat → Nat → List Char → List Json → Option (Json × List Char)
  | 0, _, _, _ => none
  | fuel + 1, depth, cs, acc =>
    match readValue fuel depth cs with
    | none => none
    | some (item, rest) =>
      match skipBlanks rest with
      | ',' :: more => readItems fuel depth more (item :: acc)
      | ']' :: more => some (.array (item :: acc).reverse, more)
      | _ => none
def readMembers : Nat → Nat → List Char → List (String × Json) → Option (Json × List Char)
  | 0, _, _, _ => none
  | fuel + 1, depth, cs, acc =>
    match skipBlanks cs with
    | '"' :: rest =>
      match readChars (rest.length + 1) rest [] with
      | none => none
      | some (name, rest) =>
        match skipBlanks rest with
        | ':' :: more =>
          match readValue fuel depth more with
          | none => none
          | some (value, rest) =>
            match skipBlanks rest with
            | ',' :: more => readMembers fuel depth more ((name, value) :: acc)
            | c :: more =>
              if c = '\x7d' then some (.object ((name, value) :: acc).reverse, more) else none
            | [] => none
        | _ => none
    | _ => none
end

def read? (text : String) : Option Json :=
  let cs := text.toList
  (readValue (2 * cs.length + 2) 0 cs).map Prod.fst

end Sequencer.Json
