import Sequencer.Decimal.Reader
import Sequencer.Json.Reader
import Sequencer.Text.RawText

/-!
# Tokens of OpenQASM source

At each position the first rule that matches wins, not the longest: comment,
string, decimal, integer, identifier, punctuation, blank. Comments and blanks
are dropped. A string token holds its text with the escapes resolved.
-/

namespace Sequencer.Qasm

structure Position where
  line : Nat
  column : Nat
  deriving DecidableEq, Repr

namespace Position

def start : Position := ⟨1, 1⟩

def advance (p : Position) (c : Char) : Position :=
  if c = '\n' then ⟨p.line + 1, 1⟩ else ⟨p.line, p.column + 1⟩

def advanceAll (p : Position) (cs : List Char) : Position := cs.foldl advance p

def text (file : String) (p : Position) : String :=
  let place := toString p.line ++ ":" ++ toString p.column
  if file.isEmpty then place else file ++ ":" ++ place

end Position

inductive TokenKind where
  | string | decimal | integer | identifier | punctuation | endOfText
  deriving DecidableEq, Repr

/-- A token, where it stands and where the text skipped before it begins; with
nothing skipped the two places agree. -/
structure Token where
  kind : TokenKind
  value : String
  pos : Position
  lead : Position
  deriving DecidableEq, Repr

inductive Lexeme where
  | token (kind : TokenKind)
  | dropped
  deriving DecidableEq, Repr

inductive LexError where
  | invalidText (pos : Position) (rest : List Char)
  | badString (pos : Position) (spelling : List Glyph)

namespace LexError

def pos : LexError → Position
  | .invalidText pos _ => pos
  | .badString pos _ => pos

def sample (rest : List Char) : String :=
  if 16 < rest.length then String.ofList (rest.take 16) ++ "..." else String.ofList rest

def message : LexError → String
  | .invalidText _ rest => "lexer: invalid input text " ++ Text.quote (sample rest)
  | .badString _ spelling =>
    "invalid quoted string \"" ++ String.ofList (spelling.flatMap Glyph.quoted) ++
      "\": invalid syntax"

def glyphsAt (target : Position) : Position → List Glyph → List Glyph
  | _, [] => []
  | pos, g :: rest =>
    if pos = target then g :: rest else glyphsAt target (pos.advance g.shown) rest

/-- The error with its spelling as it stands in the bytes of the text. -/
def respelled (source : RawText) : LexError → LexError
  | .badString pos spelling =>
    .badString pos ((glyphsAt pos .start source.glyphs).take spelling.length)
  | e => e

end LexError

def isBlank (c : Char) : Bool :=
  c = ' ' || c = '\t' || c = '\n' || c = '\r' || c.toNat = 12

def isLetter (c : Char) : Bool :=
  ('a' ≤ c && c ≤ 'z') || ('A' ≤ c && c ≤ 'Z') || c = '_'

def isLetterOrDigit (c : Char) : Bool := isLetter c || c.isDigit

abbrev Span := List Char × List Char

def takeComment? : List Char → Option Span
  | '/' :: '/' :: rest =>
    some ('/' :: '/' :: rest.takeWhile (· ≠ '\n'), rest.dropWhile (· ≠ '\n'))
  | _ => none

def takeString? : List Char → Option Span
  | '"' :: rest =>
    match rest.dropWhile (· ≠ '"') with
    | [] => none
    | q :: after => some ('"' :: rest.takeWhile (· ≠ '"') ++ [q], after)
  | _ => none

def takeExponent (cs : List Char) : Span :=
  match cs with
  | [] => ([], cs)
  | e :: rest =>
    if e = 'e' ∨ e = 'E' then
      let (sign, more) :=
        match rest with
        | '+' :: more => (['+'], more)
        | '-' :: more => (['-'], more)
        | _ => ([], rest)
      let (digits, after) := Decimal.spanDigits more
      if digits.isEmpty then ([], cs) else (e :: sign ++ digits, after)
    else ([], cs)

def takeDecimal? (cs : List Char) : Option Span :=
  let (whole, rest) := Decimal.spanDigits cs
  match rest with
  | '.' :: more =>
    let (fraction, after) := Decimal.spanDigits more
    if whole.isEmpty ∧ fraction.isEmpty then none
    else
      let (power, after) := takeExponent after
      some (whole ++ '.' :: fraction ++ power, after)
  | _ =>
    if whole.isEmpty then none
    else
      let (power, after) := takeExponent rest
      if power.isEmpty then none else some (whole ++ power, after)

def takeInteger? (cs : List Char) : Option Span :=
  let (digits, rest) := Decimal.spanDigits cs
  if digits.isEmpty then none else some (digits, rest)

def takeIdentifier? : List Char → Option Span
  | [] => none
  | c :: rest =>
    if isLetter c then some (c :: rest.takeWhile isLetterOrDigit, rest.dropWhile isLetterOrDigit)
    else none

def punctuationMarks : List Char :=
  ['-', '+', '*', '/', '^', '(', ')', ',', ';', '[', ']', '\x7b', '\x7d']

def takePunctuation? : List Char → Option Span
  | '-' :: '>' :: rest => some (['-', '>'], rest)
  | '=' :: '=' :: rest => some (['=', '='], rest)
  | c :: rest => if punctuationMarks.contains c then some ([c], rest) else none
  | [] => none

def takeBlanks? (cs : List Char) : Option Span :=
  let blank := cs.takeWhile isBlank
  if blank.isEmpty then none else some (blank, cs.dropWhile isBlank)

def rules : List (Lexeme × (List Char → Option Span)) :=
  [(.dropped, takeComment?),
   (.token .string, takeString?),
   (.token .decimal, takeDecimal?),
   (.token .integer, takeInteger?),
   (.token .identifier, takeIdentifier?),
   (.token .punctuation, takePunctuation?),
   (.dropped, takeBlanks?)]

def nextLexeme? (cs : List Char) : Option (Lexeme × Span) :=
  rules.findSome? fun r => (r.2 cs).map fun span => (r.1, span)

def hexNumber? (digits : List Char) : Option Nat :=
  digits.foldl (fun n c => n.bind fun n => (Json.hexValue? c).map (16 * n + ·)) (some 0)

def escapedCode? (width : Nat) (cs : List Char) : Option (Nat × List Char) :=
  let digits := cs.take width
  if digits.length < width then none
  else (hexNumber? digits).map fun n => (n, cs.drop width)

def isScalar (n : Nat) : Bool := n < 0xd800 || (0xe000 ≤ n && n < 0x110000)

def isOctal (c : Char) : Bool := '0' ≤ c && c ≤ '7'

def unescape? : List Char → Option (Char × List Char)
  | 'a' :: rest => some (Char.ofNat 7, rest)
  | 'b' :: rest => some (Char.ofNat 8, rest)
  | 'f' :: rest => some (Char.ofNat 12, rest)
  | 'n' :: rest => some ('\n', rest)
  | 'r' :: rest => some ('\r', rest)
  | 't' :: rest => some ('\t', rest)
  | 'v' :: rest => some (Char.ofNat 11, rest)
  | '\\' :: rest => some ('\\', rest)
  | '"' :: rest => some ('"', rest)
  | 'x' :: rest => (escapedCode? 2 rest).map fun e => (Char.ofNat e.1, e.2)
  | 'u' :: rest =>
    (escapedCode? 4 rest).bind fun e => if isScalar e.1 then some (Char.ofNat e.1, e.2) else none
  | 'U' :: rest =>
    (escapedCode? 8 rest).bind fun e => if isScalar e.1 then some (Char.ofNat e.1, e.2) else none
  | a :: b :: c :: rest =>
    if isOctal a && isOctal b && isOctal c then
      let n := (Decimal.digitValue a * 8 + Decimal.digitValue b) * 8 + Decimal.digitValue c
      if n < 256 then some (Char.ofNat n, rest) else none
    else none
  | _ => none

def unquote? : Nat → List Char → Option (List Char)
  | _, [] => some []
  | 0, _ => none
  | fuel + 1, '\\' :: rest =>
    match unescape? rest with
    | none => none
    | some (c, after) => (unquote? fuel after).map (c :: ·)
  | fuel + 1, c :: rest => (unquote? fuel rest).map (c :: ·)

def tokenValue? (kind : TokenKind) (spelling : List Char) : Option String :=
  match kind with
  | .string =>
    let inner := (spelling.drop 1).dropLast
    (unquote? inner.length inner).map String.ofList
  | _ => some (String.ofList spelling)

/-- The tokens of the text and the position of its end. `lead` is where the
last token ended. -/
def tokenizeFrom : Nat → Position → Position → List Char → Except LexError (List Token × Position)
  | _, _, pos, [] => .ok ([], pos)
  | 0, _, pos, cs => .error (.invalidText pos cs)
  | fuel + 1, lead, pos, cs =>
    match nextLexeme? cs with
    | none => .error (.invalidText pos cs)
    | some (lexeme, spelling, rest) =>
      let after := pos.advanceAll spelling
      match lexeme with
      | .dropped => tokenizeFrom fuel lead after rest
      | .token kind =>
        match tokenValue? kind spelling with
        | none => .error (.badString pos (spelling.map .char))
        | some value => do
          let (tokens, final) ← tokenizeFrom fuel after after rest
          return (⟨kind, value, pos, lead⟩ :: tokens, final)

def tokenize (text : String) : Except LexError (List Token × Position) :=
  let cs := text.toList
  tokenizeFrom cs.length .start .start cs

end Sequencer.Qasm
