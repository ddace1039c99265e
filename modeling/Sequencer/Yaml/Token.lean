import Sequencer.Json.Reader
import Sequencer.Yaml.Cursor

/-!
# YAML tokens

Marks of structure and scalars. A scalar token holds its text with line folds
and escapes resolved. This module reads single tokens; their order is the
tokenizer's work.
-/

namespace Sequencer.Yaml

inductive Token where
  | streamStart | streamEnd
  | version (major minor : Nat)
  | tagDirective (handle stem : String)
  | documentStart | documentEnd
  | blockSequenceStart | blockMappingStart | blockEnd
  | flowSequenceStart | flowSequenceEnd
  | flowMappingStart | flowMappingEnd
  | blockEntry | flowEntry
  | key | value
  | alias (name : String)
  | anchor (name : String)
  | tag (handle suffix : String)
  | scalar (text : String) (plain : Bool)
  deriving DecidableEq, Repr

open Scan

structure Gap where
  blanks : List Char := []
  firstBreak : List Char := []
  laterBreaks : List Char := []
  broken : Bool := false

namespace Gap

def folded (g : Gap) : List Char :=
  if !g.broken then g.blanks
  else if g.firstBreak = ['\n'] then
    if g.laterBreaks.isEmpty then [' '] else g.laterBreaks
  else g.firstBreak ++ g.laterBreaks

def addBlank (g : Gap) (ch : Char) : Gap :=
  if g.broken then g else { g with blanks := g.blanks ++ [ch] }

def addBreak (g : Gap) (text : List Char) : Gap :=
  if g.broken then { g with laterBreaks := g.laterBreaks ++ text }
  else { g with blanks := [], firstBreak := text, broken := true }

/-- Reads a gap. After a break, a tab before column `limit` is not allowed. -/
def readUpTo (limit : Int) : Nat → Gap → Scan Gap
  | 0, g => return g
  | fuel + 1, g => do
    let ch ← here
    if isBlank ch then
      if g.broken && ((← get).column : Int) < limit && ch = '\t' then failure
      advance
      readUpTo limit fuel (g.addBlank ch)
    else if isBreak ch then
      let text ← lineBreak
      need 1
      readUpTo limit fuel (g.addBreak text)
    else return g

def read (limit : Int) (g : Gap) : Scan Gap := do
  need 1
  readUpTo limit ((← get).size + 1) g

end Gap

-- ---------------------------------------------------------------------------
-- Quoted scalars
-- ---------------------------------------------------------------------------

def namedEscape? (c : Char) : Option Char :=
  match c with
  | '0' => some (Char.ofNat 0)
  | 'a' => some (Char.ofNat 7)
  | 'b' => some (Char.ofNat 8)
  | 't' => some '\t'
  | '\t' => some '\t'
  | 'n' => some '\n'
  | 'v' => some (Char.ofNat 11)
  | 'f' => some (Char.ofNat 12)
  | 'r' => some '\r'
  | 'e' => some (Char.ofNat 27)
  | ' ' => some ' '
  | '"' => some '"'
  | '\'' => some '\''
  | '\\' => some '\\'
  | 'N' => some nextLine
  | '_' => some (Char.ofNat 0xa0)
  | 'L' => some lineSeparator
  | 'P' => some paragraphSeparator
  | _ => none

def escapeDigits? (c : Char) : Option Nat :=
  match c with
  | 'x' => some 2
  | 'u' => some 4
  | 'U' => some 8
  | _ => none

def hexNumber? (digits : List Char) : Option Nat :=
  digits.foldl (fun n c => n.bind fun n => (Json.hexValue? c).map (16 * n + ·)) (some 0)

def skipMany : Nat → Scan Unit
  | 0 => return ()
  | n + 1 => do
    skip
    skipMany n

def readEscape : Scan Char := do
  let mark ← ahead 1
  match namedEscape? mark with
  | some ch =>
    skipMany 2
    return ch
  | none =>
    let width ← escapeDigits? mark
    skipMany 2
    need width
    let digits := (← get).rest.take width
    if digits.length < width then failure
    let n ← hexNumber? digits
    if !Glyph.isScalar n then failure
    skipMany width
    return Char.ofNat n

/-- The characters of a quoted scalar up to a separator, a closing quote or an
escaped break, in reverse, and whether it was the last. -/
def readQuotedRun (quote : Char) : Nat → List Char → Scan (List Char × Bool)
  | 0, acc => return (acc, false)
  | fuel + 1, acc => do
    let ch ← here
    if isGapOrEnd ch then return (acc, false)
    else if ch = quote then
      if quote = '\'' ∧ (← ahead 1) = '\'' then
        skipMany 2
        need 2
        readQuotedRun quote fuel ('\'' :: acc)
      else return (acc, false)
    else if ch = '\\' ∧ quote = '"' then
      if isBreak (← ahead 1) then
        need 3
        skip
        modify Cursor.skipBreak
        return (acc, true)
      else
        let e ← readEscape
        need 2
        readQuotedRun quote fuel (e :: acc)
    else
      skip
      need 2
      readQuotedRun quote fuel (ch :: acc)

def readQuotedFrom (quote : Char) : Nat → List Char → Scan (List Char)
  | 0, _ => failure
  | fuel + 1, acc => do
    need 4
    if (← get).atAnyDocumentMark || (← isAt endMark) then failure
    let (acc, escapedBreak) ← readQuotedRun quote ((← get).size + 1) acc
    need 1
    if ← isAt quote then
      skip
      return acc.reverse
    else
      let g ← Gap.read 0 { broken := escapedBreak }
      readQuotedFrom quote fuel (g.folded.reverse ++ acc)

def readQuoted (quote : Char) : Scan String := do
  skip
  return String.ofList (← readQuotedFrom quote ((← get).size + 1) [])

-- ---------------------------------------------------------------------------
-- Plain scalars
-- ---------------------------------------------------------------------------

def flowMarks : List Char := [',', '?', '[', ']', '\x7b', '\x7d']

def endsPlain (inFlow : Bool) (c : Cursor) : Bool :=
  let ch := c.ahead 0
  (ch = ':' && isGapOrEnd (c.ahead 1)) || (inFlow && flowMarks.contains ch)

def readPlainRun (inFlow : Bool) : Nat → List Char → Scan (List Char)
  | 0, acc => return acc.reverse
  | fuel + 1, acc => do
    let ch ← here
    if isGapOrEnd ch || endsPlain inFlow (← get) then return acc.reverse
    skip
    need 2
    readPlainRun inFlow fuel (ch :: acc)

/-- A plain scalar goes on over gaps, as long as it stays indented. The last
component tells that it ended at a break. -/
def readPlainFrom (inFlow : Bool) (indent : Int) : Nat → List Char → Gap → Scan (List Char × Bool)
  | 0, acc, g => return (acc, g.broken)
  | fuel + 1, acc, g => do
    need 4
    if (← get).atAnyDocumentMark || (← isAt '#') then return (acc, g.broken)
    let run ← readPlainRun inFlow ((← get).size + 1) []
    let acc := if run.isEmpty then acc else acc ++ g.folded ++ run
    let g := if run.isEmpty then g else {}
    if !isSeparator (← here) then return (acc, g.broken)
    let g ← Gap.read indent g
    if !inFlow && ((← get).column : Int) < indent then return (acc, g.broken)
    readPlainFrom inFlow indent fuel acc g

def readPlain (inFlow : Bool) (indent : Int) : Scan (String × Bool) := do
  let (text, broken) ← readPlainFrom inFlow indent ((← get).size + 1) [] {}
  return (String.ofList text, broken)

-- ---------------------------------------------------------------------------
-- Block scalars
-- ---------------------------------------------------------------------------

inductive Chomping where
  | strip | clip | keep
  deriving DecidableEq

def readChomping : Scan (Option Chomping) := do
  let ch ← here
  if ch = '+' then
    skip
    return some .keep
  else if ch = '-' then
    skip
    return some .strip
  else return none

/-- An indentation of one digit, which is not zero; zero when there is none. -/
def readIncrement : Scan Nat := do
  let ch ← here
  if ch = '0' then failure
  if ch.isDigit then
    skip
    return ch.toNat - '0'.toNat
  else return 0

def readBlockHeader : Scan (Chomping × Nat) := do
  need 1
  match ← readChomping with
  | some chomping =>
    need 1
    return (chomping, ← readIncrement)
  | none =>
    let increment ← readIncrement
    if increment = 0 then return (.clip, 0)
    need 1
    return ((← readChomping).getD .clip, increment)

def skipSpaces (indent : Nat) : Nat → Scan Unit
  | 0 => return ()
  | fuel + 1 => do
    if (indent = 0 ∨ (← get).column < indent) ∧ (← here) = ' ' then
      advance
      skipSpaces indent fuel

/-- Indentation and empty lines. An indentation of zero is not yet known; the
widest column seen is returned beside the breaks. -/
def readBlockBreaks (indent : Nat) : Nat → Nat → List Char → Scan (Nat × List Char)
  | 0, widest, breaks => return (widest, breaks)
  | fuel + 1, widest, breaks => do
    need 1
    skipSpaces indent ((← get).size + 1)
    let column := (← get).column
    let widest := max widest column
    let ch ← here
    if (indent = 0 ∨ column < indent) ∧ ch = '\t' then failure
    if isBreak ch then
      let text ← lineBreak
      readBlockBreaks indent fuel widest (breaks ++ text)
    else return (widest, breaks)

structure BlockLines where
  text : List Char := []
  leadingBreak : List Char := []
  trailingBreaks : List Char := []
  leadingBlank : Bool := false

def readBlockLines (literal : Bool) (indent : Nat) : Nat → BlockLines → Scan BlockLines
  | 0, b => return b
  | fuel + 1, b => do
    let ch ← here
    if (← get).column ≠ indent ∨ ch = endMark then return b
    let blank := isBlank ch
    let fold := !literal && !b.leadingBlank && !blank && b.leadingBreak == ['\n']
    let joint :=
      if fold then (if b.trailingBreaks.isEmpty then [' '] else []) else b.leadingBreak
    let line ← span fun ch => !isBreakOrEnd ch
    let text := b.text ++ joint ++ b.trailingBreaks ++ line
    let leadingBreak ← lineBreak
    let (_, breaks) ← readBlockBreaks indent ((← get).size + 1) 0 []
    readBlockLines literal indent fuel ⟨text, leadingBreak, breaks, blank⟩

def readBlock (parent : Int) : Scan String := do
  let literal ← isAt '|'
  skip
  let (chomping, increment) ← readBlockHeader
  restOfLine
  let declared : Nat :=
    if increment = 0 then 0
    else if 0 ≤ parent then (parent + increment).toNat
    else increment
  let size := (← get).size + 1
  let (widest, breaks) ← readBlockBreaks declared size 0 []
  let indent := if declared = 0 then max (max widest (parent + 1).toNat) 1 else declared
  need 1
  let b ← readBlockLines literal indent size { trailingBreaks := breaks }
  let tail :=
    match chomping with
    | .strip => []
    | .clip => b.leadingBreak
    | .keep => b.leadingBreak ++ b.trailingBreaks
  return String.ofList (b.text ++ tail)

-- ---------------------------------------------------------------------------
-- Anchors, tags and directives
-- ---------------------------------------------------------------------------

def anchorEnds : List Char := ['?', ':', ',', ']', '\x7d', '%', '@', Char.ofNat 96]

def readName : Scan String := do
  advance
  let name ← span isWordChar
  let ch ← here
  if name.isEmpty || !(isGapOrEnd ch || anchorEnds.contains ch) then failure
  return String.ofList name

def uriMarks : List Char :=
  [';', '/', '?', ':', '@', '&', '=', '+', '$', ',', '.', '!', '~', '*', '\'', '(', ')', '[', ']', '%']

def isUriChar (c : Char) : Bool := isWordChar c || uriMarks.contains c

def readUriByte : Scan UInt8 := do
  need 3
  if (← here) ≠ '%' then failure
  let high ← Json.hexValue? (← ahead 1)
  let low ← Json.hexValue? (← ahead 2)
  skipMany 3
  return UInt8.ofNat (16 * high + low)

def readUriTail : Nat → Scan (List UInt8)
  | 0 => return []
  | n + 1 => do
    let b ← readUriByte
    if !Glyph.isTail b then failure
    return b :: (← readUriTail n)

def readUriEscape : Scan (List UInt8) := do
  let b ← readUriByte
  let (width, _) ← Encoding.announced? b.toNat
  return b :: (← readUriTail (width - 1))

def readUriFrom : Nat → List UInt8 → Scan (List UInt8)
  | 0, acc => return acc
  | fuel + 1, acc => do
    let ch ← here
    if !isUriChar ch then return acc
    let bytes ←
      if ch = '%' then readUriEscape
      else do
        skip
        pure (String.utf8EncodeChar ch)
    need 1
    readUriFrom fuel (acc ++ bytes)

def readUri (start : String) : Scan String := do
  need 1
  let bytes ← readUriFrom ((← get).size + 1) []
  return start ++ (RawText.mk bytes).shown

def readHandle : Scan String := do
  need 1
  if !(← isAt '!') then failure
  advance
  let word ← span isWordChar
  if ← isAt '!' then
    skip
    return "!" ++ String.ofList word ++ "!"
  else return "!" ++ String.ofList word

def isFullHandle (handle : String) : Bool := 1 < handle.length && handle.endsWith "!"

def readTagParts : Scan (String × String) := do
  need 2
  if (← ahead 1) = '<' then
    skipMany 2
    let uri ← readUri ""
    if uri.isEmpty || !(← isAt '>') then failure
    skip
    return ("", uri)
  else
    let handle ← readHandle
    if isFullHandle handle then
      let suffix ← readUri ""
      if suffix.isEmpty then failure
      return (handle, suffix)
    else
      let suffix ← readUri (handle.drop 1).toString
      if suffix.isEmpty then return ("", "!") else return ("!", suffix)

def readTag : Scan Token := do
  let (handle, suffix) ← readTagParts
  need 1
  if !isGapOrEnd (← here) then failure
  return .tag handle suffix

def readVersionPart : Scan Nat := do
  need 1
  let digits ← span Char.isDigit
  if digits.isEmpty || 2 < digits.length then failure
  return digits.foldl (fun n d => 10 * n + (d.toNat - '0'.toNat)) 0

def readVersion : Scan Token := do
  need 1
  skipBlanks
  let major ← readVersionPart
  if !(← isAt '.') then failure
  skip
  return .version major (← readVersionPart)

def readTagDirective : Scan Token := do
  need 1
  skipBlanks
  let handle ← readHandle
  if handle ≠ "!" && !isFullHandle handle then failure
  need 1
  if !isBlank (← here) then failure
  skipBlanks
  let stem ← readUri ""
  need 1
  if stem.isEmpty || !isGapOrEnd (← here) then failure
  return .tagDirective handle stem

def readDirective : Scan Token := do
  skip
  need 1
  let name := String.ofList (← span isWordChar)
  if name.isEmpty || !isGapOrEnd (← here) then failure
  let t ← if name = "YAML" then readVersion else if name = "TAG" then readTagDirective else failure
  restOfLine
  return t

end Sequencer.Yaml
