import Sequencer.Yaml.Cursor
import Sequencer.Yaml.Resolution

/-!
# Writing YAML texts

Block mappings of scalars. A text is written plainly when it would be read back
as itself, in single quotes when its characters would be taken for structure,
in double quotes when it would be read as something else than a text or has
characters that need an escape, and as a literal block when it has several
lines. Lines are broken at blanks beyond column 80. A text that is not well
formed is written in base 64.
-/

namespace Sequencer.Yaml

def bestWidth : Nat := 80

def isShown (c : Char) : Bool :=
  let n := c.toNat
  n = 0x0a || (0x20 ≤ n && n ≤ 0x7e) || (0xa0 ≤ n && n ≤ 0xfffd && n ≠ 0xfeff)

structure Shape where
  plain : Bool
  singleQuoted : Bool
  block : Bool

def startMarks : List Char :=
  ['#', ',', '[', ']', '\x7b', '\x7d', '&', '*', '!', '|', '>', '\'', '"', '%', '@', Char.ofNat 96]

def withNeighbours : Option Char → List Char → List (Option Char × Char × Option Char)
  | _, [] => []
  | before, c :: rest => (before, c, rest.head?) :: withNeighbours (some c) rest

def isMark (e : Option Char × Char × Option Char) : Bool :=
  let (before, c, after) := e
  let spaced := (after.map isBlank).getD true
  (before.isNone && startMarks.contains c) ||
    (before.isNone && (c = '?' || c = '-') && spaced) ||
    (c = ':' && spaced) ||
    (c = '#' && (before.map isSeparator).getD true)

def Shape.of (s : String) : Shape :=
  let cs := s.toList
  let around := withNeighbours none cs
  let marks := around.any isMark || cs.take 3 == ['-', '-', '-'] || cs.take 3 == ['.', '.', '.']
  let edge (c : Option Char) : Bool := (c.map fun c => c = ' ' || isBreak c).getD false
  let hidden := cs.any fun c => !isShown c
  let breakSpace := around.any fun e => (e.1.map isBreak).getD false && e.2.1 = ' '
  let spaceBreak := around.any fun e => e.1 == some ' ' && isBreak e.2.1
  let endsBlank := cs.getLast? == some ' '
  { plain := !(marks || edge cs.head? || edge cs.getLast? || hidden || cs.any isBreak)
    singleQuoted := !(breakSpace || spaceBreak || hidden)
    block := !cs.isEmpty && !(endsBlank || spaceBreak || hidden) }

def readsAsText (s : String) : Bool :=
  match plainValue true s with
  | .text => !isSexagesimal s
  | _ => false

-- ---------------------------------------------------------------------------
-- The page
-- ---------------------------------------------------------------------------

/-- What is written so far, in reverse, and where the next character goes. -/
structure Page where
  written : List Char := []
  column : Nat := 0
  spaced : Bool := true
  fresh : Bool := true

namespace Page

def text (p : Page) : String := String.ofList p.written.reverse

def put (p : Page) (c : Char) : Page := { p with written := c :: p.written, column := p.column + 1 }

def puts (p : Page) (cs : List Char) : Page := cs.foldl put p

def putBreak (p : Page) (c : Char) : Page := { p with written := c :: p.written, column := 0 }

/-- Goes to an indentation, on a new line unless this one is still fresh. -/
def indentTo (p : Page) (indent : Nat) : Page :=
  let p :=
    if !p.fresh || indent < p.column || (p.column = indent && !p.spaced) then p.putBreak '\n' else p
  { p.puts (List.replicate (indent - p.column) ' ') with spaced := true, fresh := true }

def separate (p : Page) : Page := if p.spaced then p else p.put ' '

def mark (p : Page) (s : String) : Page :=
  { p.puts s.toList with spaced := false, fresh := false }

def closed (p : Page) : Page := { p with spaced := false, fresh := false }

end Page

structure Flow where
  page : Page
  blank : Bool := false
  broken : Bool := false

namespace Flow

def put (f : Flow) (indent : Nat) (cs : List Char) : Flow :=
  let p := if f.broken then f.page.indentTo indent else f.page
  { page := { p.puts cs with fresh := false } }

def putBlank (f : Flow) : Flow := { f with page := f.page.put ' ', blank := true }

def fold (f : Flow) (indent : Nat) : Flow := { f with page := f.page.indentTo indent, blank := true }

def putBreak (f : Flow) (c : Char) : Flow :=
  { f with page := { f.page.putBreak c with fresh := true }, broken := true }

end Flow

/-- A character with the one before and the one after it. -/
abbrev InText := Option Char × Char × Option Char

def plainFlow (indent : Nat) (f : Flow) (e : InText) : Flow :=
  let (_, c, after) := e
  if c = ' ' then
    if !f.blank && bestWidth < f.page.column && after != some ' ' then f.fold indent else f.putBlank
  else f.put indent [c]

def singleFlow (indent : Nat) (f : Flow) (e : InText) : Flow :=
  let (before, c, after) := e
  if c = ' ' then
    if !f.blank && bestWidth < f.page.column && before.isSome && after.isSome && after != some ' ' then
      f.fold indent
    else f.putBlank
  else if isBreak c then f.putBreak c
  else if c = '\'' then f.put indent ['\'', '\'']
  else f.put indent [c]

def upperHex (width n : Nat) : List Char := (Text.hexDigits width n).map Char.toUpper

def escapeText (c : Char) : List Char :=
  let n := c.toNat
  let mark : Option Char :=
    if n = 0 then some '0' else if n = 7 then some 'a' else if n = 8 then some 'b'
    else if n = 9 then some 't' else if n = 10 then some 'n' else if n = 11 then some 'v'
    else if n = 12 then some 'f' else if n = 13 then some 'r' else if n = 27 then some 'e'
    else if c = '"' then some '"' else if c = '\\' then some '\\' else if n = 0x85 then some 'N'
    else if n = 0xa0 then some '_' else if n = 0x2028 then some 'L' else if n = 0x2029 then some 'P'
    else none
  match mark with
  | some m => ['\\', m]
  | none =>
    if n ≤ 0xff then ['\\', 'x'] ++ upperHex 2 n
    else if n ≤ 0xffff then ['\\', 'u'] ++ upperHex 4 n
    else ['\\', 'U'] ++ upperHex 8 n

/-- A byte order mark at the start has every character of the text escaped. -/
def doubleFlow (all : Bool) (indent : Nat) (f : Flow) (e : InText) : Flow :=
  let (before, c, after) := e
  if all || !isShown c || isBreak c || c = '"' || c = '\\' then f.put indent (escapeText c)
  else if c = ' ' then
    if !f.blank && bestWidth < f.page.column && before.isSome && after.isSome then
      let f := f.fold indent
      if after == some ' ' then { f with page := f.page.put '\\' } else f
    else f.putBlank
  else f.put indent [c]

def literalFlow (indent : Nat) (f : Flow) (c : Char) : Flow :=
  if isBreak c then f.putBreak c else f.put indent [c]

-- ---------------------------------------------------------------------------
-- Scalars
-- ---------------------------------------------------------------------------

inductive ScalarStyle where
  | plain | single | double | literal
  deriving DecidableEq

def runFlow (step : Flow → InText → Flow) (p : Page) (s : String) : Page :=
  ((withNeighbours none s.toList).foldl step ⟨p, false, false⟩).page

def literalMarks (cs : List Char) : String :=
  let edge := (cs.head?.map fun c => c = ' ' || isBreak c).getD false
  let chomp :=
    match cs.reverse with
    | b :: rest =>
      if !isBreak b then "-"
      else if (rest.head?.map isBreak).getD true then "+"
      else ""
    | [] => "-"
  "|" ++ (if edge then "2" else "") ++ chomp

def Page.scalar (p : Page) (indent : Nat) (style : ScalarStyle) (s : String) : Page :=
  let p := p.separate
  match style with
  | .plain => (runFlow (plainFlow indent) p s).closed
  | .single => (runFlow (singleFlow indent) (p.mark "'") s).mark "'"
  | .double =>
    let all := s.toList.head? == some byteOrderMark
    (runFlow (doubleFlow all indent) (p.mark "\"") s).mark "\""
  | .literal =>
    let p := (p.mark (literalMarks s.toList)).putBreak '\n'
    (s.toList.foldl (literalFlow indent) ⟨{ p with spaced := true, fresh := true }, false, true⟩).page

/-- The style of a text; `plainly` tells that it could be read back as a text
without quotes. -/
def styleOf (plainly : Bool) (s : String) : ScalarStyle :=
  let shape := Shape.of s
  if s.contains '\n' then (if shape.block then .literal else .double)
  else if !plainly then .double
  else if shape.plain then .plain
  else if shape.singleQuoted then .single
  else .double

def lined (width : Nat) : Nat → List Char → List Char
  | 0, cs => cs
  | fuel + 1, cs =>
    if cs.isEmpty then [] else cs.take width ++ '\n' :: lined width fuel (cs.drop width)

/-- Bytes in base 64, in lines of 70 when they do not fit in one. -/
def binaryText (bytes : List UInt8) : String :=
  let cs := Text.Base64.encode bytes
  String.ofList (if cs.length < 70 then cs else lined 70 cs.length cs)

def Page.rawText (p : Page) (indent : Nat) (t : RawText) : Page :=
  if t.isWellFormed then
    p.scalar indent (styleOf (readsAsText t.shown) t.shown) t.shown
  else
    let s := binaryText t.bytes
    (p.separate.mark "!!binary").scalar indent (styleOf true s) s

-- ---------------------------------------------------------------------------
-- Mappings
-- ---------------------------------------------------------------------------

inductive Leaf where
  | text (t : RawText)
  | plain (s : String)

abbrev Output := List (String × Leaf)

inductive Branch where
  | leaf (l : Leaf)
  | record (entries : Output)

instance : Coe Leaf Branch := ⟨.leaf⟩

def Branch.plain (s : String) : Branch := .leaf (.plain s)

def Branch.text (t : RawText) : Branch := .leaf (.text t)

def step : Nat := 2

namespace Page

def key (p : Page) (indent : Nat) (name : String) : Page :=
  ((p.indentTo indent).scalar indent .plain name).mark ":"

def leaf (p : Page) (indent : Nat) : Leaf → Page
  | .text t => p.rawText (indent + step) t
  | .plain s => p.scalar (indent + step) .plain s

def entries (p : Page) (indent : Nat) (l : Output) : Page :=
  l.foldl (fun p e => (p.key indent e.1).leaf indent e.2) p

def branch (p : Page) : Branch → Page
  | .leaf l => p.leaf 0 l
  | .record l => p.entries step l

end Page

def write (l : List (String × Branch)) : String :=
  let page : Page := l.foldl (fun p e => (p.key 0 e.1).branch e.2) {}
  (page.indentTo 0).text

end Sequencer.Yaml
