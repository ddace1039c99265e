import Sequencer.Yaml.Source

/-!
# Positions in a YAML text

The rest of a source with its line and column. Columns count characters; a
carriage return with its line feed is one break. Before characters are looked
at they are asked for, which fetches further portions of the source, and fails
when one of them is spoilt. The end reads as a null character.
-/

namespace Sequencer.Yaml

def nextLine : Char := Char.ofNat 0x85
def lineSeparator : Char := Char.ofNat 0x2028
def paragraphSeparator : Char := Char.ofNat 0x2029
def endMark : Char := Char.ofNat 0

def isBreak (c : Char) : Bool :=
  c = '\n' || c = '\r' || c = nextLine || c = lineSeparator || c = paragraphSeparator

def isBlank (c : Char) : Bool := c = ' ' || c = '\t'

def isSeparator (c : Char) : Bool := isBlank c || isBreak c

def isBreakOrEnd (c : Char) : Bool := isBreak c || c = endMark

def isGapOrEnd (c : Char) : Bool := isSeparator c || c = endMark

def isWordChar (c : Char) : Bool := c.isAlphanum || c = '_' || c = '-'

structure Cursor where
  rest : List Char
  ready : Nat := 0
  portions : List Nat
  sound : Bool
  /-- The first of the characters at hand was a byte order mark when they were
  fetched last. -/
  marked : Bool := false
  line : Nat := 0
  column : Nat := 0
  index : Nat := 0
  /-- The size of the source, which bounds every loop over it. -/
  size : Nat

namespace Cursor

def ofSource (s : Source) : Cursor :=
  { rest := s.chars, portions := s.portions, sound := s.sound, size := s.chars.length }

/-- Fetches portions until `n` characters are at hand. At the end of a sound
source one null character is added at a time. -/
def fetch? (sound : Bool) (n : Nat) : Nat → List Nat → Option (Nat × List Nat)
  | ready, [] =>
    if n ≤ ready then some (ready, []) else if sound then some (ready + 1, []) else none
  | ready, p :: ps => if n ≤ ready then some (ready, p :: ps) else fetch? sound n (ready + p) ps

def need? (n : Nat) (c : Cursor) : Option Cursor :=
  if n ≤ c.ready then some c
  else
    (fetch? c.sound n c.ready c.portions).map fun (ready, portions) =>
      { c with ready := ready, portions := portions, marked := c.rest.head? == some byteOrderMark }

def ahead (c : Cursor) (k : Nat) : Char := c.rest.getD k endMark

def skip (c : Cursor) : Cursor :=
  { c with
    rest := c.rest.tail, ready := c.ready - 1, column := c.column + 1, index := c.index + 1 }

def skipBreak (c : Cursor) : Cursor :=
  match c.rest with
  | '\r' :: '\n' :: rest =>
    { c with rest := rest, ready := c.ready - 2, line := c.line + 1, column := 0, index := c.index + 2 }
  | b :: rest =>
    if isBreak b then
      { c with rest := rest, ready := c.ready - 1, line := c.line + 1, column := 0, index := c.index + 1 }
    else c
  | [] => c

/-- The break at the cursor as it counts in a scalar: a line feed, unless it is
one of the separators proper. -/
def breakText (c : Cursor) : List Char :=
  let b := c.ahead 0
  if b = lineSeparator ∨ b = paragraphSeparator then [b] else if isBreak b then ['\n'] else []

def atDocumentMark (c : Cursor) (mark : Char) : Bool :=
  c.column == 0 && c.rest.take 3 == [mark, mark, mark] && isGapOrEnd (c.ahead 3)

def atAnyDocumentMark (c : Cursor) : Bool := c.atDocumentMark '-' || c.atDocumentMark '.'

end Cursor

abbrev Scan (α : Type) : Type := StateT Cursor Option α

namespace Scan

def need (n : Nat) : Scan Unit := fun c => (c.need? n).map fun c => ((), c)

def ahead (k : Nat) : Scan Char := return (← get).ahead k

def here : Scan Char := ahead 0

def isAt (ch : Char) : Scan Bool := return (← here) == ch

def skip : Scan Unit := modify Cursor.skip

def advance : Scan Unit := do
  skip
  need 1

def lineBreak : Scan (List Char) := do
  need 2
  let c ← get
  set c.skipBreak
  return c.breakText

def spanUpTo (p : Char → Bool) : Nat → List Char → Scan (List Char)
  | 0, acc => return acc.reverse
  | fuel + 1, acc => do
    let ch ← here
    if p ch then
      advance
      spanUpTo p fuel (ch :: acc)
    else return acc.reverse

def span (p : Char → Bool) : Scan (List Char) := do spanUpTo p ((← get).size + 1) []

def skipBlanks : Scan Unit := discard (span isBlank)

def skipComment : Scan Unit := do
  if ← isAt '#' then discard (span fun ch => !isBreakOrEnd ch)

def restOfLine : Scan Unit := do
  need 1
  skipBlanks
  skipComment
  let ch ← here
  if !isBreakOrEnd ch then failure
  if isBreak ch then discard lineBreak

end Scan
end Sequencer.Yaml
