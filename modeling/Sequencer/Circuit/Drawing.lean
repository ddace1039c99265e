import Sequencer.Circuit.Label
import Sequencer.Gate
import Sequencer.Text.Block

/-!
# Drawings

One column per qubit and two rows per timeslice that is not idle, a row of
bars and a row of cells; idle timeslices are skipped and the rows numbered
from 1. Columns are as wide as the longest text of their qubit in bytes, while
padding counts terminal cells.
-/

namespace Sequencer

structure Ink where
  bold : Bool := false
  red : Nat
  green : Nat
  blue : Nat

namespace Ink

def qubit : Ink := { red := 0x7d, green := 0xcf, blue := 0xff }
def gate : Ink := { bold := true, red := 0x73, green := 0xda, blue := 0xca }
def offDiagonal : Ink := { bold := true, red := 0xff, green := 0x9e, blue := 0x64 }
def measurement : Ink := { red := 0xe0, green := 0xaf, blue := 0x68 }
def conditioned : Ink := { red := 0xbb, green := 0x9a, blue := 0xf7 }
def faint : Ink := { red := 0x56, green := 0x5f, blue := 0x89 }

def escape : String := String.ofList [Char.ofNat 27]

def apply (ink : Ink) (s : String) : String :=
  let colour := "38;2;" ++ toString ink.red ++ ";" ++ toString ink.green ++ ";" ++ toString ink.blue
  escape ++ "[" ++ (if ink.bold then "1;" else "") ++ colour ++ "m" ++ s ++ escape ++ "[0m"

end Ink

def Condition.suffix (k : Condition) : String := "|" ++ k.register ++ "=" ++ toString k.value

/-- The plain text of a node. The target of a controlled gate is marked with
`o`, a control names the first of its partners. -/
def Node.cellText (n : Node) : Except Fault String := do
  let body ←
    if n.reset then pure "reset"
    else if n.measurement then pure ("M -> " ++ ", ".intercalate n.bits)
    else if n.barrier then pure "--"
    else if n.controlled && n.target then pure (n.label ++ " o")
    else if n.controlled then
      match n.partners with
      | p :: _ => pure (n.label ++ " " ++ p)
      | [] => throw .outOfRange
    else pure n.label
  return body ++ (n.cond.map Condition.suffix).getD ""

def Node.ink (n : Node) : Ink :=
  if n.measurement then .measurement
  else if n.barrier then .faint
  else if n.isConditioned then .conditioned
  else if Gate.isOffDiagonal n.gate then .offDiagonal
  else .gate

/-- The length in bytes of the longest text of a qubit, its name included. -/
def Circuit.textWidth (c : Circuit) (qubit : String) : Except Fault Nat := do
  let texts ← (c.timeline qubit).values.mapM Node.cellText
  return texts.foldl (fun w s => max w s.utf8ByteSize) qubit.utf8ByteSize

namespace Drawing

def columnGap : Nat := 3

def inked (colour : Bool) (ink : Option Ink) (line : String) : String :=
  match ink with
  | some ink => if colour then ink.apply line else line
  | none => line

/-- A cell of at least the given width. A text that is too wide for it is
wrapped; the ink covers the text and not the padding. -/
def cell (colour : Bool) (ink : Option Ink) (width : Nat) (s : String) : String :=
  let lines := (Text.Block.wrapped width s).map (inked colour ink)
  "\n".intercalate (Text.Block.padded width lines)

def columnWidth (c : Circuit) (qubit : String) : Except Fault Nat :=
  (c.textWidth qubit).map (· + columnGap)

def row (colour : Bool) (c : Circuit) (columns : List (String × Nat)) (t : Int) :
    Except Fault String := do
  let cells ← columns.mapM fun e =>
    match c.at? e.1 t with
    | none => return Text.blanks e.2
    | some n => return cell colour (some n.ink) e.2 (← n.cellText)
  return String.join cells

end Drawing

open Drawing in
def Circuit.draw (c : Circuit) (colour : Bool) : Except Fault String := do
  let widths ← c.qubits.mapM (columnWidth c)
  let columns := c.qubits.zip widths
  let margin := (toString c.lastSlice).utf8ByteSize + 2
  let heading := Text.blanks margin ++
    String.join (columns.map fun e => cell colour (some .qubit) e.2 e.1)
  let bars := Text.blanks margin ++
    String.join (columns.map fun e => cell colour (some .faint) e.2 "|")
  let busy := c.slices.filter fun t => !c.isIdle t
  let rows ← busy.zipIdx.mapM fun e => do
    let label := cell colour none margin (toString (e.2 + 1) ++ ":")
    return bars ++ "\n" ++ label ++ (← row colour c columns e.1) ++ "\n"
  return heading ++ "\n" ++ String.join rows

end Sequencer
