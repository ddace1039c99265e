import Sequencer.Circuit.Drawing
import Sequencer.Inspector.Pane
import Sequencer.Instruction.Decoder
import Sequencer.Instruction.Program

/-!
# The inspector

A circuit beside its program, one timeslice at a time. The left pane lists the
timeslices of the circuit with the current one marked, the right pane shows
the words of the current timeslice and the operations they decode to. Keys
choose the timeslice, the pane that scrolls, and how it scrolls.
-/

namespace Sequencer

inductive InspectorError where
  | decode (index : Int) (error : DecodeError)
  | fault (f : Fault)
  deriving DecidableEq, Repr

def InspectorError.message : InspectorError → String
  | .decode index error => "decode timeslice " ++ toString index ++ ": " ++ error.message
  | .fault f => f.message?.getD ""

structure InspectedSlice where
  index : Int
  words : List Word
  operations : List StreamOperation

structure Inspector where
  circuit : Circuit
  qubits : Nat
  qubitBits : Nat
  slices : List InspectedSlice
  /-- The position of the current timeslice in `slices`. -/
  current : Nat := 0
  /-- The pane of the program scrolls, and not the pane of the circuit. -/
  onProgram : Bool := false
  width : Int := 0
  height : Int := 0
  circuitPane : Pane := {}
  programPane : Pane := {}

inductive InspectorEvent where
  | resize (width height : Int)
  | key (name : String)

namespace Inspector

def labelWidth : Nat := 6
def columnGap : Nat := 2
def panelFrame : Int := 4
def controlsHeight : Int := 4

/-- Centers a text by its length in bytes; the left side gets the smaller half. -/
def centered (width : Nat) (s : String) : String :=
  let room := width - s.utf8ByteSize
  Text.blanks (room / 2) ++ s ++ Text.blanks (room - room / 2)

def columnWidth (c : Circuit) (qubit : String) : Except Fault Nat :=
  (c.textWidth qubit).map (· + columnGap)

def circuitRow (c : Circuit) (columns : List (String × Nat)) (current t : Int) :
    Except Fault String := do
  let label := Text.padLeft (labelWidth - 2) (toString t) ++ (if t = current then "> " else ": ")
  let cells ← columns.mapM fun e =>
    match c.at? e.1 t with
    | none => return centered e.2 "|"
    | some n => return centered e.2 (← n.cellText)
  return label ++ String.join cells ++ "\n"

def circuitText (c : Circuit) (current : Int) : Except Fault String := do
  let widths ← c.qubits.mapM (columnWidth c)
  let columns := c.qubits.zip widths
  let heading := Text.blanks labelWidth ++ String.join (columns.map fun e => centered e.2 e.1)
  let rows ← (c.slices.filter fun t => !c.isIdle t).mapM (circuitRow c columns current)
  return heading ++ "\n" ++ String.join rows

def sliceText (s : InspectedSlice) : String :=
  let word (e : Word × Nat) : String := Text.padLeft 3 (toString e.2) ++ " " ++ e.1.text ++ "\n"
  "timeslice " ++ toString s.index ++ ": " ++ toString s.words.length ++ " words\n\n" ++
    String.join (s.words.zipIdx.map word) ++ "\n" ++
    String.join (s.operations.map fun o => (o.map Fixed.toFloat).text ++ "\n")

def slice? (i : Inspector) : Option InspectedSlice := i.slices[i.current]?

def timeslice (i : Inspector) : Int := (i.slice?.map InspectedSlice.index).getD 0

def refreshed (i : Inspector) : Except Fault Inspector := do
  let text ← circuitText i.circuit i.timeslice
  return { i with
    circuitPane := i.circuitPane.withText text
    programPane := i.programPane.withText ((i.slice?.map sliceText).getD "") }

def ofProgram (c : Circuit) (p : InstructionProgram) : Except InspectorError Inspector := do
  let slices ← p.slices.mapM fun s =>
    match decode s.words p.qubits with
    | .ok ops => .ok ⟨s.index, s.words, ops⟩
    | .error (.fault f) => .error (.fault f)
    | .error e => .error (.decode s.index e)
  let i : Inspector := { circuit := c, qubits := p.qubits, qubitBits := p.qubitBits, slices := slices }
  i.refreshed.mapError .fault

def paneHeight (height : Int) : Nat := (max (height - controlsHeight - panelFrame) 3).toNat

def resize (i : Inspector) (width height : Int) : Inspector :=
  let left := width.tdiv 2
  let inside (outer : Int) : Nat := (max (outer - panelFrame) 10).toNat
  let lines := paneHeight height - 1
  { i with
    width := width, height := height
    circuitPane := i.circuitPane.resized (inside left) lines
    programPane := i.programPane.resized (inside (width - left)) lines }

def goTo (i : Inspector) (position : Nat) : Except Fault Inspector := do
  let i ← { i with current := position }.refreshed
  return { i with programPane := i.programPane.toTop }

def scrollOf? : String → Option Scroll
  | "j" | "down" => some .lineDown
  | "k" | "up" => some .lineUp
  | "f" | " " | "pgdown" => some .pageDown
  | "b" | "pgup" => some .pageUp
  | "d" | "ctrl+d" => some .halfDown
  | "u" | "ctrl+u" => some .halfUp
  | _ => none

def scroll (i : Inspector) (s : Scroll) : Inspector :=
  if i.onProgram then { i with programPane := i.programPane.scroll s }
  else { i with circuitPane := i.circuitPane.scroll s }

def isQuit (key : String) : Bool := key == "q" || key == "ctrl+c"

def press (i : Inspector) : String → Except Fault Inspector
  | "tab" => .ok { i with onProgram := !i.onProgram }
  | "left" | "h" => if 0 < i.current then i.goTo (i.current - 1) else .ok i
  | "right" | "l" => if i.current + 1 < i.slices.length then i.goTo (i.current + 1) else .ok i
  | key => .ok (((scrollOf? key).map i.scroll).getD i)

/-- The inspector after an event, and whether the event asks to leave. -/
def update (i : Inspector) : InspectorEvent → Except Fault (Inspector × Bool)
  | .resize width height => .ok (i.resize width height, false)
  | .key name => if isQuit name then .ok (i, true) else (i.press name).map fun i => (i, false)

end Inspector
end Sequencer
