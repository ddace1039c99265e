import Sequencer.Inspector.Basic

/-!
# The view of the inspector

Two panels side by side and the controls below them, each in a box with round
corners and a blank on either side of its lines. A title that is too wide wraps
and makes its panel higher.
-/

namespace Sequencer.Inspector

def titleText (title : String) : String :=
  "\n".intercalate (Text.Block.padded 0 ((Text.normalized title).splitOn "\n"))

def panel (focused : Bool) (title : String) (pane : Pane) (width height : Nat) : List String :=
  let title := if focused then title ++ " [ACTIVE]" else title
  Text.Block.framed width height (titleText title ++ "\n" ++ "\n".intercalate pane.view)

def statusText (i : Inspector) : String :=
  if i.slices.isEmpty then "empty program"
  else
    "Slice " ++ toString (i.current + 1) ++ " of " ++ toString i.slices.length ++ "  │  " ++
      toString i.qubits ++ " qubits, " ++ toString i.qubitBits ++ "-bit qubit fields  │  " ++
      toString (i.slices.foldl (fun n s => n + s.words.length) 0) ++ " words"

def controls (i : Inspector) (width : Nat) : List String :=
  Text.Block.framed width 0
    ("Navigate: ←→/hl Timeslice  ↑↓/jk Scroll  Tab Switch pane  q/^C Quit\n" ++ i.statusText)

def view (i : Inspector) : List String :=
  if i.width = 0 then ["Loading..."]
  else
    let left := i.width.tdiv 2
    let height := paneHeight i.height
    let inside (outer : Int) : Nat := (outer - 2).toNat
    let circuit := panel (!i.onProgram) ("Circuit " ++ i.circuit.name) i.circuitPane (inside left) height
    let program := panel i.onProgram "Program" i.programPane (inside (i.width - left)) height
    Text.Block.above (Text.Block.beside circuit program) (i.controls (inside i.width))

end Sequencer.Inspector
