import Sequencer.Text.Block

/-!
# Panes

A window of some height on a list of lines. The offset is the first line
shown. Scrolling keeps it between the top and the offset that shows the last
line at the bottom; a change of the size alone leaves it where it is.
-/

namespace Sequencer

structure Pane where
  width : Nat := 0
  height : Nat := 0
  offset : Nat := 0
  lines : List String := [""]
  deriving DecidableEq, Repr

inductive Scroll where
  | lineDown | lineUp | pageDown | pageUp | halfDown | halfUp
  deriving DecidableEq, Repr

namespace Pane

def bottom (p : Pane) : Nat := p.lines.length - p.height

def moveTo (p : Pane) (offset : Nat) : Pane := { p with offset := min offset p.bottom }

def scrollDown (p : Pane) (n : Nat) : Pane :=
  if p.bottom ≤ p.offset || n == 0 then p else p.moveTo (p.offset + n)

def scrollUp (p : Pane) (n : Nat) : Pane :=
  if p.offset == 0 || n == 0 then p else p.moveTo (p.offset - n)

def scroll (p : Pane) : Scroll → Pane
  | .lineDown => p.scrollDown 1
  | .lineUp => p.scrollUp 1
  | .pageDown => p.scrollDown p.height
  | .pageUp => p.scrollUp p.height
  | .halfDown => p.scrollDown (p.height / 2)
  | .halfUp => p.scrollUp (p.height / 2)

def toTop (p : Pane) : Pane := { p with offset := 0 }

/-- Shows another text; an offset beyond its last line goes to the bottom. -/
def withText (p : Pane) (text : String) : Pane :=
  let p := { p with lines := text.splitOn "\n" }
  if p.lines.length ≤ p.offset then p.moveTo p.bottom else p

def resized (p : Pane) (width height : Nat) : Pane := { p with width := width, height := height }

def view (p : Pane) : List String :=
  let shown := (p.lines.drop p.offset).take p.height
  let shown := shown ++ List.replicate (p.height - shown.length) ""
  shown.map fun l => Text.padCells p.width (Text.cutCells p.width l)

end Pane
end Sequencer
