import Sequencer.Text.Wrap

/-!
# Blocks of text

A block is a list of lines that are padded to one width. Blocks are wrapped to
a width, framed, and put beside or below each other.
-/

namespace Sequencer.Text

/-- A tab takes four blanks, and a line may end with a carriage return. -/
def normalized (s : String) : String :=
  (s.replace "\t" "    ").replace "\x0d\n" "\n"

def widest (lines : List String) : Nat := lines.foldl (fun w l => max w (cells l)) 0

namespace Block

def padded (width : Nat) (lines : List String) : List String :=
  let target := max width (widest lines)
  lines.map (padCells target)

def wrapped (width : Nat) (s : String) : List String := (wrap width (normalized s)).splitOn "\n"

/-- A block with round corners and a blank on either side of its lines. The
width counts the blanks and not the frame, the height only the lines. -/
def framed (width height : Nat) (s : String) : List String :=
  let lines := if width = 0 then (normalized s).splitOn "\n" else wrapped (width - 2) s
  let lines := lines.map fun l => " " ++ l ++ " "
  let lines := padded width (lines ++ List.replicate (height - lines.length) "")
  let rule := String.ofList (List.replicate (widest lines) '─')
  ["╭" ++ rule ++ "╮"] ++ lines.map (fun l => "│" ++ l ++ "│") ++ ["╰" ++ rule ++ "╯"]

def beside (left right : List String) : List String :=
  let height := max left.length right.length
  let fill (block : List String) :=
    padded 0 (block ++ List.replicate (height - block.length) "")
  List.zipWith (· ++ ·) (fill left) (fill right)

def above (top bottom : List String) : List String := padded 0 (top ++ bottom)

end Block
end Sequencer.Text
