import Sequencer.Circuit.Basic
import Sequencer.Decimal.Notation
import Sequencer.Integer

/-!
# Labels

The display text of parameters and nodes. Multiples of pi up to four turns
with a denominator of 1, 2, 3, 4, 6 or 8 are written symbolically, in lowest
terms because smaller denominators come first.
-/

namespace Sequencer

def pi : Float := 3.14159265358979323846264338327950288

namespace Parameter

def denominators : List Nat := [1, 2, 3, 4, 6, 8]

def maxTurns : Float := 4.0

/-- The integer a rounded multiple stands for; a value that is not a number
stands for the least 64-bit integer. -/
def multiple (k : Float) : Int := ((Decimal.Binary.ofFloat k).truncateScaled 0).getD (-(Integer.bound : Int))

def piFraction? (value : Float) (d : Nat) : Option String :=
  let den := d.toFloat
  let k := (value * den / pi).round
  if k == 0.0 || k > maxTurns * den then none
  else if (value - k * pi / den).abs >= 1e-10 then none
  else
    let num := if k == 1.0 then "pi" else toString (multiple k) ++ "*pi"
    some (if d = 1 then num else num ++ "/" ++ toString d)

def text (value : Float) : String :=
  if value == 0.0 then "0"
  else
    let negative := value < 0.0
    let magnitude := if negative then -value else value
    match denominators.findSome? (piFraction? magnitude) with
    | some s => if negative then "-" ++ s else s
    | none => Decimal.general value

def texts (values : List Float) : String := ", ".intercalate (values.map text)

end Parameter

/-- The gate name, followed by its parameters when the node is marked as having some. -/
def Node.label (n : Node) : String :=
  if n.hasParameter then n.gate ++ "(" ++ Parameter.texts n.params ++ ")" else n.gate

end Sequencer
