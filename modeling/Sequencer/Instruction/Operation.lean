import Sequencer.Decimal.Notation
import Sequencer.Instruction.FixedPoint
import Sequencer.Text.CellWidth

/-!
# Operations

One operation as it is read from an instruction stream, and its one-line
summary. The numbers of an operation are fixed-point in a stream and real in a
summary, so their type is a parameter.
-/

namespace Sequencer

structure DecodedTest where
  isRange : Bool
  /-- The tested bit, or the lowest one of the range. -/
  bit : Int
  high : Int
  value : Int
  deriving DecidableEq, Repr

structure Operation (ν : Type) where
  /-- The ordinal of the timeslice, from 0. -/
  slice : Nat := 0
  category : Category
  gate : String := ""
  qubit : Int
  controls : List Int := []
  cond : Option DecodedTest := none
  angle : Option (ν × ν) := none
  probability : Option ν := none
  last : Bool := false
  deriving DecidableEq, Repr

namespace Operation

def map {ν μ : Type} (f : ν → μ) (o : Operation ν) : Operation μ :=
  { slice := o.slice, category := o.category, gate := o.gate, qubit := o.qubit,
    controls := o.controls, cond := o.cond, angle := o.angle.map fun a => (f a.1, f a.2),
    probability := o.probability.map f, last := o.last }

def testText (k : DecodedTest) : String :=
  if k.isRange then
    " if c[" ++ toString k.bit ++ ":" ++ toString k.high ++ "]==" ++ toString k.value
  else " if c" ++ toString k.bit ++ "==" ++ toString k.value

def numberText (x : Float) : String := Decimal.fixed 6 x

def text (o : Operation Float) : String :=
  let gate := if o.gate.isEmpty then "" else " " ++ Text.padRight 8 o.gate
  let controls :=
    if o.controls.isEmpty then ""
    else " ctrl [" ++ " ".intercalate (o.controls.map fun (q : Int) => toString q) ++ "]"
  let angle :=
    match o.angle with
    | none => ""
    | some (cos, sin) => " cos=" ++ numberText cos ++ " sin=" ++ numberText sin
  let probability :=
    if o.category = .decoherence then " p=" ++ numberText (o.probability.getD 0.0) else ""
  Text.padRight 12 o.category.name ++ gate ++ " q" ++ toString o.qubit ++ controls ++
    (o.cond.map testText).getD "" ++ angle ++ probability ++ (if o.last then " [last]" else "")

end Operation
end Sequencer
