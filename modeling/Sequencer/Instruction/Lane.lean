import Sequencer.Instruction.Word

/-!
# Lanes

Within a timeslice, operations whose header words look alike share a lane: a
category, split by how controls are given and how the condition is tested.
Every group of a lane has the same width, which depends on the number of
qubits only.
-/

namespace Sequencer

inductive Lane where
  | single
  | singleBit | singleRange
  | controlOne | controlMany
  | controlOneBit | controlOneRange | controlManyBit | controlManyRange
  | decoherence
  | reset
  deriving DecidableEq, Repr

namespace Lane

def all : List Lane :=
  [single, singleBit, singleRange, controlOne, controlMany, controlOneBit, controlOneRange,
   controlManyBit, controlManyRange, decoherence, reset]

def category : Lane → Category
  | single => .single
  | singleBit | singleRange => .singleCond
  | controlOne | controlMany => .control
  | controlOneBit | controlOneRange | controlManyBit | controlManyRange => .controlCond
  | decoherence => .decoherence
  | reset => .reset

/-- Controls are given by a mask with one bit per qubit. -/
def hasMask : Lane → Bool
  | controlMany | controlManyBit | controlManyRange => true
  | _ => false

/-- The condition tests a range of bits against a number. -/
def testsRange : Lane → Bool
  | singleRange | controlOneRange | controlManyRange => true
  | _ => false

def flags (l : Lane) : List BitField :=
  match l.category with
  | .singleCond => [.flag l.testsRange]
  | .control => [.flag l.hasMask]
  | .controlCond => [.flag l.hasMask, .flag l.testsRange]
  | _ => []

def room (l : Lane) : Nat := headerRoom - l.flags.length

def controlCond (mask range : Bool) : Lane :=
  match mask, range with
  | false, false => controlOneBit
  | false, true => controlOneRange
  | true, false => controlManyBit
  | true, true => controlManyRange

/-- The lane of a header word; measurements and unassigned codes have none. -/
def ofWord? (w : Word) : Option Lane :=
  let flag (bit : Nat) : Bool := w.toNat.testBit bit
  match w.category with
  | .single => some single
  | .singleCond => some (if flag 59 then singleRange else singleBit)
  | .control => some (if flag 59 then controlMany else controlOne)
  | .controlCond => some (controlCond (flag 59) (flag 58))
  | .decoherence => some decoherence
  | .reset => some reset
  | _ => none

end Lane

structure Layout where
  qubits : Nat

namespace Layout

def selectorBits : Nat := 4

/-- The layout for a circuit; there is room for one qubit at least. -/
def ofCount (n : Int) : Layout := ⟨(max n 1).toNat⟩

def qubitBits (y : Layout) : Nat := Sequencer.qubitBits y.qubits

def bitTest (y : Layout) : Nat := y.qubitBits + 1

def rangeTest (y : Layout) : Nat := y.qubitBits + y.qubitBits + y.qubits

def width (y : Layout) : Lane → Nat
  | .single => y.qubitBits + selectorBits
  | .singleBit => y.qubitBits + selectorBits + y.bitTest
  | .singleRange => y.qubitBits + selectorBits + y.rangeTest
  | .controlOne => y.qubitBits + y.qubitBits + selectorBits
  | .controlMany => y.qubits + y.qubitBits + selectorBits
  | .controlOneBit => y.qubitBits + y.qubitBits + selectorBits + y.bitTest
  | .controlOneRange => y.qubitBits + y.qubitBits + selectorBits + y.rangeTest
  | .controlManyBit => y.qubits + y.qubitBits + selectorBits + y.bitTest
  | .controlManyRange => y.qubits + y.qubitBits + selectorBits + y.rangeTest
  | .decoherence => y.qubitBits + 1
  | .reset => y.qubitBits

def fits (y : Layout) (l : Lane) : Bool := y.width l ≤ l.room

end Layout
end Sequencer
