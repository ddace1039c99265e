import Sequencer.Fault
import Sequencer.Integer

/-!
# Instruction words

A word has 64 bits. A header word carries an end-of-timeslice flag in bit 63
and a category in bits 62 to 60; its operands follow below, most significant
first. Words are composed from fields and read back field by field.
-/

namespace Sequencer

abbrev Word := UInt64

inductive Category where
  | single | control | singleCond | controlCond | decoherence | measurement | reset
  | unassigned (code : Nat)
  deriving DecidableEq, Repr

namespace Category

def code : Category → Nat
  | .single => 0
  | .control => 1
  | .singleCond => 2
  | .controlCond => 3
  | .decoherence => 4
  | .measurement => 5
  | .reset => 6
  | .unassigned code => code

def ofCode (code : Nat) : Category :=
  match code with
  | 0 => .single
  | 1 => .control
  | 2 => .singleCond
  | 3 => .controlCond
  | 4 => .decoherence
  | 5 => .measurement
  | 6 => .reset
  | n => .unassigned n

def name : Category → String
  | .single => "single"
  | .control => "control"
  | .singleCond => "single-cond"
  | .controlCond => "control-cond"
  | .decoherence => "decoherence"
  | .measurement => "measurement"
  | .reset => "reset"
  | .unassigned code => "opcode(" ++ toString code ++ ")"

end Category

def headerRoom : Nat := 60

def qubitBits (n : Int) : Nat := if n ≤ 1 then 1 else (n - 1).toNat.log2 + 1

/-- The low bits of a word that are all set; a negative number of them is a fault. -/
def lowOnes (n : Int) : Except Fault Nat :=
  if n < 0 then .error .outOfRange
  else if 64 ≤ n then .ok (Nat.pow 2 64 - 1)
  else .ok (Nat.pow 2 n.toNat - 1)

/-- A value in a number of bits; higher bits of the value are dropped. -/
structure BitField where
  value : Nat
  width : Nat
  deriving DecidableEq, Repr

namespace BitField

def flag (b : Bool) : BitField := ⟨b.toNat, 1⟩

def ones (width : Nat) : BitField := ⟨Nat.pow 2 width - 1, width⟩

def ofInt (value : Int) (width : Nat) : BitField := ⟨(value % Nat.pow 2 width).toNat, width⟩

def totalWidth (fields : List BitField) : Nat := fields.foldr (fun f n => f.width + n) 0

/-- The number whose binary digits are the fields, most significant first. -/
def concat (fields : List BitField) : Nat :=
  fields.foldl (fun n f => n * Nat.pow 2 f.width + f.value % Nat.pow 2 f.width) 0

end BitField

namespace Word

def ofFields (fields : List BitField) : Word := UInt64.ofNat (BitField.concat fields)

def header (c : Category) : Word := UInt64.ofNat (c.code * Nat.pow 2 headerRoom)

def lastFlag : Word := UInt64.ofNat (Nat.pow 2 63)

def isLast (w : Word) : Bool := w.toNat / Nat.pow 2 63 == 1

def opcode (w : Word) : Nat := w.toNat / Nat.pow 2 headerRoom % Nat.pow 2 3

def category (w : Word) : Category := .ofCode w.opcode

/-- The `width` bits whose most significant one is bit `hi`. A read that
reaches below bit 0 is a fault; bits above 63 are clear. The position of the
lowest bit wraps around. -/
def field (w : Word) (hi width : Int) : Except Fault Nat :=
  let low := Integer.wrap (hi - width + 1)
  if low < 0 ∨ width < 0 then .error .outOfRange
  else if 64 ≤ low then .ok 0
  else
    let value := w.toNat / Nat.pow 2 low.toNat
    .ok (if 64 ≤ width then value else value % Nat.pow 2 width.toNat)

def next (w : Word) (pos width : Nat) : Except Fault (Nat × Nat) :=
  if pos < width then .error .outOfRange
  else .ok (w.toNat / Nat.pow 2 (pos - width) % Nat.pow 2 width, pos - width)

def isPadding (w : Word) (pos : Nat) : Bool := w.toNat % Nat.pow 2 pos == Nat.pow 2 pos - 1

def bits (w : Word) : List Bool := (List.range 64).map fun i => w.toNat.testBit (63 - i)

def text (w : Word) : String := String.ofList (w.bits.map fun b => if b then '1' else '0')

def hex (w : Word) : String := String.ofList (Text.hexDigits 16 w.toNat)

end Word
end Sequencer
