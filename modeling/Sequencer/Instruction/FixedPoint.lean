import Sequencer.Angle
import Sequencer.Decimal.Binary
import Sequencer.Instruction.Word

/-!
# Fixed-point numbers

Signed numbers with two bits before and thirty after the binary point, held
as the integer that counts units of the last place. Two of them share a word,
the first in the high half.
-/

namespace Sequencer

/-- A number of thirty fractional bits by its units. -/
abbrev Fixed := Int

namespace Fixed

def fractionBits : Nat := 30

/-- The value without the digits beyond the last place; it wraps outside of
the range of 32 bits. -/
def ofFloat (x : Float) : Fixed :=
  (((Decimal.Binary.ofFloat x).truncateScaled fractionBits).getD 0).bmod (Nat.pow 2 32)

def toFloat (v : Fixed) : Float := Float.ofInt v / Float.ofNat (Nat.pow 2 fractionBits)

def field (v : Fixed) : BitField := .ofInt v 32

def ofBits (n : Nat) : Fixed := (n : Int).bmod (Nat.pow 2 32)

def pair (high low : Fixed) : Word := Word.ofFields [high.field, low.field]

def high (w : Word) : Fixed := ofBits (w.toNat / Nat.pow 2 32)

def low (w : Word) : Fixed := ofBits (w.toNat % Nat.pow 2 32)

def angleWord (theta : Float) : Word := pair (ofFloat (Angle.cos theta)) (ofFloat (Angle.sin theta))

end Fixed
end Sequencer
