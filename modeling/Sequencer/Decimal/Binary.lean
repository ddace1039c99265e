/-!
# Binary floating-point numbers as exact values

A number of the 64-bit format is a sign, a natural mantissa and a power of
two. All text forms of numbers are computed from these parts in exact natural
number arithmetic.
-/

namespace Sequencer.Decimal

inductive Binary where
  | nan
  | infinite (negative : Bool)
  /-- The value `mantissa * 2 ^ exponent`, with its sign. -/
  | finite (negative : Bool) (mantissa : Nat) (exponent : Int)
  deriving DecidableEq, Repr

namespace Binary

def ofFloat (x : Float) : Binary :=
  let word := x.toBits.toNat
  let negative := word / Nat.pow 2 63 == 1
  let biased : Nat := word / Nat.pow 2 52 % Nat.pow 2 11
  let fraction : Nat := word % Nat.pow 2 52
  if biased = 2047 then
    if fraction = 0 then .infinite negative else .nan
  else if biased = 0 then .finite negative fraction (-1074)
  else .finite negative (Nat.pow 2 52 + fraction) ((biased : Int) - 1075)

/-- The integer part of the value times `2 ^ scale`, towards zero. -/
def truncateScaled (scale : Int) : Binary → Option Int
  | .finite negative mantissa exponent =>
    let shift := exponent + scale
    let magnitude : Nat :=
      if 0 ≤ shift then mantissa * Nat.pow 2 shift.toNat else mantissa / Nat.pow 2 (-shift).toNat
    some (if negative then -(magnitude : Int) else magnitude)
  | _ => none

end Binary

/-- Nonnegative rationals `num / den` that stand for `m * 2 ^ q / 10 ^ k`. -/
def scaled (m : Nat) (q k : Int) : Nat × Nat :=
  let num := m * Nat.pow 2 q.toNat * Nat.pow 10 (-k).toNat
  let den := Nat.pow 2 (-q).toNat * Nat.pow 10 k.toNat
  (num, den)

def roundHalfEven (num den : Nat) : Nat :=
  let whole := num / den
  let twice := 2 * (num % den)
  if twice < den then whole
  else if den < twice then whole + 1
  else if whole % 2 = 0 then whole
  else whole + 1

end Sequencer.Decimal
