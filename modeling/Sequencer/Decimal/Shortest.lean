import Sequencer.Decimal.Binary

/-!
# Shortest decimals

The decimal with the fewest digits that reads back as a given binary number.
For one, two, up to seventeen significant digits the two neighbours of the
value on that decimal grid are tried; the first grid with a neighbour inside
the rounding interval of the number wins, and of two hits the nearer one.
-/

namespace Sequencer.Decimal

structure Digits where
  coefficient : Nat
  exponent : Int
  deriving DecidableEq, Repr

/-- The largest `x` with `10 ^ x ≤ m * 2 ^ q`, for a positive `m`. -/
def magnitude (m : Nat) (q : Int) : Int :=
  let guess := ((m.log2 : Int) + q) * 30103 / 100000
  let below (x : Int) : Bool :=
    let (num, den) := scaled m q x
    num < den
  if below guess then guess - 1
  else if below (guess + 1) then guess
  else guess + 1

/-- The reals that round to `m * 2 ^ q`, in quarters of the last place; the
ends belong to it exactly when `m` is even. -/
structure Interval where
  low : Nat
  high : Nat
  closed : Bool

def Interval.ofMantissa (m : Nat) (q : Int) : Interval :=
  let low := if m = Nat.pow 2 52 ∧ -1074 < q then 4 * m - 1 else 4 * m - 2
  ⟨low, 4 * m + 2, m % 2 = 0⟩

def Interval.holds (i : Interval) (q : Int) (c : Nat) (k : Int) : Bool :=
  let (low, den) := scaled i.low (q - 2) k
  let (high, _) := scaled i.high (q - 2) k
  if i.closed then low ≤ c * den && c * den ≤ high
  else low < c * den && c * den < high

def onGrid? (m : Nat) (q k : Int) : Option Digits :=
  let i := Interval.ofMantissa m q
  let (num, den) := scaled m q k
  let lower := num / den
  let lowerHit := i.holds q lower k
  let upperHit := i.holds q (lower + 1) k
  if lowerHit && upperHit then some ⟨roundHalfEven num den, k⟩
  else if lowerHit then some ⟨lower, k⟩
  else if upperHit then some ⟨lower + 1, k⟩
  else none

def dropZeros : Nat → Digits → Digits
  | 0, d => d
  | fuel + 1, d =>
    if d.coefficient ≠ 0 ∧ d.coefficient % 10 = 0 then
      dropZeros fuel ⟨d.coefficient / 10, d.exponent + 1⟩
    else d

/-- The fewest digits that read back as `m * 2 ^ q`, without trailing zeros. -/
def shortest (m : Nat) (q : Int) : Digits :=
  if m = 0 then ⟨0, 0⟩
  else
    let x := magnitude m q
    let found := (List.range 17).findSome? fun (p : Nat) => onGrid? m q (x - p)
    match found with
    | some d => dropZeros 20 d
    | none => ⟨0, 0⟩

end Sequencer.Decimal
