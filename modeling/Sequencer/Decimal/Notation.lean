import Sequencer.Decimal.Shortest

/-!
# Texts of numbers

Shortest decimals laid out positionally or with an exponent, and numbers with
a fixed number of places.
-/

namespace Sequencer.Decimal

structure Layout where
  /-- Decimal exponents below this one use exponent notation. -/
  lowest : Int
  /-- Decimal exponents from this one on use exponent notation. -/
  highest : Int
  exponentDigits : Nat

/-- Parameters in messages and source text: positional from `1e-4` up to six
digits before the point. -/
def Layout.general : Layout := ⟨-4, 6, 2⟩

/-- Numbers of a JSON document: positional from `1e-6` up to `1e21`. -/
def Layout.json : Layout := ⟨-6, 21, 1⟩

def zeros (n : Nat) : String := String.ofList (List.replicate n '0')

def withPoint (whole fraction : String) : String :=
  if fraction.isEmpty then whole else whole ++ "." ++ fraction

def scientific (exponentDigits : Nat) (digits : String) (x : Int) : String :=
  let sign := if x < 0 then "-" else "+"
  let size := toString x.natAbs
  let body := withPoint (String.ofList (digits.toList.take 1)) (String.ofList (digits.toList.drop 1))
  body ++ "e" ++ sign ++ zeros (exponentDigits - size.length) ++ size

/-- The digits with the point after the place of `10 ^ 0`; `x` is the place of
the first digit. -/
def positional (digits : String) (x : Int) : String :=
  let places := digits.toList
  if x < 0 then "0." ++ zeros (-x - 1).toNat ++ digits
  else
    let before := x.toNat + 1
    withPoint (String.ofList (places.take before) ++ zeros (before - places.length))
      (String.ofList (places.drop before))

def Digits.text (layout : Layout) (d : Digits) : String :=
  let digits := toString d.coefficient
  let x := d.exponent + digits.length - 1
  if d.coefficient = 0 then "0"
  else if x < layout.lowest ∨ layout.highest ≤ x then scientific layout.exponentDigits digits x
  else positional digits x

def signed (negative : Bool) (text : String) : String := if negative then "-" ++ text else text

def text (layout : Layout) (value : Float) : String :=
  match Binary.ofFloat value with
  | .nan => "NaN"
  | .infinite negative => if negative then "-Inf" else "+Inf"
  | .finite negative m q => signed negative ((shortest m q).text layout)

def general (value : Float) : String := text Layout.general value

def fixedDigits (places units : Nat) : String :=
  let digits := toString units
  let padded := zeros (places + 1 - digits.length) ++ digits
  let whole := padded.length - places
  withPoint (String.ofList (padded.toList.take whole)) (String.ofList (padded.toList.drop whole))

/-- The value rounded to the given number of places, a half going to the even
neighbour. The sign of a negative number stays when it rounds to zero. -/
def fixed (places : Nat) (value : Float) : String :=
  match Binary.ofFloat value with
  | .nan => "NaN"
  | .infinite negative => if negative then "-Inf" else "+Inf"
  | .finite negative m q =>
    let (num, den) := scaled m q (-(places : Int))
    signed negative (fixedDigits places (roundHalfEven num den))

def fixedUnsignedZero (places : Nat) (value : Float) : String :=
  let text := fixed places value
  if text == "-" ++ fixedDigits places 0 then fixedDigits places 0 else text

end Sequencer.Decimal
