import Sequencer.Decimal.Binary

/-!
# Cosines and sines

An angle is brought to the nearest multiple of a quarter turn, counted in
octants. What is left of it is at most half a quarter turn, where short
polynomials give the cosine and the sine; the octants say which of the two it
is, and with which sign. Operations are taken in a fixed order, so that results
are reproducible to the last bit.
-/

namespace Sequencer.Angle

/-- An angle as an even number of octants, up to full turns, and a rest. -/
structure Reduced where
  octants : Nat
  rest : Float

/-- The polynomial with the given coefficients, highest first. -/
def horner (coefficients : List Float) (x : Float) : Float :=
  match coefficients with
  | [] => 0.0
  | first :: rest => rest.foldl (fun y a => y * x + a) first

def restSin (z : Float) : Float :=
  let zz := z * z
  z + z * zz * horner [1.58962301576546568060e-10, -2.50507477628578072866e-8, 2.75573136213857245213e-6,
    -1.98412698295895385996e-4, 8.33333333332211858878e-3, -1.66666666666666307295e-1] zz

def restCos (z : Float) : Float :=
  let zz := z * z
  1.0 - 0.5 * zz + zz * zz * horner [-1.13585365213876817300e-11, 2.08757008419747316778e-9,
    -2.75573141792967388112e-7, 2.48015872888517045348e-5, -1.38888888888730564116e-3,
    4.16666666666665929218e-2] zz

/-- Angles of few octants: an octant is taken off in three parts, so that the
first two products are exact. -/
def reduceNear (x : Float) : Reduced :=
  let whole := (x * 1.27323954473516268615).toUInt64.toNat
  let even := whole + whole % 2
  let y := Float.ofNat even
  ⟨even % 8, x - y * 7.85398125648498535156e-1 - y * 3.77489470793079817668e-8 - y * 2.69515142907905952645e-15⟩

/-- The number of octants in an angle of one, in units of `2 ^ -1216`. -/
def octantsPerUnit : Nat :=
  [0x1, 0x45f306dc9c882a53, 0xf84eafa3ea69bb81, 0xb6c52b3278872083, 0xfca2c757bd778ac3, 0x6e48dc74849ba5c0,
   0x0c925dd413a32439, 0xfc3bd63962534e7d, 0xd1046bea5d768909, 0xd338e04d68befc82, 0x7323ac7306a673e9,
   0x3908bf177bf25076, 0x3ff12fffbc0b301f, 0xde5e2316b414da3e, 0xda6cfd9e4f96136e, 0x9e8c7ecd3cbfd45a,
   0xea4f758fd7cbe2f6, 0x7a0e73ef14a525d4, 0xd7f6bf623f1aba10, 0xac06608df8f6d757].foldl
    (fun n w => n * Nat.pow 2 64 + w) 0

/-- Angles of many octants: they are counted exactly, with 128 bits after the
binary point. -/
def reduceFar (x : Float) : Reduced :=
  match Decimal.Binary.ofFloat x with
  | .finite _ mantissa exponent =>
    let scaled := mantissa * octantsPerUnit / Nat.pow 2 (1216 - 128 - exponent).toNat
    let whole := scaled / Nat.pow 2 128
    let part := Float.ofNat (scaled % Nat.pow 2 128) / Float.ofNat (Nat.pow 2 128)
    let rest := if whole % 2 = 1 then part - 1.0 else part
    ⟨(whole + whole % 2) % 8, rest * 0.78539816339744830962⟩
  | _ => ⟨0, x⟩

/-- The angle is not negative. -/
def reduce (x : Float) : Reduced := if x < 536870912.0 then reduceNear x else reduceFar x

def cos (x : Float) : Float :=
  if x.isNaN || x.isInf then 0.0 / 0.0
  else
    let r := reduce x.abs
    match r.octants with
    | 2 => -restSin r.rest
    | 4 => -restCos r.rest
    | 6 => restSin r.rest
    | _ => restCos r.rest

def sin (x : Float) : Float :=
  if x.isNaN || x.isInf then 0.0 / 0.0
  else if x == 0.0 then x
  else
    let r := reduce x.abs
    let y :=
      match r.octants with
      | 2 => restCos r.rest
      | 4 => -restSin r.rest
      | 6 => -restCos r.rest
      | _ => restSin r.rest
    if x < 0.0 then -y else y

end Sequencer.Angle
