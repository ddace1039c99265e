import Sequencer.Angle

/-!
# Complex numbers

Pairs of floating-point numbers, with the products and sums taken in a fixed
order so that results are reproducible to the last bit.
-/

namespace Sequencer

structure Complex where
  re : Float
  im : Float

namespace Complex

instance : Zero Complex := ⟨⟨0.0, 0.0⟩⟩

instance : One Complex := ⟨⟨1.0, 0.0⟩⟩

instance : Add Complex := ⟨fun x y => ⟨x.re + y.re, x.im + y.im⟩⟩

instance : Mul Complex := ⟨fun x y => ⟨x.re * y.re - x.im * y.im, x.re * y.im + x.im * y.re⟩⟩

instance : Neg Complex := ⟨fun x => ⟨-x.re, -x.im⟩⟩

def ofReal (x : Float) : Complex := ⟨x, 0.0⟩

def conj (x : Complex) : Complex := ⟨x.re, -x.im⟩

def unit (theta : Float) : Complex := ⟨Angle.cos theta, Angle.sin theta⟩

def normSq (x : Complex) : Float := (x * x.conj).re

end Complex
end Sequencer
