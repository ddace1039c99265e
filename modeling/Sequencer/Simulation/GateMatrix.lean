import Sequencer.Circuit.Label
import Sequencer.Gate
import Sequencer.Simulation.Complex
import Sequencer.Simulation.StateVector

/-!
# Gate matrices

The matrices of the primitive gates. A missing parameter counts as zero.
-/

namespace Sequencer

namespace Matrix2

def pauliX : Matrix2 Complex := ⟨0, 1, 1, 0⟩

def pauliY : Matrix2 Complex := ⟨0, ⟨0.0, -1.0⟩, ⟨0.0, 1.0⟩, 0⟩

def pauliZ : Matrix2 Complex := ⟨1, 0, 0, ⟨-1.0, 0.0⟩⟩

def halfRoot : Float := 0.70710678118654752440

def hadamard : Matrix2 Complex :=
  ⟨.ofReal halfRoot, .ofReal halfRoot, .ofReal halfRoot, .ofReal (-halfRoot)⟩

def phase (theta : Float) : Matrix2 Complex := ⟨1, 0, 0, .unit theta⟩

def rotationX (theta : Float) : Matrix2 Complex :=
  let c := Complex.ofReal (Angle.cos (theta / 2.0))
  let s : Complex := ⟨0.0, -Angle.sin (theta / 2.0)⟩
  ⟨c, s, s, c⟩

def rotationY (theta : Float) : Matrix2 Complex :=
  let c := Complex.ofReal (Angle.cos (theta / 2.0))
  let s := Complex.ofReal (Angle.sin (theta / 2.0))
  ⟨c, -s, s, c⟩

def rotationZ (theta : Float) : Matrix2 Complex :=
  let p := Complex.unit (theta / 2.0)
  ⟨p.conj, 0, 0, p⟩

def general (theta phi lambda : Float) : Matrix2 Complex :=
  let c := Complex.ofReal (Angle.cos (theta / 2.0))
  let s := Complex.ofReal (Angle.sin (theta / 2.0))
  ⟨c, -Complex.unit lambda * s, Complex.unit phi * s, Complex.unit (phi + lambda) * c⟩

end Matrix2

def Primitive.matrix (p : Primitive) (params : List Float) : Matrix2 Complex :=
  let param (i : Nat) : Float := params.getD i 0.0
  match p with
  | .u => .general (param 0) (param 1) (param 2)
  | .x => .pauliX
  | .y => .pauliY
  | .z => .pauliZ
  | .h => .hadamard
  | .s => .phase (pi / 2.0)
  | .t => .phase (pi / 4.0)
  | .rx => .rotationX (param 0)
  | .ry => .rotationY (param 0)
  | .rz => .rotationZ (param 0)
  | .rtheta => .phase (param 0)

end Sequencer
