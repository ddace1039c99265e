/-!
# State vectors

The amplitudes of all basis states; qubit `i` is bit `i` of a basis index. A
gate acts on the pairs of basis states that differ in its target bit and have
all its control bits set. Amplitudes may come from any type with a sum and a
product.
-/

namespace Sequencer

universe u

structure Matrix2 (α : Type u) where
  m00 : α
  m01 : α
  m10 : α
  m11 : α

structure StateVector (α : Type u) where
  qubits : Nat
  amplitudes : Array α

namespace StateVector

variable {α : Type u} [Zero α]

def amp (s : StateVector α) (i : Nat) : α := s.amplitudes.getD i 0

def ground [One α] (qubits : Nat) : StateVector α :=
  ⟨qubits, (Array.replicate (Nat.pow 2 qubits) 0).setIfInBounds 0 1⟩

def bitMask (bits : List Nat) : Nat := bits.foldl (fun mask b => mask ||| 1 <<< b) 0

variable [Add α] [Mul α]

/-- Replaces the amplitudes of the pair that begins with basis state `i`, if `i`
begins one: the target bit is not set in it and all bits of the mask are. -/
def applyAt (m : Matrix2 α) (bit mask : Nat) (amplitudes : Array α) (i : Nat) : Array α :=
  if i &&& bit = 0 ∧ i &&& mask = mask then
    let j := i ||| bit
    let x := amplitudes.getD i 0
    let y := amplitudes.getD j 0
    (amplitudes.setIfInBounds i (m.m00 * x + m.m01 * y)).setIfInBounds j (m.m10 * x + m.m11 * y)
  else amplitudes

/-- Applies a matrix to the target wherever all controls are set, one pair after
the other and in place. -/
def apply (s : StateVector α) (m : Matrix2 α) (target : Nat) (controls : List Nat) :
    StateVector α :=
  { s with
    amplitudes := (List.range s.amplitudes.size).foldl
      (applyAt m (1 <<< target) (bitMask controls)) s.amplitudes }

end StateVector
end Sequencer
