/-!
# Gate names

The primitive single-qubit gates with their 4-bit selectors, the controlled
gates (a primitive under one letter `c`), the decoherence channels, and
multi-control names, where every further control is one more leading `c`.

Nodes carry gate names as text, because a circuit may hold gates that have no
instruction encoding; the functions on names say which of them do.
-/

namespace Sequencer

inductive Primitive where
  | u | x | y | z | h | s | t | rx | ry | rz | rtheta
  deriving DecidableEq, Repr

namespace Primitive

def all : List Primitive := [u, x, y, z, h, s, t, rx, ry, rz, rtheta]

def name : Primitive → String
  | u => "u" | x => "x" | y => "y" | z => "z" | h => "h" | s => "s" | t => "t"
  | rx => "rx" | ry => "ry" | rz => "rz" | rtheta => "rtheta"

def selector : Primitive → Nat
  | u => 0 | x => 1 | y => 2 | z => 3 | h => 4 | s => 5 | t => 6
  | rx => 7 | ry => 8 | rz => 9 | rtheta => 10

def ofName? (name : String) : Option Primitive := all.find? fun p => p.name == name

def ofSelector? (selector : Nat) : Option Primitive := all.find? fun p => p.selector == selector

def arity : Primitive → Nat
  | u => 3
  | rx | ry | rz | rtheta => 1
  | _ => 0

/-- Off-diagonal gates can create new basis-state amplitudes. -/
def isOffDiagonal : Primitive → Bool
  | h | rx | ry => true
  | _ => false

def encodesAngle : Primitive → Bool
  | rx | ry | rz | rtheta => true
  | _ => false

def halvesAngle : Primitive → Bool
  | rx | ry | rz => true
  | _ => false

end Primitive

inductive Channel where
  | mixamp | mixphase
  deriving DecidableEq, Repr

namespace Channel

def all : List Channel := [mixamp, mixphase]

def name : Channel → String
  | mixamp => "mixamp"
  | mixphase => "mixphase"

def kind : Channel → Nat
  | mixamp => 0
  | mixphase => 1

def ofName? (name : String) : Option Channel := all.find? fun c => c.name == name

def ofKind? (kind : Nat) : Option Channel := all.find? fun c => c.kind == kind

end Channel

namespace Gate

def single? (name : String) : Option Primitive := Primitive.ofName? name

def controlled? (name : String) : Option Primitive :=
  match name.toList with
  | 'c' :: rest => Primitive.ofName? (String.ofList rest)
  | _ => none

def channel? (name : String) : Option Channel := Channel.ofName? name

def primitive? (name : String) : Option Primitive := (single? name).or (controlled? name)

def isChannel (name : String) : Bool := (channel? name).isSome

def isOffDiagonal (name : String) : Bool := (primitive? name).any Primitive.isOffDiagonal

def encodesAngle (name : String) : Bool := (primitive? name).any Primitive.encodesAngle

def halvesAngle (name : String) : Bool := (primitive? name).any Primitive.halvesAngle

def arity (name : String) : Nat :=
  match primitive? name with
  | some p => p.arity
  | none => if isChannel name then 1 else 0

/-- Strips one letter `c` after the other until a controlled gate name is left. -/
def splitFrom : List Char → Nat → Option (String × Nat)
  | [], _ => none
  | c :: rest, extra =>
    if c = 'c' then
      if (controlled? (String.ofList (c :: rest))).isSome then
        some (String.ofList (c :: rest), extra + 1)
      else splitFrom rest (extra + 1)
    else none

/-- The controlled gate and the number of controls of a possibly
multi-controlled name: `ccx` has base `cx` and two controls. -/
def splitControls (name : String) : Option (String × Nat) := splitFrom name.toList 0

def controlledName (base : String) (controls : Int) : String :=
  String.ofList (List.replicate (controls - 1).toNat 'c') ++ base

end Gate
end Sequencer
