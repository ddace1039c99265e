import Sequencer.Assoc
import Sequencer.Fault
import Sequencer.Timeline

/-!
# Circuits

A circuit is one sparse timeline of nodes per qubit, over declared quantum and
classical registers, together with the marks that the builder works with: the
last occupied timeslice of each qubit and bit, of the circuit, and of its
measurements. Timeslices start at 1; a qubit without a node is idle there.

Declaring a register name again is possible: its elements are listed once
more, their index is the later one, and their timelines start afresh.
-/

namespace Sequencer

inductive TestKind where
  | bit
  | register
  /-- A code without a meaning of its own; it is tested like a bit. -/
  | unlisted (code : Int)
  deriving DecidableEq, Repr

def TestKind.code : TestKind → Int
  | .bit => 0
  | .register => 1
  | .unlisted code => code

def TestKind.ofCode (code : Int) : TestKind :=
  if code = 0 then .bit else if code = 1 then .register else .unlisted code

/-- The classical guard of an operation. It names a bit or a register, as its
kind says. -/
structure Condition where
  register : String
  value : Int
  kind : TestKind
  deriving DecidableEq, Repr

/-- The operation one qubit performs in one timeslice. -/
structure Node where
  gate : String
  controlled : Bool := false
  /-- The controls at the target of a controlled gate, the other participants elsewhere. -/
  partners : List String := []
  bits : List String := []
  params : List Float := []
  target : Bool := false
  timeslice : Int := 0
  hasParameter : Bool := false
  measurement : Bool := false
  reset : Bool := false
  barrier : Bool := false
  cond : Option Condition := none
  deriving DecidableEq

namespace Node

def isConditioned (n : Node) : Bool := n.cond.isSome

def isMultiQubit (n : Node) : Bool := !n.partners.isEmpty

/-- Barriers, measurements, resets and decoherence have no encoding that
carries a condition. The caller tells whether the gate is a channel. -/
def takesCondition (n : Node) (channel : Bool) : Bool :=
  !n.barrier && !n.measurement && !n.reset && !channel

end Node

def elementName (register : String) (i : Int) : String :=
  register ++ "[" ++ toString i ++ "]"

structure Register where
  name : String
  size : Int
  deriving DecidableEq, Repr

/-- The elements of a register; a negative size has none. -/
def Register.elements (r : Register) : List String :=
  (List.range r.size.toNat).map fun (i : Nat) => elementName r.name i

def lastIndexOf? {α : Type} [DecidableEq α] (x : α) : List α → Option Nat
  | [] => none
  | y :: rest =>
    match lastIndexOf? x rest with
    | some i => some (i + 1)
    | none => if x = y then some 0 else none

structure Circuit where
  name : String
  quantum : List Register := []
  classical : List Register := []
  timelines : Assoc String (Timeline Node) := {}
  /-- For each classical bit, the qubit measured into it at a timeslice. -/
  writes : Assoc String (Timeline String) := {}
  qubitMarks : Assoc String Int := {}
  bitMarks : Assoc String Int := {}
  lastSlice : Int := 0
  lastMeasured : Int := 0

namespace Circuit

def qubits (c : Circuit) : List String := c.quantum.flatMap Register.elements

def bits (c : Circuit) : List String := c.classical.flatMap Register.elements

def numQubits (c : Circuit) : Nat := c.qubits.length

def hasQubit (c : Circuit) (name : String) : Bool := c.qubits.contains name

def hasBit (c : Circuit) (name : String) : Bool := c.bits.contains name

def qubitIndex (c : Circuit) (name : String) : Except Fault Nat :=
  match lastIndexOf? name c.qubits with
  | some i => .ok i
  | none => .error (.unknownQubit name)

def bitIndex (c : Circuit) (name : String) : Except Fault Nat :=
  match lastIndexOf? name c.bits with
  | some i => .ok i
  | none => .error (.unknownBit name)

def sizeOf (registers : List Register) (name : String) : Int :=
  match registers.find? fun r => r.name == name with
  | some r => r.size
  | none => 0

def quantumSize (c : Circuit) (name : String) : Int := sizeOf c.quantum name

def classicalSize (c : Circuit) (name : String) : Int := sizeOf c.classical name

def timeline (c : Circuit) (qubit : String) : Timeline Node := (c.timelines.get? qubit).getD .empty

def at? (c : Circuit) (qubit : String) (t : Int) : Option Node := (c.timeline qubit).get? t

def bitWrites (c : Circuit) (bit : String) : Timeline String := (c.writes.get? bit).getD .empty

def mark (marks : Assoc String Int) (name : String) : Int := (marks.get? name).getD 0

def raise (marks : Assoc String Int) (name : String) (t : Int) : Assoc String Int :=
  marks.insert name (max (mark marks name) t)

def slices (c : Circuit) : List Int := (List.range c.lastSlice.toNat).map fun (i : Nat) => (i : Int) + 1

def visitsAt (c : Circuit) (t : Int) : List (Int × String × Node) :=
  c.qubits.filterMap fun q => (c.at? q t).map fun n => (t, q, n)

def visits (c : Circuit) : List (Int × String × Node) := c.slices.flatMap c.visitsAt

def isIdle (c : Circuit) (t : Int) : Bool := c.qubits.all fun q => (c.at? q t).isNone

def nodeCount (c : Circuit) : Nat := c.timelines.entries.foldr (fun e n => e.2.size + n) 0

def declareQubits (c : Circuit) (register : String) (size : Int) : Circuit :=
  let r : Register := ⟨register, size⟩
  { c with
    quantum := c.quantum ++ [r]
    timelines := r.elements.foldl (fun m q => m.insert q .empty) c.timelines
    qubitMarks := r.elements.foldl (fun m q => m.insert q 0) c.qubitMarks }

def declareBits (c : Circuit) (register : String) (size : Int) : Circuit :=
  let r : Register := ⟨register, size⟩
  { c with
    classical := c.classical ++ [r]
    writes := r.elements.foldl (fun m b => m.insert b .empty) c.writes
    bitMarks := r.elements.foldl (fun m b => m.insert b 0) c.bitMarks }

def ofRegisters (name : String) (quantum classical : List Register) : Circuit :=
  let c := quantum.foldl (fun c r => c.declareQubits r.name r.size) { name := name }
  classical.foldl (fun c r => c.declareBits r.name r.size) c

def skeleton (c : Circuit) : Circuit := ofRegisters c.name c.quantum c.classical

def store (c : Circuit) (qubit : String) (line : Timeline Node) (n : Node) : Circuit :=
  { c with
    timelines := c.timelines.insert qubit (line.insert n.timeslice n)
    qubitMarks := raise c.qubitMarks qubit n.timeslice
    lastSlice := max c.lastSlice n.timeslice }

/-- Notes that `qubit` is measured at `t` into the bits in turn. An undeclared
bit is a fault that keeps what was noted before it. -/
def noteWrites (qubit : String) (t : Int) : List String → Circuit → Circuit × Option Fault
  | [], c => (c, none)
  | bit :: rest, c =>
    match c.writes.get? bit with
    | none => (c, some .outOfRange)
    | some line =>
      noteWrites qubit t rest
        { c with
          writes := c.writes.insert bit (line.insert t qubit)
          bitMarks := raise c.bitMarks bit t }

/-- Puts a node on a qubit at its timeslice. An undeclared qubit is a fault that
changes nothing; an undeclared bit of a measurement is one that comes after
the node and the marks were stored. -/
def place (c : Circuit) (qubit : String) (n : Node) : Circuit × Option Fault :=
  match c.timelines.get? qubit with
  | none => (c, some .outOfRange)
  | some line =>
    let stored := c.store qubit line n
    if n.measurement then
      noteWrites qubit n.timeslice n.bits
        { stored with lastMeasured := max stored.lastMeasured n.timeslice }
    else (stored, none)

end Circuit
end Sequencer
