import Sequencer.Circuit.Basic
import Sequencer.Schedule.Basic
import Sequencer.Simulation.GateMatrix

/-!
# Running circuits

A unitary circuit is a sequence of gate applications in timeslice order;
running it applies them to the state in which every qubit is zero. Barriers
have no effect.
-/

namespace Sequencer

inductive SimulationError where
  | notUnitary (qubit : String) (t : Int) (gate : String)
  | conditioned (qubit : String) (t : Int) (gate : String)
  | decoherence (qubit : String) (t : Int) (gate : String)
  | unknownGate (qubit : String) (t : Int) (gate : String)
  | fault (f : Fault)

namespace SimulationError

def place (qubit : String) (t : Int) : String := qubit ++ " at timeslice " ++ toString t ++ ": "

def message : SimulationError → String
  | .notUnitary qubit t gate => place qubit t ++ gate ++ " is not unitary"
  | .conditioned qubit t gate => place qubit t ++ "conditioned " ++ gate
  | .decoherence qubit t gate => place qubit t ++ "decoherence " ++ gate
  | .unknownGate qubit t gate => place qubit t ++ "unknown gate " ++ Text.quote gate
  | .fault f => f.message?.getD ""

end SimulationError

def Node.obstacle? (n : Node) (qubit : String) (t : Int) : Option SimulationError :=
  if n.barrier then none
  else if n.measurement || n.reset then some (.notUnitary qubit t n.gate)
  else if n.isConditioned then some (.conditioned qubit t n.gate)
  else if Gate.isChannel n.gate then some (.decoherence qubit t n.gate)
  else none

/-- The primitive a node applies: a controlled node drops the first letter of
its gate name, and has one at least. -/
def Node.primitive? (n : Node) : Except Fault (Option Primitive) :=
  if n.controlled then
    match n.gate.toList with
    | [] => .error .outOfRange
    | c :: rest => .ok (if c.toNat < 0x80 then Gate.single? (String.ofList rest) else none)
  else .ok (Gate.single? n.gate)

structure Application where
  gate : Primitive
  params : List Float
  target : Nat
  controls : List Nat

namespace Circuit

def checkUnitary (c : Circuit) : Except SimulationError Unit :=
  let obstacles := c.qubits.flatMap fun q =>
    (c.timeline q).entries.filterMap fun e => e.2.obstacle? q e.1
  match obstacles.head? with
  | some e => .error e
  | none => .ok ()

def application? (c : Circuit) (t : Int) (qubit : String) (n : Node) :
    Except SimulationError (Option Application) := do
  if n.barrier || !n.target then return none
  match ← n.primitive?.mapError .fault with
  | none => throw (.unknownGate qubit t n.gate)
  | some p =>
    let controls ← if n.controlled then (n.partners.mapM c.qubitIndex).mapError .fault else pure []
    let target ← (c.qubitIndex qubit).mapError .fault
    return some ⟨p, n.params, target, controls⟩

def applications (c : Circuit) : Except SimulationError (List Application) := do
  let found ← c.visits.mapM fun v => c.application? v.1 v.2.1 v.2.2
  return found.filterMap id

end Circuit

def maxSimulatedQubits : Nat := 44

def groundState (qubits : Int) : Except Fault (StateVector Complex) :=
  if qubits < 0 ∨ (maxSimulatedQubits : Int) < qubits then .error .outOfRange
  else .ok (.ground qubits.toNat)

/-- Applies gates one after the other, with the entries of their matrices and
the amplitudes of any type. -/
def StateVector.run {α : Type} [Zero α] [Add α] [Mul α]
    (matrix : Primitive → List Float → Matrix2 α) (s : StateVector α)
    (applications : List Application) : StateVector α :=
  applications.foldl (fun s a => s.apply (matrix a.gate a.params) a.target a.controls) s

def Circuit.simulate (c : Circuit) : Except SimulationError (StateVector Complex) := do
  c.checkUnitary
  let start ← (groundState c.numQubits).mapError .fault
  return start.run Primitive.matrix (← c.applications)

def StateVector.probabilities (s : StateVector Complex) : List (Float × Float) :=
  (List.range s.qubits).map fun q =>
    s.amplitudes.toList.zipIdx.foldl (fun (p : Float × Float) e =>
      if e.2.testBit q then (p.1, p.2 + e.1.normSq) else (p.1 + e.1.normSq, p.2)) (0.0, 0.0)

def StateVector.fidelity (s o : StateVector Complex) : Float :=
  let inner := (s.amplitudes.toList.zip o.amplitudes.toList).foldl
    (fun (sum : Complex) e => sum + e.1.conj * e.2) 0
  inner.normSq

def Circuit.scheduleFidelity (c : Circuit) (o : ScheduleOptions) : Except SimulationError Float := do
  let before ← c.simulate
  let after ← ((c.schedule o).mapError .fault).bind Circuit.simulate
  return before.fidelity after

end Sequencer
