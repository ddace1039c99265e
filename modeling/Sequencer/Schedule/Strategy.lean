import Sequencer.Circuit.Basic

/-!
# Rescheduling

A circuit is rescheduled by visiting its nodes timeslice by timeslice, and in
each timeslice qubit by qubit, and copying each node into an empty circuit
over the same registers. A strategy chooses the new timeslice of the first
node of a gate instance; the other nodes of the instance follow it.
-/

namespace Sequencer

structure InstanceKey where
  slice : Int
  participants : String
  deriving DecidableEq, Repr

/-- The participants in order of their names, joined by commas. -/
def InstanceKey.of (qubit : String) (t : Int) (n : Node) : InstanceKey :=
  if n.isMultiQubit then
    ⟨t, ",".intercalate ((qubit :: n.partners).mergeSort fun a b => a ≤ b)⟩
  else ⟨t, qubit⟩

structure Strategy (σ : Type) where
  start : σ
  /-- The new timeslice of an instance, met first at this node. -/
  choose : σ → String → Int → Node → Int × σ
  moved : σ → String → Int → Int → σ

structure Rescheduling (σ : Type) where
  circuit : Circuit
  memory : σ
  chosen : Assoc InstanceKey Int := {}

namespace Strategy

variable {σ : Type}

/-- The new timeslice of a node: that of its instance, or a new choice. -/
def slotOf (s : Strategy σ) (r : Rescheduling σ) (qubit : String) (t : Int) (n : Node) : Int × σ :=
  match r.chosen.get? (.of qubit t n) with
  | some slot => (slot, r.memory)
  | none => s.choose r.memory qubit t n

def visit (s : Strategy σ) (r : Rescheduling σ) (qubit : String) (t : Int) (n : Node) :
    Except Fault (Rescheduling σ) :=
  let (slot, memory) := s.slotOf r qubit t n
  match r.circuit.place qubit { n with timeslice := slot } with
  | (_, some f) => .error f
  | (c, none) => .ok {
      circuit := c
      memory := s.moved memory qubit t slot
      chosen := if n.isMultiQubit then r.chosen.insert (.of qubit t n) slot else r.chosen }

end Strategy

namespace Circuit

variable {σ : Type}

def reschedule (c : Circuit) (s : Strategy σ) : Except Fault Circuit := do
  let r ← c.visits.foldlM (fun r v => s.visit r v.2.1 v.1 v.2.2)
    { circuit := c.skeleton, memory := s.start }
  return r.circuit

/-- At least one node can be moved, whatever becomes of the others. -/
def movesFirst (c : Circuit) (s : Strategy σ) : Bool :=
  match c.visits with
  | [] => false
  | v :: _ =>
    (s.visit { circuit := c.skeleton, memory := s.start } v.2.1 v.1 v.2.2).toOption.isSome

end Circuit

end Sequencer
