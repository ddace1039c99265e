import Sequencer.Circuit.Label
import Sequencer.Gate

/-!
# OpenQASM text of a circuit

Each gate instance is written once, at its target or, without a target of its
own, at its participant of lowest index. The barriers of a timeslice are
written together after its other operations.
-/

namespace Sequencer.Circuit

def leads (c : Circuit) (qubit : String) (n : Node) : Except Fault Bool :=
  if n.controlled then .ok n.target
  else
    let rec lowest : List String → Except Fault Bool
      | [] => .ok true
      | p :: rest => do
        let other ← c.qubitIndex p
        let own ← c.qubitIndex qubit
        if other < own then return false
        lowest rest
    lowest n.partners

def guardText (cond : Option Condition) : String :=
  match cond with
  | none => ""
  | some k => "if(" ++ k.register ++ "==" ++ toString k.value ++ ") "

def joined (names : List String) : String := ", ".intercalate names

/-- The statement of a node, empty when another node of its instance writes it. -/
def statement (c : Circuit) (qubit : String) (n : Node) : Except Fault String := do
  if !(← c.leads qubit n) then return ""
  let guarded := guardText n.cond
  if n.measurement then
    match n.bits with
    | [] => throw .outOfRange
    | bit :: _ => return guarded ++ "measure " ++ qubit ++ " -> " ++ bit ++ ";\n"
  else if n.reset then return guarded ++ "reset " ++ qubit ++ ";\n"
  else if n.controlled then
    let name := Gate.controlledName n.gate n.partners.length
    let call := if n.hasParameter then name ++ "(" ++ Parameter.texts n.params ++ ")" else name
    return guarded ++ call ++ " " ++ joined n.partners ++ ", " ++ qubit ++ ";\n"
  else return guarded ++ n.label ++ " " ++ joined (qubit :: n.partners) ++ ";\n"

def sliceSource (c : Circuit) (t : Int) : Except Fault String := do
  let present := c.qubits.filterMap fun q => (c.at? q t).map fun n => (q, n)
  let others := present.filter fun e => !e.2.barrier
  let barriers := (present.filter fun e => e.2.barrier).map Prod.fst
  let texts ← others.mapM fun e => c.statement e.1 e.2
  let closing := if barriers.isEmpty then "" else "barrier " ++ joined barriers ++ ";\n"
  return String.join texts ++ closing

/-- The number of qubits of a channel in use, by its last node. -/
def channelArity? (c : Circuit) (name : String) : Option Nat :=
  let nodes := c.timelines.entries.flatMap fun e => e.2.values
  ((nodes.filter fun n => n.gate == name).getLast?).map fun n => n.partners.length + 1

def channelDeclarations (c : Circuit) : List String :=
  Channel.all.filterMap fun ch => (c.channelArity? ch.name).map fun arity =>
    let args := (List.range arity).map fun i => "a" ++ toString i
    "opaque " ++ ch.name ++ "(p) " ++ joined args ++ ";\n"

def source (c : Circuit) : Except Fault String := do
  let heading := "OPENQASM 2.0;\ninclude \"qelib1.inc\";\n\n"
  let declared (keyword : String) (r : Register) : String :=
    keyword ++ " " ++ r.name ++ "[" ++ toString r.size ++ "];\n"
  let registers := c.quantum.map (declared "qreg") ++ c.classical.map (declared "creg")
  let gap := if registers.isEmpty then "" else "\n"
  let body ← c.slices.mapM c.sliceSource
  return heading ++ String.join registers ++ String.join c.channelDeclarations ++ gap ++
    String.join body

end Sequencer.Circuit
