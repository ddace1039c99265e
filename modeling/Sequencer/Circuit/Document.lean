import Sequencer.Circuit.Basic
import Sequencer.Decimal.Notation
import Sequencer.Json.Value

/-!
# The document of a circuit

A circuit as a JSON document. Fields come in a fixed order, the keys of maps
in the order of their characters, timeslices as decimal keys. A circuit
without registers of a kind has a null in place of their list.
-/

namespace Sequencer

/-- A parameter that JSON has no number for. -/
structure UnwritableValue where
  value : Float

def UnwritableValue.message (e : UnwritableValue) : String :=
  "encode circuit json: json: unsupported value: " ++ Decimal.general e.value

namespace Json

def ofFloat (x : Float) : Json := .number (Decimal.text Decimal.Layout.json x)

def ofFloat? (x : Float) : Except UnwritableValue Json :=
  if x.isFinite then .ok (ofFloat x) else .error ⟨x⟩

def sortedObject (members : List (String × Json)) : Json :=
  .object (members.mergeSort fun a b => a.1 ≤ b.1)

end Json

def Condition.toJson (k : Condition) : Json :=
  .object [("register", .string k.register), ("value", .ofInt k.value), ("kind", .ofInt k.kind.code)]

/-- A node; empty lists and an absent condition are left out. -/
def Node.toJson (n : Node) : Except UnwritableValue Json := do
  let params ← n.params.mapM Json.ofFloat?
  let optional (empty : Bool) (name : String) (value : Json) : List (String × Json) :=
    if empty then [] else [(name, value)]
  return .object <|
    [("gate", .string n.gate), ("controlled", .bool n.controlled)] ++
    optional n.partners.isEmpty "partners" (.strings n.partners) ++
    optional n.bits.isEmpty "cregs" (.strings n.bits) ++
    optional params.isEmpty "params" (.array params) ++
    [("target", .bool n.target), ("timeslice", .ofInt n.timeslice),
     ("has_parameter", .bool n.hasParameter), ("measurement", .bool n.measurement),
     ("reset", .bool n.reset), ("barrier", .bool n.barrier)] ++
    (match n.cond with
     | none => []
     | some k => [("cond", k.toJson)])

def Register.toJson (r : Register) : Json :=
  .object [("name", .string r.name), ("size", .ofInt r.size)]

namespace Circuit

def registersJson (registers : List Register) : Json :=
  if registers.isEmpty then .null else .array (registers.map Register.toJson)

/-- Each name once, with the index of its last declaration. -/
def indexMap (names : List String) : Assoc String Nat := Assoc.ofList names.zipIdx

def indexJson (names : List String) : Json :=
  .sortedObject ((indexMap names).entries.map fun e => (e.1, .ofNat e.2))

def marksJson (marks : Assoc String Int) : Json :=
  .sortedObject (marks.entries.map fun e => (e.1, .ofInt e.2))

def writesJson (line : Timeline String) : Json :=
  .sortedObject (line.entries.map fun e => (toString e.1, .string e.2))

/-- Members by key, so that the first unwritable value in the order of the
document is the one reported. -/
def sortedByKey {α : Type} (l : List (String × α)) : List (String × α) :=
  l.mergeSort fun a b => a.1 ≤ b.1

def timelineJson (line : Timeline Node) : Except UnwritableValue Json := do
  let nodes := sortedByKey (line.entries.map fun e => (toString e.1, e.2))
  let members ← nodes.mapM fun e => do return (e.1, ← e.2.toJson)
  return .object members

def toJson (c : Circuit) : Except UnwritableValue Json := do
  let qubits ← (sortedByKey c.timelines.entries).mapM fun e => do
    return (e.1, ← timelineJson e.2)
  return .object [
    ("name", .string c.name),
    ("quantum_registers", registersJson c.quantum),
    ("classical_registers", registersJson c.classical),
    ("qubits_idx", indexJson c.qubits),
    ("cregs_idx", indexJson c.bits),
    ("qubit_max_time_slice", marksJson c.qubitMarks),
    ("creg_max_time_slice", marksJson c.bitMarks),
    ("max_time_slice", .ofInt c.lastSlice),
    ("measured_max_time_slice", .ofInt c.lastMeasured),
    ("cregs", .sortedObject (c.writes.entries.map fun e => (e.1, writesJson e.2))),
    ("qubits", .object qubits)]

def documentText (c : Circuit) : Except UnwritableValue String := do
  return (← c.toJson).indented 0 ++ "\n"

end Circuit
end Sequencer
