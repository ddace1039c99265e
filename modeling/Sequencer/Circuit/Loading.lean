import Sequencer.Circuit.Basic
import Sequencer.Json.Fields
import Sequencer.Json.Reader

/-!
# Circuits from documents

Reads the document of a circuit: the registers are declared again, every node
is placed at the timeslice it is keyed with, and the recorded writes and marks
go over the ones that placing gave. The recorded indices must be those of the
declared registers.
-/

namespace Sequencer

inductive LoadError where
  | notJson
  | wrongType
  | indexMismatch
  | unknownQubit (name : String)
  | unknownBit (name : String)
  | badKey (key : String) (error : Decimal.NumberError)
  | wrongSlice (qubit : String) (key claimed : Int)
  | fault (f : Fault)

def LoadError.message : LoadError → String
  | .notJson => "decode circuit json: not a JSON text"
  | .wrongType => "decode circuit json: a value of the wrong type"
  | .indexMismatch => "circuit json: register indices do not match declarations"
  | .unknownQubit name => "circuit json: unknown qubit " ++ Text.quote name
  | .unknownBit name => "circuit json: unknown classical bit " ++ Text.quote name
  | .badKey key error =>
    "circuit json: timeslice key " ++ Text.quote key ++ ": strconv.Atoi: parsing " ++
      Text.quote key ++ ": " ++ error.message
  | .wrongSlice qubit key claimed =>
    "circuit json: " ++ qubit ++ " node keyed " ++ toString key ++ " claims timeslice " ++
      toString claimed
  | .fault f => f.message?.getD ""

open Json

def Condition.zero : Condition := ⟨"", 0, .bit⟩

def Condition.overJson : Over Condition := overRecord [
  field "register" Condition.register (fun v k => { k with register := v }) overString,
  field "value" Condition.value (fun v k => { k with value := v }) overInt,
  field "kind" (fun k => k.kind.code) (fun v k => { k with kind := .ofCode v }) overInt]

structure NodeDraft where
  node : Node := { gate := "" }
  partners : Layers String := {}
  bits : Layers String := {}
  params : Layers Float := {}

namespace NodeDraft

def flag (name : String) (get : Node → Bool) (set : Bool → Node → Node) : RecordField NodeDraft :=
  field name (fun d => get d.node) (fun v d => { d with node := set v d.node }) overBool

def overJson : Over NodeDraft := overRecord [
  field "gate" (fun d => d.node.gate)
    (fun v d => { d with node := { d.node with gate := v } }) overString,
  flag "controlled" Node.controlled fun v n => { n with controlled := v },
  field "partners" partners (fun v d => { d with partners := v }) (overList "" overString),
  field "cregs" bits (fun v d => { d with bits := v }) (overList "" overString),
  field "params" params (fun v d => { d with params := v }) (overList 0.0 overFloat),
  flag "target" Node.target fun v n => { n with target := v },
  field "timeslice" (fun d => d.node.timeslice)
    (fun v d => { d with node := { d.node with timeslice := v } }) overInt,
  flag "has_parameter" Node.hasParameter fun v n => { n with hasParameter := v },
  flag "measurement" Node.measurement fun v n => { n with measurement := v },
  flag "reset" Node.reset fun v n => { n with reset := v },
  flag "barrier" Node.barrier fun v n => { n with barrier := v },
  field "cond" (fun d => d.node.cond)
    (fun v d => { d with node := { d.node with cond := v } })
    (overOptional Condition.zero Condition.overJson)]

def toNode (d : NodeDraft) : Node :=
  { d.node with partners := d.partners.items, bits := d.bits.items, params := d.params.items }

end NodeDraft

def Node.ofJson? (j : Json) : Option Node := (NodeDraft.overJson {} j).map NodeDraft.toNode

def Register.overJson : Over Register := overRecord [
  field "name" Register.name (fun v r => { r with name := v }) overString,
  field "size" Register.size (fun v r => { r with size := v }) overInt]

structure CircuitDraft where
  name : String := ""
  quantum : Layers Register := {}
  classical : Layers Register := {}
  qubitIndex : Assoc String Int := {}
  bitIndex : Assoc String Int := {}
  qubitMarks : Assoc String Int := {}
  bitMarks : Assoc String Int := {}
  lastSlice : Int := 0
  lastMeasured : Int := 0
  writes : Assoc String (Assoc String String) := {}
  nodes : Assoc String (Assoc String (Option NodeDraft)) := {}

namespace CircuitDraft

def overJson : Over CircuitDraft := overRecord [
  field "name" name (fun v d => { d with name := v }) overString,
  field "quantum_registers" quantum (fun v d => { d with quantum := v })
    (overList ⟨"", 0⟩ Register.overJson),
  field "classical_registers" classical (fun v d => { d with classical := v })
    (overList ⟨"", 0⟩ Register.overJson),
  field "qubits_idx" qubitIndex (fun v d => { d with qubitIndex := v }) (overMap 0 overInt),
  field "cregs_idx" bitIndex (fun v d => { d with bitIndex := v }) (overMap 0 overInt),
  field "qubit_max_time_slice" qubitMarks (fun v d => { d with qubitMarks := v }) (overMap 0 overInt),
  field "creg_max_time_slice" bitMarks (fun v d => { d with bitMarks := v }) (overMap 0 overInt),
  field "max_time_slice" lastSlice (fun v d => { d with lastSlice := v }) overInt,
  field "measured_max_time_slice" lastMeasured (fun v d => { d with lastMeasured := v }) overInt,
  field "cregs" writes (fun v d => { d with writes := v }) (overMap {} (overMap "" overString)),
  field "qubits" nodes (fun v d => { d with nodes := v })
    (overMap {} (overMap none (overOptional {} NodeDraft.overJson)))]

def indicesMatch (names : List String) (recorded : Assoc String Int) : Bool :=
  names.all (fun n => recorded.get? n == (lastIndexOf? n names).map fun i => (i : Int)) &&
    recorded.keys.all fun n => names.contains n

def sliceOf (key : String) : Except LoadError Int :=
  (Decimal.readInt key).mapError (.badKey key)

def placeKeyed (qubit : String) (c : Circuit) (key : String) (draft : Option NodeDraft) :
    Except LoadError Circuit := do
  let t ← sliceOf key
  match draft.map NodeDraft.toNode with
  | none => throw (.fault .outOfRange)
  | some n =>
    if n.timeslice ≠ t then throw (.wrongSlice qubit t n.timeslice)
    match c.place qubit n with
    | (c, none) => return c
    | (_, some f) => throw (.fault f)

def placeQubit (c : Circuit) (qubit : String) (nodes : Assoc String (Option NodeDraft)) :
    Except LoadError Circuit := do
  if !c.hasQubit qubit then throw (.unknownQubit qubit)
  nodes.entries.foldlM (fun c e => placeKeyed qubit c e.1 e.2) c

def recordWrites (c : Circuit) (bit : String) (writes : Assoc String String) :
    Except LoadError Circuit := do
  if !c.hasBit bit then throw (.unknownBit bit)
  let line ← writes.entries.foldlM
    (fun (line : Timeline String) e => do return line.insert (← sliceOf e.1) e.2) (c.bitWrites bit)
  return { c with writes := c.writes.insert bit line }

def toCircuitIn (d : CircuitDraft) (qubits : List (String × Assoc String (Option NodeDraft))) :
    Except LoadError Circuit := do
  let c := Circuit.ofRegisters d.name d.quantum.items d.classical.items
  if !(indicesMatch c.qubits d.qubitIndex && indicesMatch c.bits d.bitIndex) then
    throw .indexMismatch
  let c ← qubits.foldlM (fun c e => placeQubit c e.1 e.2) c
  let c ← d.writes.entries.foldlM (fun c e => recordWrites c e.1 e.2) c
  return { c with
    qubitMarks := c.qubitMarks.union d.qubitMarks
    bitMarks := c.bitMarks.union d.bitMarks
    lastSlice := max c.lastSlice d.lastSlice
    lastMeasured := max c.lastMeasured d.lastMeasured }

def toCircuit (d : CircuitDraft) : Except LoadError Circuit :=
  d.toCircuitIn (d.nodes.entries.mergeSort fun a b => a.1 ≤ b.1)

end CircuitDraft

/-- The circuit that the first JSON value of a text describes. -/
def Circuit.load (text : String) : Except LoadError Circuit :=
  match Json.read? text with
  | none => .error .notJson
  | some j =>
    match CircuitDraft.overJson {} j with
    | none => .error .wrongType
    | some d => d.toCircuit

end Sequencer
