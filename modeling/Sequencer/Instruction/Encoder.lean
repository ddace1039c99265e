import Sequencer.Circuit.Basic
import Sequencer.Gate
import Sequencer.Instruction.MeasurementBuffer
import Sequencer.Instruction.Program
import Sequencer.Instruction.SliceBuffer

/-!
# Encoding circuits

Nodes are visited timeslice by timeslice, and in each timeslice qubit by
qubit; a timeslice is flushed after its last qubit. Gates, decoherence and
resets become groups of their timeslice; measurements are collected and written
before the first conditioned operation that follows them, or at the end.
-/

namespace Sequencer

inductive EncodeError where
  | cannotCondition (t : Int) (gate qubit : String)
  | unknownGate (t : Int) (gate : String)
  | unknownControlled (t : Int) (gate : String)
  | tooWide (category : Category) (bits : Nat)
  | conditionValue (t : Int) (gate : String) (value : Int) (bits : Nat)
  | conditionBit (t : Int) (gate : String) (bit : Int) (bits : Nat)
  | fault (f : Fault)

namespace EncodeError

def message : EncodeError → String
  | .cannotCondition t gate qubit =>
    "timeslice " ++ toString t ++ ": " ++ gate ++ " on " ++ qubit ++ " cannot be conditioned"
  | .unknownGate t gate => "timeslice " ++ toString t ++ ": unknown gate " ++ Text.quote gate
  | .unknownControlled t gate =>
    "timeslice " ++ toString t ++ ": unknown controlled gate " ++ Text.quote gate
  | .tooWide category bits =>
    category.name ++ " operands of " ++ toString bits ++ " bits do not fit in one word"
  | .conditionValue t gate value bits =>
    "timeslice " ++ toString t ++ ": " ++ gate ++ ": condition value " ++ toString value ++
      " does not fit in " ++ toString bits ++ " bits"
  | .conditionBit t gate bit bits =>
    "timeslice " ++ toString t ++ ": " ++ gate ++ ": classical bit " ++ toString bit ++
      " does not fit in " ++ toString bits ++ " bits"
  | .fault f => f.message?.getD ""

end EncodeError

def orFault {α : Type} (r : Except Fault α) : Except EncodeError α := r.mapError .fault

inductive BitTest where
  | bit (index : Int) (value : Int)
  | range (low high : Int) (value : Int)
  deriving DecidableEq, Repr

namespace BitTest

def isRange : BitTest → Bool
  | .bit _ _ => false
  | .range _ _ _ => true

def top : BitTest → Int
  | .bit index _ => index
  | .range _ high _ => high

def fields (y : Layout) : BitTest → List BitField
  | .bit index value => [.ofInt index y.qubitBits, .ofInt value 1]
  | .range low high value =>
    [.ofInt low y.qubitBits, .ofInt high y.qubitBits, .ofInt value y.qubits]

end BitTest

/-- Resolves a condition to the indices of the bits it tests. A register is
tested against a number of as many bits as there are qubits. -/
def Circuit.bitTest (c : Circuit) (y : Layout) (t : Int) (gate : String) (k : Condition) :
    Except EncodeError BitTest := do
  let test : BitTest ←
    if k.kind = .register then do
      let low ← orFault (c.bitIndex (elementName k.register 0))
      if k.value < 0 ∨ (y.qubits < 63 ∧ Nat.pow 2 y.qubits ≤ k.value) then
        throw (.conditionValue t gate k.value y.qubits)
      pure (.range low (Integer.wrap (low + c.classicalSize k.register - 1)) k.value)
    else do
      let index ← orFault (c.bitIndex k.register)
      pure (.bit index (k.value % 2))
  if Nat.pow 2 y.qubitBits ≤ test.top then throw (.conditionBit t gate test.top y.qubitBits)
  return test

/-- The bits of the qubits at the given indices; there are 64 of them. -/
def controlMask (indices : List Nat) : Nat :=
  indices.foldl (fun m i => m ||| (if i < 64 then Nat.pow 2 i else 0)) 0

/-- One control by its index, several by a mask. -/
def Circuit.controlField (c : Circuit) (y : Layout) (controls : List String) :
    Except Fault BitField := do
  match controls with
  | [q] => return ⟨← c.qubitIndex q, y.qubitBits⟩
  | _ => return ⟨controlMask (← controls.mapM c.qubitIndex), y.qubits⟩

def Node.angleTrail (n : Node) : Trail :=
  match n.params with
  | theta :: _ =>
    if Gate.encodesAngle n.gate then
      .angle (Fixed.angleWord (if Gate.halvesAngle n.gate then theta / 2.0 else theta))
    else .none
  | [] => .none

def selectorField (p : Primitive) : BitField := ⟨p.selector, Layout.selectorBits⟩

def Layout.checked (y : Layout) (l : Lane) : Except EncodeError Lane :=
  if y.fits l then .ok l else .error (.tooWide l.category (y.width l))

def testFields (y : Layout) (test : Option BitTest) : List BitField :=
  (test.map (BitTest.fields y)).getD []

def singleLane : Option BitTest → Lane
  | none => .single
  | some test => if test.isRange then .singleRange else .singleBit

def controlLane (mask : Bool) : Option BitTest → Lane
  | none => if mask then .controlMany else .controlOne
  | some test => .controlCond mask test.isRange

namespace Circuit

def optionalTest (c : Circuit) (y : Layout) (t : Int) (n : Node) :
    Except EncodeError (Option BitTest) :=
  match n.cond with
  | none => .ok none
  | some k => (c.bitTest y t n.gate k).map some

def singleGroup (c : Circuit) (y : Layout) (t : Int) (index : Nat) (n : Node) :
    Except EncodeError (Lane × Group) := do
  match Gate.single? n.gate with
  | none => throw (.unknownGate t n.gate)
  | some p =>
    let test ← c.optionalTest y t n
    let lane ← y.checked (singleLane test)
    return (lane,
      ⟨⟨index, y.qubitBits⟩ :: selectorField p :: testFields y test, n.angleTrail⟩)

def controlledGroup (c : Circuit) (y : Layout) (t : Int) (index : Nat) (n : Node) :
    Except EncodeError (Lane × Group) := do
  match Gate.controlled? n.gate with
  | none => throw (.unknownControlled t n.gate)
  | some p =>
    let test ← c.optionalTest y t n
    let lane ← y.checked (controlLane (1 < n.partners.length) test)
    let controls ← orFault (c.controlField y n.partners)
    return (lane,
      ⟨controls :: ⟨index, y.qubitBits⟩ :: selectorField p :: testFields y test, n.angleTrail⟩)

def decoherenceGroup (y : Layout) (index : Nat) (channel : Channel) (n : Node) :
    Except EncodeError (Lane × Group) := do
  let lane ← y.checked .decoherence
  return (lane, ⟨[⟨index, y.qubitBits⟩, ⟨channel.kind, 1⟩],
    .probability (Fixed.ofFloat (n.params.headD 0.0))⟩)

def resetGroup (y : Layout) (index : Nat) : Except EncodeError (Lane × Group) := do
  let lane ← y.checked .reset
  return (lane, ⟨[⟨index, y.qubitBits⟩], .none⟩)

/-- The group of a node that is neither a barrier nor a measurement; none for
a control, whose gate is encoded at its target. -/
def groupOf (c : Circuit) (y : Layout) (t : Int) (index : Nat) (n : Node) :
    Except EncodeError (Option (Lane × Group)) :=
  if n.reset then (resetGroup y index).map some
  else
    match Gate.channel? n.gate with
    | some channel => (decoherenceGroup y index channel n).map some
    | none =>
      if n.controlled then
        if n.target then (c.controlledGroup y t index n).map some else .ok none
      else (c.singleGroup y t index n).map some

end Circuit

structure Emission where
  slices : Timeline SliceBuffer := .empty
  pending : MeasurementBuffer

namespace Emission

def slice (e : Emission) (t : Int) : SliceBuffer := (e.slices.get? t).getD {}

def flush (e : Emission) : Except EncodeError Emission :=
  if e.pending.isFlushed then .ok e
  else
    match e.pending.close with
    | .error f => .error (.fault f)
    | .ok (words, t, rest) =>
      .ok { slices := e.slices.insert t ((e.slice t).addMeasured words), pending := rest }

def measure (e : Emission) (index : Nat) (t : Int) : Except EncodeError Emission :=
  match e.pending.add index t with
  | (_, some f) => .error (.fault f)
  | (b, none) => .ok { e with pending := b }

def addGroup (e : Emission) (y : Layout) (t : Int) (l : Lane) (g : Group) :
    Except EncodeError Emission := do
  let s ← orFault ((e.slice t).add y l g)
  return { e with slices := e.slices.insert t s }

/-- A conditioned gate needs the measurements before it. -/
def needsMeasured (n : Node) : Bool :=
  n.isConditioned && !n.barrier && !n.measurement &&
    (if n.controlled then n.target && (Gate.controlled? n.gate).isSome
      else (Gate.single? n.gate).isSome)

/-- What is done before a node is encoded: its qubit is looked up, its
condition must be allowed, and pending measurements are written if it needs
them. -/
def before (c : Circuit) (e : Emission) (t : Int) (qubit : String) (n : Node) :
    Except EncodeError (Nat × Emission) := do
  let index ← orFault (c.qubitIndex qubit)
  if n.isConditioned && !n.takesCondition (Gate.isChannel n.gate) then
    throw (.cannotCondition t n.gate qubit)
  return (index, ← if needsMeasured n then e.flush else pure e)

def visit (c : Circuit) (y : Layout) (e : Emission) (t : Int) (qubit : String) (n : Node) :
    Except EncodeError Emission := do
  let (index, e) ← e.before c t qubit n
  if n.barrier then return e
  if n.measurement then return ← e.measure index t
  match ← c.groupOf y t index n with
  | none => return e
  | some (lane, group) => e.addGroup y t lane group

def finish (e : Emission) (t : Int) : Emission :=
  match e.slices.get? t with
  | none => e
  | some s => { e with slices := e.slices.insert t s.flush }

/-- Some batch of measurements is written before encoding ends, well or not. -/
def writesBatch (c : Circuit) (y : Layout) : Emission → List (Int × String × Node) → Bool
  | e, [] => !e.pending.isFlushed && e.flush.toOption.isSome
  | e, (t, qubit, n) :: rest =>
    match e.before c t qubit n with
    | .error _ => false
    | .ok (_, ready) =>
      (!e.pending.isFlushed && ready.pending.isFlushed) ||
        match e.visit c y t qubit n with
        | .error _ => false
        | .ok e => writesBatch c y e rest

end Emission

namespace Circuit

def encodeSlice (c : Circuit) (y : Layout) (e : Emission) (t : Int) : Except EncodeError Emission := do
  let e ← (c.visitsAt t).foldlM (fun (e : Emission) v => e.visit c y v.1 v.2.1 v.2.2) e
  return e.finish t

def encode (c : Circuit) : Except EncodeError InstructionProgram := do
  let y := Layout.ofCount c.numQubits
  let e ← c.slices.foldlM (c.encodeSlice y) { pending := .ofWidth y.qubitBits }
  let e ← e.flush
  return {
    qubits := c.numQubits
    qubitBits := y.qubitBits
    slices := e.slices.entries.map fun s => ⟨s.1, s.2.words⟩ }

def writesBatch (c : Circuit) : Bool :=
  let y := Layout.ofCount c.numQubits
  Emission.writesBatch c y { pending := .ofWidth y.qubitBits } c.visits

end Circuit

end Sequencer
