import Sequencer.Circuit.Basic
import Sequencer.Gate
import Sequencer.Integer

/-!
# Building circuits

Each call appends one operation: it checks its arguments, picks the first
timeslice after the last operation of every participant, and places one node
per participant there. A conditioned operation also waits for every
measurement placed so far. A call works on the circuit in place, so a call that
fails leaves what it has done until then; since all checks come first, that is
the circuit as it was.
-/

namespace Sequencer

inductive BuildError where
  | unknownQubit (name : String)
  | repeatedQubit (name : String)
  | unknownBit (name : String)
  | unknownRegister (name : String)
  | bitOutOfRange (name : String)
  | noControls (gate : String)
  | noQubits (name : String)
  | unevenMeasure (qubits bits : Nat)
  deriving DecidableEq, Repr

def BuildError.message : BuildError → String
  | .unknownQubit name => "unknown qubit " ++ Text.quote name
  | .repeatedQubit name => "qubit " ++ Text.quote name ++ " used twice in one operation"
  | .unknownBit name => "unknown classical bit " ++ Text.quote name
  | .unknownRegister name => "unknown classical register " ++ Text.quote name
  | .bitOutOfRange name => "classical bit " ++ name ++ " out of range"
  | .noControls gate => gate ++ ": no control qubits"
  | .noQubits name => name ++ ": no qubits"
  | .unevenMeasure qubits bits =>
    "measure: " ++ toString qubits ++ " qubits into " ++ toString bits ++ " bits"

namespace Circuit

/-- Resolves a guard on `register`, or on one of its elements. A register
without an index is tested as a whole when it has more than one bit. -/
def condition (c : Circuit) (register : String) (index : Option Int) (value : Int) :
    Except BuildError Condition :=
  let size := c.classicalSize register
  let index := index.filter fun i => 0 ≤ i
  if size = 0 then .error (.unknownRegister register)
  else if index.isNone ∧ 1 < size then .ok ⟨register, value, .register⟩
  else
    let i := index.getD 0
    if size ≤ i then .error (.bitOutOfRange (elementName register i))
    else .ok ⟨elementName register i, value, .bit⟩

/-- The first timeslice after the last operation of every qubit, and after the
last measurement for a conditioned operation. -/
def slotFor (c : Circuit) (qubits : List String) (cond : Option Condition) : Int :=
  let free := Integer.wrap (qubits.foldl (fun t q => max t (mark c.qubitMarks q)) 0 + 1)
  if cond.isSome then max free (Integer.wrap (c.lastMeasured + 1)) else free

def firstRepeated? : List String → Option String
  | [] => none
  | q :: rest => if rest.contains q then some q else firstRepeated? rest

def checkQubits (c : Circuit) (qubits : List String) : Except BuildError Unit :=
  let known := c.qubits
  match qubits.find? fun q => !known.contains q with
  | some q => .error (.unknownQubit q)
  | none =>
    match firstRepeated? qubits with
    | some q => .error (.repeatedQubit q)
    | none => .ok ()

def checkBits (c : Circuit) (bits : List String) : Except BuildError Unit :=
  let known := c.bits
  match bits.find? fun b => !known.contains b with
  | some b => .error (.unknownBit b)
  | none => .ok ()

/-- Places nodes on checked qubits, where placing cannot fail. -/
def placeAll (c : Circuit) (nodes : List (String × Node)) : Circuit :=
  nodes.foldl (fun c e => (c.place e.1 e.2).1) c

def withOthers (qubits : List String) : List (String × List String) :=
  (List.range qubits.length).zip qubits |>.map fun e => (e.2, qubits.eraseIdx e.1)

end Circuit

abbrev Building := EStateM BuildError Circuit

namespace Building

def ensure (check : Circuit → Except BuildError Unit) : Building Unit := fun c =>
  match check c with
  | .ok _ => .ok () c
  | .error e => .error e c

def slotFor (qubits : List String) (cond : Option Condition) : Building Int :=
  return (← get).slotFor qubits cond

def place (nodes : List (String × Node)) : Building Unit := modify fun c => c.placeAll nodes

def gate (name qubit : String) (params : List Float) (cond : Option Condition) : Building Unit := do
  ensure fun c => c.checkQubits [qubit]
  let t ← slotFor [qubit] cond
  place [(qubit,
    { gate := name, params := params, hasParameter := !params.isEmpty, target := true,
      timeslice := t, cond := cond })]

/-- A gate with one or more controls. Only the node of the target is marked as
such, and its partners are the controls in order. -/
def controlled (name : String) (controls : List String) (target : String) (params : List Float)
    (cond : Option Condition) : Building Unit := do
  if controls.isEmpty then throw (.noControls name)
  let qubits := target :: controls
  ensure fun c => c.checkQubits qubits
  let t ← slotFor qubits cond
  place ((Circuit.withOthers qubits).map fun e => (e.1,
    { gate := name, controlled := true, partners := e.2, params := params,
      hasParameter := !params.isEmpty, target := e.1 == target, timeslice := t, cond := cond }))

def measure (qubits bits : List String) (cond : Option Condition) : Building Unit := do
  if qubits.length ≠ bits.length then throw (.unevenMeasure qubits.length bits.length)
  ensure fun c => c.checkQubits qubits
  ensure fun c => c.checkBits bits
  let t ← slotFor qubits cond
  place ((qubits.zip bits).map fun e => (e.1,
    { gate := "M", bits := [e.2], target := true, timeslice := t, measurement := true,
      cond := cond }))

def reset (qubits : List String) (cond : Option Condition) : Building Unit := do
  ensure fun c => c.checkQubits qubits
  let t ← slotFor qubits cond
  place (qubits.map fun q => (q,
    { gate := "reset", target := true, timeslice := t, reset := true, cond := cond }))

def barrier (qubits : List String) : Building Unit := do
  ensure fun c => c.checkQubits qubits
  let t ← slotFor qubits none
  place (qubits.map fun q => (q,
    { gate := "barrier", target := true, timeslice := t, barrier := true }))

/-- An operation without a matrix, such as a decoherence channel. Each
participant is a target of its own. -/
def named (name : String) (qubits : List String) (params : List Float) (cond : Option Condition) :
    Building Unit := do
  if qubits.isEmpty then throw (.noQubits name)
  ensure fun c => c.checkQubits qubits
  let t ← slotFor qubits cond
  place ((Circuit.withOthers qubits).map fun e => (e.1,
    { gate := name, partners := e.2, params := params, hasParameter := !params.isEmpty,
      target := true, timeslice := t, cond := cond }))

/-- The circuit that a call leaves, whether it fails or not. -/
def left (m : Building Unit) (c : Circuit) : Circuit :=
  match m c with
  | .ok _ d => d
  | .error _ d => d

def made (m : Building Unit) (c : Circuit) : Except BuildError Circuit :=
  match m c with
  | .ok _ d => .ok d
  | .error e _ => .error e

end Building

namespace Circuit

def applyGate (c : Circuit) (gate qubit : String) (params : List Float)
    (cond : Option Condition) : Except BuildError Circuit :=
  (Building.gate gate qubit params cond).made c

def applyControlled (c : Circuit) (gate : String) (controls : List String) (target : String)
    (params : List Float) (cond : Option Condition) : Except BuildError Circuit :=
  (Building.controlled gate controls target params cond).made c

def measure (c : Circuit) (qubits bits : List String) (cond : Option Condition) : Except BuildError Circuit :=
  (Building.measure qubits bits cond).made c

def resetQubits (c : Circuit) (qubits : List String) (cond : Option Condition) : Except BuildError Circuit :=
  (Building.reset qubits cond).made c

def barrier (c : Circuit) (qubits : List String) : Except BuildError Circuit := (Building.barrier qubits).made c

def applyNamed (c : Circuit) (name : String) (qubits : List String) (params : List Float)
    (cond : Option Condition) : Except BuildError Circuit :=
  (Building.named name qubits params cond).made c

end Circuit
end Sequencer
