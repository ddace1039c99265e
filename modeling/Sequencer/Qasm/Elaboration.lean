import Sequencer.Circuit.Builder
import Sequencer.Qasm.Grammar

/-!
# Programs as circuits

Statements are replayed onto a circuit in order. A gate call resolves its
name among the built-in gates, the names with repeated control letters, the
declared channels and the user-defined gates, in this order. A user-defined
gate is inlined; its body is resolved among the gates declared before it, so
inlining ends.
-/

namespace Sequencer.Qasm

inductive Problem where
  | build (error : BuildError)
  | notEncodable (name : String)
  | conditioned (name : String)
  | sizeNotPositive (register : String)
  | registerDeclared (register : String)
  | gateDeclared (gate : String)
  | unknownGate (name : String)
  | indexedArgument
  | unknownArgument (name : String)
  | unknownQuantum (register : String)
  | unknownClassical (register : String)
  | outOfRange (element : String)
  | differentSizes (gate : String)
  | qubitCount (gate : String) (takes given : Nat)
  | parameterCount (gate : String) (takes given : Nat)
  | expression (error : EvalError)
  | inCall (gate : String) (inner : Problem)
  /-- A problem found when a gate is declared, at a call of its body. -/
  | inDeclaration (gate : String) (pos : Position) (inner : Problem)
  /-- A problem found when a gate is inlined, at a call of its body. -/
  | inBody (gate : String) (pos : Position) (inner : Problem)

def Problem.message (file : String) : Problem → String
  | .build error => error.message
  | .notEncodable name => "opaque gate " ++ Text.quote name ++ " has no instruction encoding"
  | .conditioned name => name ++ " cannot be conditioned"
  | .sizeNotPositive register => "register " ++ register ++ " must have a positive size"
  | .registerDeclared register => "register " ++ register ++ " already declared"
  | .gateDeclared gate => "gate " ++ gate ++ " already declared"
  | .unknownGate name => "unknown gate " ++ Text.quote name
  | .indexedArgument => "arguments of a gate body cannot be indexed"
  | .unknownArgument name => "unknown argument " ++ Text.quote name
  | .unknownQuantum register => "unknown quantum register " ++ Text.quote register
  | .unknownClassical register => "unknown classical register " ++ Text.quote register
  | .outOfRange element => element ++ " out of range"
  | .differentSizes gate => gate ++ ": registers of different sizes"
  | .qubitCount gate takes given =>
    gate ++ " takes " ++ toString takes ++ " qubits, got " ++ toString given
  | .parameterCount gate takes given =>
    gate ++ " takes " ++ toString takes ++ " parameters, got " ++ toString given
  | .expression error => error.message
  | .inCall gate inner => gate ++ ": " ++ inner.message file
  | .inDeclaration gate pos inner =>
    "gate " ++ gate ++ ": " ++ pos.text file ++ ": " ++ inner.message file
  | .inBody gate pos inner => gate ++ ": " ++ pos.text file ++ ": " ++ inner.message file

structure Scope where
  circuit : Circuit
  /-- The user-defined gates, newest first. -/
  gates : List GateDeclaration := []
  channels : Assoc String NamedDeclaration := {}

structure Instance where
  gate : String
  params : List Float
  qubits : List String
  cond : Option Condition

/-- The two upper-case primitives are other names of built-in gates. -/
def builtinName (name : String) : String :=
  if name = "U" then "u" else if name = "CX" then "cx" else name

def built (r : Except BuildError Circuit) : Except Problem Circuit := r.mapError .build

def checkCounts (name : String) (qubits params : Nat) (i : Instance) : Except Problem Unit := do
  if i.qubits.length ≠ qubits then throw (.qubitCount name qubits i.qubits.length)
  if i.params.length ≠ params then throw (.parameterCount name params i.params.length)

/-- Applies a gate that is not user-defined; none when the name is not such a gate. -/
def applyBuiltin? (channels : Assoc String NamedDeclaration) (i : Instance) (c : Circuit) :
    Option (Except Problem Circuit) :=
  let name := builtinName i.gate
  if (Gate.single? name).isSome then some do
    checkCounts name 1 (Gate.arity name) i
    built (c.applyGate name (i.qubits.headD "") i.params i.cond)
  else match Gate.splitControls name with
  | some (base, n) => some do
    checkCounts name (n + 1) (Gate.arity base) i
    built (c.applyControlled base (i.qubits.take n) (i.qubits.getD n "") i.params i.cond)
  | none => (channels.get? name).map fun d => do
    checkCounts name d.args.length (Gate.arity name) i
    if i.cond.isSome then throw (.conditioned name)
    built (c.applyNamed name i.qubits i.params none)

/-- Inlines a gate: every call of its body, with the formal parameters and
arguments bound to the actual ones. Of a repeated formal name the last counts. -/
def inline (apply : Instance → Circuit → Except Problem Circuit) (d : GateDeclaration)
    (i : Instance) (c : Circuit) : Except Problem Circuit := do
  if i.params.length ≠ d.params.length then
    throw (.parameterCount d.name d.params.length i.params.length)
  if i.qubits.length ≠ d.args.length then
    throw (.qubitCount d.name d.args.length i.qubits.length)
  let env : Env := Assoc.ofList (d.params.zip i.params)
  let bind : Assoc String String := Assoc.ofList (d.args.zip i.qubits)
  d.body.foldlM (fun c call =>
    Except.mapError (.inBody d.name call.pos) do
      let params ← (evalAll env call.params).mapError .expression
      let qubits := call.args.map fun a => (bind.get? a.register).getD ""
      apply ⟨call.name, params, qubits, i.cond⟩ c) c

def applyInstance (channels : Assoc String NamedDeclaration) :
    List GateDeclaration → Instance → Circuit → Except Problem Circuit
  | [], i, c => (applyBuiltin? channels i c).getD (.error (.unknownGate (builtinName i.gate)))
  | d :: older, i, c =>
    match applyBuiltin? channels i c with
    | some r => r
    | none =>
      if d.name = builtinName i.gate then inline (applyInstance channels older) d i c
      else applyInstance channels older i c

def elements (a : Argument) (size : Int) : Except Problem (List String) :=
  match a.index with
  | some i =>
    if size ≤ i then .error (.outOfRange (elementName a.register i))
    else .ok [elementName a.register i]
  | none => .ok (Register.elements ⟨a.register, size⟩)

def qubitsOf (c : Circuit) (a : Argument) : Except Problem (List String) :=
  let size := c.quantumSize a.register
  if size = 0 then .error (.unknownQuantum a.register) else elements a size

def bitsOf (c : Circuit) (a : Argument) : Except Problem (List String) :=
  let size := c.classicalSize a.register
  if size = 0 then .error (.unknownClassical a.register) else elements a size

/-- The number of instances of a call after one more argument: registers have a
common size, where a register of one qubit joins any width given after it. -/
def broadcastWidth (gate : String) (width : Nat) (a : Argument) (qubits : List String) : Except Problem Nat :=
  if a.index.isSome then .ok width
  else if 1 < width ∧ qubits.length ≠ width then .error (.differentSizes gate)
  else .ok qubits.length

/-- The arguments with their qubits, and the number of instances so far: the
first problem in argument order wins. -/
def resolveArguments (c : Circuit) (gate : String) :
    Nat → List Argument → Except Problem (Nat × List (List String))
  | width, [] => .ok (width, [])
  | width, a :: rest => do
    let qubits ← qubitsOf c a
    let width ← broadcastWidth gate width a qubits
    let (width, more) ← resolveArguments c gate width rest
    return (width, qubits :: more)

def pick (k : Nat) (qubits : List String) : String :=
  match qubits with
  | [q] => q
  | _ => qubits.getD k ""

def Scope.call (s : Scope) (call : Call) (cond : Option Condition) : Except Problem Circuit := do
  let params ← ((evalAll {} call.params).mapError .expression).mapError (.inCall call.name)
  let (width, args) ← resolveArguments s.circuit call.name 1 call.args
  (List.range width).foldlM (fun c k =>
    applyInstance s.channels s.gates ⟨call.name, params, args.map (pick k), cond⟩ c) s.circuit

def Scope.act (s : Scope) (a : Action) (cond : Option Condition) : Except Problem Circuit :=
  match a with
  | .measure source target => do
    let qubits ← qubitsOf s.circuit source
    let bits ← bitsOf s.circuit target
    built (s.circuit.measure qubits bits cond)
  | .reset arg => do
    let qubits ← qubitsOf s.circuit arg
    built (s.circuit.resetQubits qubits cond)
  | .barrier args => do
    let qubits ← args.mapM (qubitsOf s.circuit)
    built (s.circuit.barrier qubits.flatten)
  | .call c => s.call c cond

def Scope.knows (s : Scope) (gate : String) : Bool :=
  let name := builtinName gate
  (Gate.single? name).isSome || (Gate.splitControls name).isSome ||
    s.gates.any (fun d => d.name == name) || s.channels.contains name

def Scope.checkBodyCall (s : Scope) (d : GateDeclaration) (call : Call) : Except Problem Unit :=
  Except.mapError (.inDeclaration d.name call.pos) do
    if !s.knows call.name then throw (.unknownGate call.name)
    for a in call.args do
      if a.index.isSome then throw .indexedArgument
      if !d.args.contains a.register then throw (.unknownArgument a.register)

def Scope.declareGate (s : Scope) (d : GateDeclaration) : Except Problem Scope := do
  if s.gates.any (fun other => other.name == d.name) then throw (.gateDeclared d.name)
  for call in d.body do s.checkBodyCall d call
  return { s with gates := d :: s.gates }

def Scope.checkRegister (s : Scope) (name : String) (size : Int) : Except Problem Unit := do
  if size ≤ 0 then throw (.sizeNotPositive name)
  if 0 < s.circuit.quantumSize name ∨ 0 < s.circuit.classicalSize name then
    throw (.registerDeclared name)

def Scope.withCircuit (s : Scope) (c : Circuit) : Scope := { s with circuit := c }

def Action.checkGuarded : Action → Except Problem Unit
  | .measure _ _ => .error (.conditioned "measure")
  | .reset _ => .error (.conditioned "reset")
  | .barrier _ => .error (.conditioned "barrier")
  | .call _ => .ok ()

def Scope.step (s : Scope) : StatementBody → Except Problem Scope
  | .inclusion _ => .ok s
  | .quantumRegister name size => do
    s.checkRegister name size
    return s.withCircuit (s.circuit.declareQubits name size)
  | .classicalRegister name size => do
    s.checkRegister name size
    return s.withCircuit (s.circuit.declareBits name size)
  | .gate d => s.declareGate d
  | .named d =>
    if Gate.isChannel d.name then .ok { s with channels := s.channels.insert d.name d }
    else .error (.notEncodable d.name)
  | .guarded guard action => do
    let cond ← (s.circuit.condition guard.register guard.index guard.value).mapError .build
    action.checkGuarded
    return s.withCircuit (← s.act action (some cond))
  | .action a => return s.withCircuit (← s.act a none)

def Program.toCircuit (p : Program) (name : String) : Except (Position × Problem) Circuit := do
  let final ← p.statements.foldlM
    (fun (s : Scope) st => (s.step st.body).mapError fun e => (st.pos, e))
    { circuit := { name := name } }
  return final.circuit

inductive ReadError where
  | syntaxError (error : SyntaxError)
  | program (pos : Position) (problem : Problem)

def ReadError.message (file : String) : ReadError → String
  | .syntaxError error => "parse qasm: " ++ error.pos.text file ++ ": " ++ error.message
  | .program pos problem => pos.text file ++ ": " ++ problem.message file

def readCircuit (name text : String) : Except ReadError Circuit := do
  let p ← (Grammar.read text).mapError .syntaxError
  (p.toCircuit name).mapError fun e => .program e.1 e.2

end Sequencer.Qasm
