import Sequencer.Qasm.Matcher
import Sequencer.Qasm.Syntax

/-!
# The grammar of programs

Keywords are literals, so they stay usable as identifiers wherever the grammar
asks for one. Numbers are checked when the construct around them ends; a bad one
is reported where the blank text before it begins.

Expressions nest through `Factor`, so the grammar of factors is the one that
recurses; its bound counts nesting levels, of which there are no more than
tokens.
-/

namespace Sequencer.Qasm.Grammar

open Matcher

def integerOf (t : Token) : Except SyntaxError Int :=
  match Decimal.readIntAnyBase t.value with
  | .ok n => .ok n
  | .error e => .error (.badInteger t.lead t.value e)

def identifier : Matcher String := do
  let t ← ofKind .identifier
  return t.value

def isNumber (t : Token) : Bool := t.kind == .decimal || t.kind == .integer

def index : Matcher Token := do
  let _ ← literal "["
  let n ← required (ofKind .integer)
  let _ ← required (literal "]")
  return n

def indexValue : Option Token → Except SyntaxError (Option Int)
  | none => .ok none
  | some t => (integerOf t).map some

def argument : Matcher Argument :=
  construct (do
    let register ← identifier
    let i ← optional index
    return (register, i))
  fun (register, i) => do return ⟨register, ← indexValue i⟩

def checkedNumber (t : Token) : Except SyntaxError Primary :=
  match Decimal.readFloat t.value with
  | .ok _ => .ok (.number t.value)
  | .error e => .error (.badDecimal t.lead t.value e)

def parenthesized (expr : Matcher Expr) : Matcher Expr := do
  let _ ← literal "("
  let e ← required expr
  let _ ← required (literal ")")
  return e

def functionCall (expr : Matcher Expr) : Matcher Primary :=
  construct (do
    let f ← oneOf (RealFunction.all.map RealFunction.name)
    let e ← required (parenthesized expr)
    return (f, e))
  fun (f, e) =>
    match RealFunction.ofName? f.value with
    | some fn => .ok (.call fn e)
    | none => .error (.unexpected f)

inductive PrimaryPart where
  | number (t : Token)
  | built (p : Primary)

def primaryPart (expr : Matcher Expr) : Matcher PrimaryPart :=
  firstOf [
    (do return .number (← token isNumber)),
    (do
      let _ ← literal "pi"
      return .built .pi),
    (do return .built (← functionCall expr)),
    (do return .built (.name (← identifier))),
    (do return .built (.group (← parenthesized expr)))]

def PrimaryPart.build : PrimaryPart → Except SyntaxError Primary
  | .number t => checkedNumber t
  | .built p => .ok p

def primary (expr : Matcher Expr) : Matcher Primary := construct (primaryPart expr) PrimaryPart.build

def power (factor : Matcher Factor) (expr : Matcher Expr) : Matcher Power :=
  construct (do
    let b ← primary expr
    let e ← optional (do
      let _ ← literal "^"
      required factor)
    return (b, e))
  fun (b, e) =>
    match e with
    | none => .ok (.base b)
    | some f => .ok (.pow b f)

def term (factor : Matcher Factor) : Matcher Term :=
  construct (do
    let first ← factor
    let rest ← many (construct (do
      let op ← oneOf ["*", "/"]
      let f ← required factor
      return (op.value, f)) .ok)
    return (first, rest))
  fun (first, rest) => .ok (rest.foldl
    (fun t (op, f) => if op = "*" then .mul t f else .div t f) (.factor first))

def expression (factor : Matcher Factor) : Matcher Expr :=
  construct (do
    let first ← term factor
    let rest ← many (construct (do
      let op ← oneOf ["+", "-"]
      let t ← required (term factor)
      return (op.value, t)) .ok)
    return (first, rest))
  fun (first, rest) => .ok (rest.foldl
    (fun e (op, t) => if op = "+" then .add e t else .sub e t) (.term first))

def factor : Nat → Matcher Factor
  | 0 => fun c => (.failed (.unexpected c.current), c)
  | fuel + 1 =>
    construct (firstOf [
      (do
        let _ ← literal "-"
        return .neg (← required (factor fuel))),
      (do return .power (← power (factor fuel) (expression (factor fuel))))]) .ok

/-- An expression; nesting is bounded by the tokens left. -/
def expr : Matcher Expr := fun c => expression (factor (c.rest.length + 1)) c

def orEmpty {α : Type} (l : Option (List α)) : List α := l.getD []

def parameterList {α : Type} (p : Matcher α) : Matcher (List α) := do
  let given ← optional do
    let _ ← literal "("
    let l ← optional (commaList p)
    let _ ← required (literal ")")
    return orEmpty l
  return orEmpty given

def call : Matcher Call :=
  located (do
    let name ← identifier
    let params ← parameterList expr
    let args ← required (commaList argument)
    return (name, params, args))
  fun pos (name, params, args) => .ok ⟨pos, name, params, args⟩

def measurement : Matcher Action :=
  construct (do
    let _ ← literal "measure"
    let source ← required argument
    let _ ← required (literal "->")
    let target ← required argument
    let _ ← required (literal ";")
    return .measure source target) .ok

def action : Matcher Action :=
  construct (firstOf [
    measurement,
    (do
      let _ ← literal "reset"
      let arg ← required argument
      let _ ← required (literal ";")
      return .reset arg),
    (do
      let _ ← literal "barrier"
      let args ← required (commaList argument)
      let _ ← required (literal ";")
      return .barrier args),
    (do
      let c ← call
      let _ ← required (literal ";")
      return .call c)]) .ok

def registerDeclaration : Matcher StatementBody :=
  construct (do
    let kind ← oneOf ["qreg", "creg"]
    let name ← required identifier
    let _ ← required (literal "[")
    let size ← required (ofKind .integer)
    let _ ← required (literal "]")
    let _ ← required (literal ";")
    return (kind.value, name, size))
  fun (kind, name, size) => do
    let n ← integerOf size
    return if kind = "qreg" then .quantumRegister name n else .classicalRegister name n

def gateDeclaration : Matcher GateDeclaration :=
  construct (do
    let _ ← literal "gate"
    let name ← required identifier
    let params ← parameterList identifier
    let args ← required (commaList identifier)
    let _ ← required (literal "\x7b")
    let body ← many do
      let c ← call
      let _ ← required (literal ";")
      return c
    let _ ← required (literal "\x7d")
    return ⟨name, params, args, body⟩) .ok

def namedDeclaration : Matcher NamedDeclaration :=
  construct (do
    let _ ← literal "opaque"
    let name ← required identifier
    let params ← parameterList identifier
    let args ← required (commaList identifier)
    let _ ← required (literal ";")
    return ⟨name, params, args⟩) .ok

def guardedAction : Matcher StatementBody :=
  construct (do
    let _ ← literal "if"
    let _ ← required (literal "(")
    let register ← required identifier
    let i ← optional index
    let _ ← required (literal "==")
    let value ← required (ofKind .integer)
    let _ ← required (literal ")")
    let act ← required action
    return (register, i, value, act))
  fun (register, i, value, act) => do
    return .guarded ⟨register, ← indexValue i, ← integerOf value⟩ act

def statement : Matcher Statement :=
  located (firstOf [
    (do
      let _ ← literal "include"
      let file ← required (ofKind .string)
      let _ ← required (literal ";")
      return .inclusion file.value),
    registerDeclaration,
    (do return .gate (← gateDeclaration)),
    (do return .named (← namedDeclaration)),
    guardedAction,
    (do return .action (← action))])
  fun pos body => .ok ⟨pos, body⟩

def program : Matcher Program :=
  construct (do
    let _ ← literal "OPENQASM"
    let version ← required (token isNumber)
    let _ ← required (literal ";")
    let statements ← many statement
    return ⟨version.value, statements⟩) .ok

/-- The failure to report at the end: the deepest one, unless the cursor has
got at least as far. -/
def leftOver (c : Cursor) : SyntaxError :=
  match c.deepest with
  | some e => if c.depth ≤ c.used then .unexpected c.current else e
  | none => .unexpected c.current

def read (text : String) : Except SyntaxError Program :=
  match tokenize text with
  | .error e => .error (.lexical e)
  | .ok (tokens, finish) =>
    match program { rest := tokens, finish := finish } with
    | (.found p, c) => if c.rest.isEmpty then .ok p else .error (leftOver c)
    | (.absent, c) => .error (leftOver c)
    | (.failed e, _) => .error e

def readRaw (source : RawText) : Except SyntaxError Program :=
  (read source.shown).mapError fun e =>
    match e with
    | .lexical e => .lexical (e.respelled source)
    | e => e

end Sequencer.Qasm.Grammar
