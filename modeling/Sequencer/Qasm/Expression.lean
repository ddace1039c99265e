import Sequencer.Angle
import Sequencer.Circuit.Label
import Sequencer.Decimal.Reader

/-!
# Parameter expressions

One type per level of precedence, so that the shape of a tree fixes how it
groups: sums and products lean to the left, powers to the right, and a power
binds tighter than a minus on its left.
-/

namespace Sequencer.Qasm

inductive RealFunction where
  | sin | cos | tan | exp | ln | sqrt
  deriving DecidableEq, Repr

namespace RealFunction

def all : List RealFunction := [sin, cos, tan, exp, ln, sqrt]

def name : RealFunction → String
  | sin => "sin" | cos => "cos" | tan => "tan" | exp => "exp" | ln => "ln" | sqrt => "sqrt"

def ofName? (name : String) : Option RealFunction := all.find? fun f => f.name == name

def apply : RealFunction → Float → Float
  | sin => Angle.sin | cos => Angle.cos | tan => Float.tan
  | exp => Float.exp | ln => Float.log | sqrt => Float.sqrt

def isUndefinedAt : RealFunction → Float → Bool
  | ln, v => v <= 0.0
  | sqrt, v => v < 0.0
  | _, _ => false

end RealFunction

mutual
inductive Expr where
  | term (t : Term)
  | add (e : Expr) (t : Term)
  | sub (e : Expr) (t : Term)
inductive Term where
  | factor (f : Factor)
  | mul (t : Term) (f : Factor)
  | div (t : Term) (f : Factor)
inductive Factor where
  | neg (f : Factor)
  | power (p : Power)
inductive Power where
  | base (p : Primary)
  | pow (p : Primary) (f : Factor)
inductive Primary where
  | number (spelling : String)
  | pi
  | call (f : RealFunction) (e : Expr)
  | name (n : String)
  | group (e : Expr)
end

inductive EvalError where
  | divisionByZero
  | unknownParameter (name : String)
  | undefined (f : RealFunction) (argument : Float)

def EvalError.message : EvalError → String
  | .divisionByZero => "division by zero"
  | .unknownParameter name => "unknown parameter " ++ Text.quote name
  | .undefined f v => f.name ++ "(" ++ Decimal.general v ++ ") is undefined"

abbrev Env := Assoc String Float

/-- The value of a literal; one that is no number counts as zero. -/
def literalValue (spelling : String) : Float :=
  match Decimal.readFloat spelling with
  | .ok v => v
  | .error _ => 0.0

mutual
def Expr.eval (env : Env) : Expr → Except EvalError Float
  | .term t => t.eval env
  | .add e t => do
    let v ← e.eval env
    let w ← t.eval env
    return v + w
  | .sub e t => do
    let v ← e.eval env
    let w ← t.eval env
    return v - w
def Term.eval (env : Env) : Term → Except EvalError Float
  | .factor f => f.eval env
  | .mul t f => do
    let v ← t.eval env
    let w ← f.eval env
    return v * w
  | .div t f => do
    let v ← t.eval env
    let w ← f.eval env
    if w == 0.0 then throw .divisionByZero
    return v / w
def Factor.eval (env : Env) : Factor → Except EvalError Float
  | .neg f => do
    let v ← f.eval env
    return -v
  | .power p => p.eval env
def Power.eval (env : Env) : Power → Except EvalError Float
  | .base p => p.eval env
  | .pow p f => do
    let v ← p.eval env
    let w ← f.eval env
    return Float.pow v w
def Primary.eval (env : Env) : Primary → Except EvalError Float
  | .number spelling => return literalValue spelling
  | .pi => return Sequencer.pi
  | .call f e => do
    let v ← e.eval env
    if f.isUndefinedAt v then throw (.undefined f v)
    return f.apply v
  | .name n =>
    match env.get? n with
    | some v => return v
    | none => throw (.unknownParameter n)
  | .group e => e.eval env
end

def evalAll (env : Env) (exprs : List Expr) : Except EvalError (List Float) :=
  exprs.mapM (·.eval env)

end Sequencer.Qasm
