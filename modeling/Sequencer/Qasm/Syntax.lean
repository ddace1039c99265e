import Sequencer.Qasm.Expression
import Sequencer.Qasm.Token

/-!
# Programs

Syntax trees of OpenQASM 2.0. Statements and calls know where they begin, for
the messages about them.
-/

namespace Sequencer.Qasm

structure Argument where
  register : String
  index : Option Int
  deriving DecidableEq, Repr

structure Call where
  pos : Position
  name : String
  params : List Expr
  args : List Argument

structure GateDeclaration where
  name : String
  params : List String
  args : List String
  body : List Call

/-- A gate declared without a body. -/
structure NamedDeclaration where
  name : String
  params : List String
  args : List String

inductive Action where
  | measure (source target : Argument)
  | reset (arg : Argument)
  | barrier (args : List Argument)
  | call (c : Call)

structure Guard where
  register : String
  index : Option Int
  value : Int
  deriving DecidableEq, Repr

inductive StatementBody where
  | inclusion (file : String)
  | quantumRegister (name : String) (size : Int)
  | classicalRegister (name : String) (size : Int)
  | gate (d : GateDeclaration)
  | named (d : NamedDeclaration)
  | guarded (guard : Guard) (action : Action)
  | action (a : Action)

structure Statement where
  pos : Position
  body : StatementBody

structure Program where
  version : String
  statements : List Statement

end Sequencer.Qasm
