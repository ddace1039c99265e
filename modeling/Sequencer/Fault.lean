import Sequencer.Text.Quoted

/-!
# Faults

A fault is a use outside the contract of an operation: a name nobody
declared, an unsupported mode, a read or shift outside its word. Errors that
callers are expected to handle are separate types next to the operations that
report them.
-/

namespace Sequencer

inductive Fault where
  | unknownQubit (name : String)
  | unknownBit (name : String)
  | unsupportedMode (mode : Int)
  | unknownLane
  /-- An index, a slice or a shift amount out of range, or an absent entry. -/
  | outOfRange
  deriving DecidableEq, Repr

def Fault.message? : Fault → Option String
  | .unknownQubit name => some ("circuit: unknown qubit " ++ Text.quote name)
  | .unknownBit name => some ("circuit: unknown classical bit " ++ Text.quote name)
  | .unsupportedMode mode => some ("schedule mode must be 1 or 2, got " ++ toString mode)
  | .unknownLane => some "encode: unknown lane"
  | .outOfRange => none

end Sequencer
