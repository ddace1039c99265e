import Sequencer.Yaml.Writer

/-!
# Manifests

How a program was compiled, as a YAML mapping beside it.
-/

namespace Sequencer

/-- What tells one compilation from another: an identifier and a time, as the
plain scalars that are written. -/
structure Stamp where
  build : String
  created : String

structure Manifest where
  stamp : Stamp
  circuit : String
  source : String
  program : RawText
  format : String
  scheduled : Bool
  /-- The number of the mode, absent when the circuit was not scheduled. -/
  mode : Option Int
  qubits : Nat
  timeslices : Nat
  words : Nat
  digest : String

namespace Manifest

def text (m : Manifest) : String :=
  let mode : List (String × Yaml.Branch) :=
    (m.mode.map fun (n : Int) => [("mode", .plain (toString n))]).getD []
  Yaml.write ([
    ("build", .plain m.stamp.build), ("created", .plain m.stamp.created),
    ("circuit", .text m.circuit), ("source", .text m.source), ("program", .text m.program),
    ("format", .text m.format), ("scheduled", .plain (if m.scheduled then "true" else "false"))] ++
    mode ++ [
    ("qubits", .plain (toString m.qubits)), ("timeslices", .plain (toString m.timeslices)),
    ("words", .plain (toString m.words)), ("blake3", .text m.digest)])

end Manifest
end Sequencer
