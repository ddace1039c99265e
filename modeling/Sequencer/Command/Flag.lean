import Sequencer.Text.Quoted

/-!
# Commands and flags

The commands of the program with the flags each of them takes, and the
suggestions for a name that is none of them.
-/

namespace Sequencer

inductive FlagKind where
  | switch | integer | number | text | path
  deriving DecidableEq, Repr

def FlagKind.noun : FlagKind → String
  | .switch => "bool"
  | .integer => "int"
  | .number => "float"
  | .text => "string"
  | .path => "file"

structure Flag where
  name : String
  short : Option Char := none
  kind : FlagKind
  deriving DecidableEq, Repr

namespace Flag

def long (f : Flag) : String := "--" ++ f.name

def spellings (f : Flag) : List String :=
  f.long :: (f.short.map fun c => String.ofList ['-', c]).toList

end Flag

inductive Command where
  | compile | draw | dump | decode | inspect | check | version
  deriving DecidableEq, Repr

namespace Command

def all : List Command := [compile, draw, dump, decode, inspect, check, version]

def name : Command → String
  | compile => "compile"
  | draw => "draw"
  | dump => "dump"
  | decode => "decode"
  | inspect => "inspect"
  | check => "check"
  | version => "version"

def commonFlags : List Flag :=
  [{ name := "help", short := some 'h', kind := .switch },
   { name := "config", short := some 'c', kind := .path },
   { name := "debug", kind := .switch }]

def sourceFlags : List Flag :=
  [{ name := "json", kind := .switch }, { name := "mode", kind := .integer },
   { name := "no-schedule", kind := .switch }]

def outFlag : Flag := { name := "out", short := some 'o', kind := .path }

def scheduledFlag : Flag := { name := "scheduled", kind := .switch }

def ownFlags : Command → List Flag
  | compile =>
    sourceFlags ++ [{ name := "format", kind := .text }, outFlag, { name := "manifest", kind := .switch }]
  | draw => sourceFlags ++ [scheduledFlag]
  | dump => sourceFlags ++ [scheduledFlag, outFlag]
  | decode => [{ name := "qubits", short := some 'n', kind := .integer }]
  | inspect => sourceFlags
  | check => sourceFlags ++ [{ name := "tolerance", kind := .number }]
  | version => []

def summary : Command → String
  | compile => "Compile a circuit into instruction words"
  | draw => "Draw the timeline of a circuit"
  | dump => "Dump the circuit graph as JSON"
  | decode => "Decode a binary instruction stream"
  | inspect => "Browse a compiled circuit one timeslice at a time"
  | check => "Check that scheduling preserves the final state"
  | version => "Print version information"

def takesFile : Command → Bool
  | version => false
  | _ => true

def usage : String :=
  let flag (f : Flag) : String := "  " ++ ", ".intercalate f.spellings.reverse ++ "\n"
  let command (c : Command) : String :=
    "  " ++ c.name ++ (if c.takesFile then " <file>" else "") ++ "\n    " ++ c.summary ++ "\n"
  "Usage: qsofinstr <command> [flags]\n\nFlags:\n" ++ String.join (commonFlags.map flag) ++
    "\nCommands:\n" ++ String.join (all.map command)

end Command

/-- One row of the table of edit distances: the distances of a text with one
more character `a` to every beginning of `b`, from those without it. -/
def nextDistances (a : Char) : List Char → List Nat → List Nat
  | b, row =>
    let first := row.headD 0 + 1
    let rec fill : List Char → List Nat → Nat → List Nat
      | c :: cs, diagonal :: above :: rest, left =>
        let d := min (min (above + 1) (left + 1)) (if c = a then diagonal else diagonal + 1)
        d :: fill cs (above :: rest) d
      | _, _, _ => []
    first :: fill b row first

def editDistance (a b : String) : Nat :=
  let start := List.range (b.length + 1)
  (a.toList.foldl (fun row c => nextDistances c b.toList row) start).getLastD 0

def suggesting (message mistaken : String) (names : List String) : String :=
  let close := names.filter fun n => n.startsWith mistaken || editDistance n mistaken ≤ 2
  match close.map Text.quote with
  | [] => message
  | [n] => message ++ ", did you mean " ++ n ++ "?"
  | several => message ++ ", did you mean one of " ++ ", ".intercalate several ++ "?"

end Sequencer
