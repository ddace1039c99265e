import Sequencer.Assoc
import Sequencer.Command.Files
import Sequencer.Command.Flag
import Sequencer.Decimal.Reader
import Sequencer.Text.RawText
import Sequencer.Text.SmallLetters

/-!
# Command-line arguments

Arguments are read from left to right: flags by their long or short spelling,
with values after an equals sign, glued to a short flag or in the next
argument; then the command, its file and its flags. The file must exist when
it is read. After `--` nothing is a flag.
-/

namespace Sequencer

inductive FlagValue where
  | switch (on : Bool)
  | integer (n : Int)
  | number (x : Float)
  | text (s : String)

structure Arguments where
  command : Option Command := none
  file : Option String := none
  values : Assoc String FlagValue := {}

namespace Arguments

def switch (a : Arguments) (name : String) : Bool :=
  match a.values.get? name with
  | some (.switch on) => on
  | _ => false

def integer (a : Arguments) (name : String) : Int :=
  match a.values.get? name with
  | some (.integer n) => n
  | _ => 0

def number (a : Arguments) (name : String) (default : Float) : Float :=
  match a.values.get? name with
  | some (.number x) => x
  | _ => default

def text (a : Arguments) (name : String) : String :=
  match a.values.get? name with
  | some (.text s) => s
  | _ => ""

end Arguments

inductive Piece where
  | whole (s : String)
  | longFlag (name : String)
  | flagValue (value : String)
  /-- Short flags are single bytes. -/
  | shortFlag (b : UInt8)
  | shortTail (bytes : List UInt8)
  | positional (s : String)
  deriving DecidableEq

namespace Piece

def shown : Piece → String
  | .whole s => s
  | .longFlag name => "--" ++ name
  | .flagValue value => value
  | .shortFlag b => (RawText.mk [0x2d, b]).shown
  | .shortTail bytes => (RawText.mk bytes).shown
  | .positional s => s

def looksLikeLong : Piece → Bool
  | .longFlag _ => true
  | .whole s => s.startsWith "--"
  | _ => false

def looksLikeShort : Piece → Bool
  | .shortFlag _ => true
  | .whole s => s.startsWith "-" && !s.startsWith "--" && s != "-"
  | _ => false

def value? (p : Piece) : Option String :=
  if p.looksLikeLong || p.looksLikeShort then none else some p.shown

end Piece

def takeValue (f : Flag) : List Piece → Except String (String × List Piece)
  | [] => .error (f.long ++ ": expected " ++ f.kind.noun ++ " value but got \"EOL\" (<EOL>)")
  | p :: rest =>
    match p.value? with
    | some v => .ok (v, rest)
    | none =>
      let look := if p.looksLikeLong then "long flag" else "short flag"
      let shown := Text.quote p.shown
      .error (f.long ++ ": expected " ++ f.kind.noun ++ " value but got " ++ shown ++ " (" ++ look ++
        "); perhaps try " ++ f.long ++ "=" ++ shown ++ "?")

def switchValue (f : Flag) (v : String) : Except String Bool :=
  let v := Text.small v
  if ["true", "1", "yes"].contains v then .ok true
  else if ["false", "0", "no"].contains v then .ok false
  else
    .error (f.long ++ ": bool value must be true, 1, yes, false, 0 or no but got " ++ Text.quote v)

def readFlag (expand : String → String) (f : Flag) (pieces : List Piece) :
    Except String (FlagValue × List Piece) :=
  match f.kind with
  | .switch =>
    match pieces with
    | .flagValue v :: rest => (switchValue f v).map fun on => (.switch on, rest)
    | _ => .ok (.switch true, pieces)
  | .integer => do
    let (v, rest) ← takeValue f pieces
    match Decimal.readIntAnyBase v with
    | .ok n => return (.integer n, rest)
    | .error _ => throw (f.long ++ ": expected a valid 64 bit int but got " ++ Text.quote v)
  | .number => do
    let (v, rest) ← takeValue f pieces
    match Decimal.readExtendedFloat v with
    | .ok x => return (.number x, rest)
    | .error _ => throw (f.long ++ ": expected a float but got " ++ Text.quote v ++ " (string)")
  | .text => do
    let (v, rest) ← takeValue f pieces
    return (.text v, rest)
  | .path => do
    let (v, rest) ← takeValue f pieces
    return (.text (expand v), rest)

def knownFlags (command : Option Command) : List Flag :=
  Command.commonFlags ++ (command.map Command.ownFlags).getD []

def findFlag (command : Option Command) (spelling : String) : Except String Flag :=
  let flags := knownFlags command
  match flags.find? fun f => f.spellings.contains spelling with
  | some f => .ok f
  | none =>
    .error (suggesting ("unknown flag " ++ spelling) spelling (flags.flatMap Flag.spellings))

def Piece.split (s : String) : List Piece :=
  if s.startsWith "--" then
    match (s.drop 2).toString.splitOn "=" with
    | [name] => [.longFlag name]
    | name :: value => [.longFlag name, .flagValue ("=".intercalate value)]
    | [] => []
  else
    match s.startsWith "-", (RawText.ofString s).bytes with
    | true, [_, b] => [.shortFlag b]
    | true, _ :: b :: tail => [.shortFlag b, .shortTail tail]
    | _, _ => [.positional s]

def checkFile {m : Type → Type} [Monad m] (fs : FileSystem m) (given : String) :
    m (Except String String) := do
  let path := fs.expanded given
  if path = "-" then return .ok path
  match ← fs.kind path with
  | .ok .file => return .ok path
  | .ok .directory =>
    return .error ("<file>: " ++ Text.quote path ++ " exists but is a directory")
  | .error e => return .error ("<file>: " ++ e.message)

def readPositional {m : Type → Type} [Monad m] (fs : FileSystem m) (a : Arguments) (s : String) :
    m (Except String Arguments) := do
  match a.command with
  | none =>
    match Command.all.find? fun c => c.name == s with
    | some c => return .ok { a with command := some c }
    | none =>
      return .error (suggesting ("unexpected argument " ++ s) s (Command.all.map Command.name))
  | some c =>
    if c.takesFile && a.file.isNone then
      match ← checkFile fs s with
      | .ok path => return .ok { a with file := some path }
      | .error e => return .error e
    else return .error ("unexpected argument " ++ s)

def readPieces {m : Type → Type} [Monad m] (fs : FileSystem m) :
    Nat → Arguments → List Piece → m (Except String Arguments)
  | 0, a, _ => return .ok a
  | _, a, [] => return .ok a
  | fuel + 1, a, p :: rest => do
    match p with
    | .whole "--" => readPieces fs fuel a (rest.map fun q => .positional q.shown)
    | .whole s => readPieces fs fuel a (Piece.split s ++ rest)
    | .shortTail bytes =>
      match bytes with
      | [] => readPieces fs fuel a rest
      | [b] => readPieces fs fuel a (.shortFlag b :: rest)
      | b :: tail => readPieces fs fuel a (.shortFlag b :: .shortTail tail :: rest)
    | .flagValue v => return .error ("unexpected flag argument " ++ Text.quote v)
    | .positional s =>
      match ← readPositional fs a s with
      | .ok a => readPieces fs fuel a rest
      | .error e => return .error e
    | .longFlag _ | .shortFlag _ =>
      let read : Except String (Arguments × List Piece) := do
        let f ← findFlag a.command p.shown
        let (v, rest) ← readFlag fs.expanded f rest
        return ({ a with values := a.values.insert f.name v }, rest)
      match read with
      | .ok (a, rest) => readPieces fs fuel a rest
      | .error e => return .error e

/-- What is still missing at the end: flags before arguments. -/
def Arguments.complete (a : Arguments) : Except String Command :=
  match a.command with
  | none =>
    let names := (Command.all.take 5).map fun c => Text.quote c.name
    .error ("expected one of " ++ ", ".intercalate names ++ ", ...")
  | some c =>
    if c = .decode ∧ !a.values.contains "qubits" then .error "missing flags: --qubits=INT"
    else if c.takesFile && a.file.isNone then .error "expected \"<file>\""
    else .ok c

/-- Reads the arguments. Every piece is taken apart at most once per byte. -/
def readArguments {m : Type → Type} [Monad m] (fs : FileSystem m) (args : List String) :
    m (Except String Arguments) :=
  let size := args.foldl (fun n s => n + 2 * s.utf8ByteSize + 4) 0
  readPieces fs size {} (args.map .whole)

end Sequencer
