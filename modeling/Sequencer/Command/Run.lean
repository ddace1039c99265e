import Sequencer.Command.Arguments
import Sequencer.Command.Error
import Sequencer.Command.Manifest
import Sequencer.Schedule.Basic

/-!
# Running a command

A command works through a host: a file system, somewhere to write notes, and a
stamp for manifests. It prints text, and fails with a `CommandError` that
leaves what was printed before.
-/

namespace Sequencer

structure Host (m : Type → Type) where
  files : FileSystem m
  /-- Notes that do not go to a log file. -/
  note : String → m Unit
  stamp : m Stamp

abbrev CommandM (m : Type → Type) := ExceptT CommandError (StateT String m)

inductive Ending where
  | done
  | inspect (i : Inspector)

structure Job (m : Type → Type) where
  host : Host m
  settings : Settings
  sink : LogSink
  args : Arguments

def textOfBytes (bytes : ByteArray) : String := (RawText.mk bytes.toList).shown

variable {m : Type → Type} [Monad m]

def print (s : String) : CommandM m Unit := modify (· ++ s)

def onFiles {α : Type} (doing : String) (op : m (Except FileError α)) : CommandM m α := do
  match ← op with
  | .ok a => return a
  | .error e => throw (.file doing e)

def loadSettings (files : FileSystem m) (path : String) : CommandM m Settings := do
  let bytes ←
    if path.isEmpty then pure none
    else some <$> ByteArray.toList <$> onFiles "read config" (files.read path)
  match Settings.load bytes with
  | .ok s => return s
  | .error e => throw (.settings e)

/-- Opens the log of the settings, so that its file exists even if nothing is
noted. -/
def openLog (files : FileSystem m) (s : Settings) : CommandM m LogSink := do
  let path := (s.log.map LogSettings.path).getD ""
  if path.isEmpty then return .console
  match LogSink.ofText path with
  | .error e => throw (.log path e)
  | .ok .console => return .console
  | .ok (.file name) =>
    match ← files.append name .empty with
    | .ok _ => return .file name
    | .error e => throw (.log path (.file e))

namespace Job

def file (j : Job m) : String := j.args.file.getD ""

def log (j : Job m) (level text : String) : CommandM m Unit := do
  let line := level ++ "\t" ++ text ++ "\n"
  match j.sink with
  | .console => j.host.note line
  | .file path => onFiles "write log" (j.host.files.append path line.toUTF8)

def info (j : Job m) (text : String) : CommandM m Unit := j.log "info" text

def debug (j : Job m) (text : String) : CommandM m Unit := do
  if j.args.switch "debug" then j.log "debug" text

def liftExcept {ε α : Type} (wrap : ε → CommandError) : Except ε α → CommandM m α
  | .ok a => return a
  | .error e => throw (wrap e)

def loadCircuit (j : Job m) : CommandM m Circuit := do
  if !j.args.switch "json" && Path.extension j.file != ".json" then
    let bytes ← onFiles "read qasm" (j.host.files.read j.file)
    let circuit : Except Qasm.ReadError Circuit := do
      let p ← (Qasm.Grammar.readRaw ⟨bytes.toList⟩).mapError .syntaxError
      (p.toCircuit (Path.stem j.file)).mapError fun e => .program e.1 e.2
    liftExcept (.source j.file) circuit
  else
    let bytes ← onFiles "open circuit" (j.host.files.read j.file)
    liftExcept .load (Circuit.load (textOfBytes bytes))

def options (j : Job m) : ScheduleOptions :=
  let o := j.settings.scheduleOptions
  let mode := j.args.integer "mode"
  { enabled := o.enabled && !j.args.switch "no-schedule"
    mode := if mode = 0 then o.mode else mode }

/-- The scheduled circuit. The mode is checked even when it is not used. -/
def scheduled (j : Job m) (o : ScheduleOptions) (c : Circuit) : CommandM m Circuit := do
  if o.validMode.toOption.isNone then throw (.unsupportedMode o.mode)
  match c.schedule o with
  | .ok after =>
    if o.enabled then j.debug ("scheduled circuit " ++ c.name)
    return after
  | .error f =>
    if c.movesBeforeFault o then j.debug ("moved operations of " ++ c.name)
    throw (.fault f)

def encoded (j : Job m) (c : Circuit) : CommandM m InstructionProgram := do
  match c.encode with
  | .ok p =>
    j.debug ("encoded program " ++ c.name)
    return p
  | .error e =>
    if c.writesBatch then j.debug ("wrote measurements of " ++ c.name)
    throw (.encode e)

/-- Where the program goes: the given path, or the name of the input with the
extension of the format, in the directory of the settings or of the input. -/
def outputPath (j : Job m) (format : String) : RawText :=
  let out := j.args.text "out"
  if !out.isEmpty then out
  else
    let dir : RawText :=
      if j.settings.output.dir.isEmpty then Path.dir j.file else j.settings.output.dir
    let name : RawText := Path.stem j.file ++ "." ++ format
    let text (t : RawText) : String := String.ofList t.octets
    .ofOctets (Path.join (text dir) (text name)).toList

def compile (j : Job m) : CommandM m Unit := do
  let given := j.args.text "format"
  let format := if given.isEmpty then j.settings.output.format.shown else given
  if !Settings.isFormat format then throw (.unsupportedFormat format)
  let o := j.options
  let c ← j.loadCircuit
  let c ← j.scheduled o c
  let p ← j.encoded c
  let program := j.outputPath format
  let out := program.shown
  onFiles "create output directory" (j.host.files.makeDirectories (Path.dir out))
  let bytes := if format = "bin" then ByteArray.mk p.bytes.toArray else p.text.toUTF8
  onFiles "create program" (j.host.files.write out bytes)
  j.info ("compiled circuit " ++ c.name ++ " to " ++ out)
  let words := p.words.length
  let digest := hexOfBytes p.digest
  print (out ++ ": " ++ toString words ++ " words in " ++ toString p.slices.length ++
    " timeslices, blake3 " ++ digest ++ "\n")
  if j.args.switch "manifest" || j.settings.output.manifest then
    let manifest : Manifest := {
      stamp := ← j.host.stamp
      circuit := c.name, source := j.file, program := program, format := format
      scheduled := o.enabled, mode := if o.enabled then some o.mode else none
      qubits := p.qubits, timeslices := p.slices.length, words := words, digest := digest }
    onFiles "write manifest" (j.host.files.write (out ++ ".manifest.yml") manifest.text.toUTF8)

def maybeScheduled (j : Job m) : CommandM m Circuit := do
  let c ← j.loadCircuit
  if j.args.switch "scheduled" then j.scheduled j.options c else return c

def draw (j : Job m) : CommandM m Unit := do
  let c ← j.maybeScheduled
  print (← liftExcept .fault (c.draw false))

def dump (j : Job m) : CommandM m Unit := do
  let c ← j.maybeScheduled
  let out := j.args.text "out"
  if out.isEmpty then print (← liftExcept .unwritable c.documentText)
  else
    -- The file exists even if the circuit cannot be written.
    onFiles "create dump" (j.host.files.write out .empty)
    let text ← liftExcept .unwritable c.documentText
    onFiles "create dump" (j.host.files.write out text.toUTF8)
    j.info ("dumped circuit " ++ c.name ++ " to " ++ out)

def listing (ops : List StreamOperation) : String :=
  let step (s : String × Option Nat) (o : StreamOperation) : String × Option Nat :=
    let heading := if s.2 = some o.slice then "" else "slice " ++ toString o.slice ++ "\n"
    (s.1 ++ heading ++ "  " ++ (o.map Fixed.toFloat).text ++ "\n", some o.slice)
  (ops.foldl step ("", none)).1

def decode (j : Job m) : CommandM m Unit := do
  let bytes ← onFiles "open program" (j.host.files.read j.file)
  let words ← liftExcept .stream (readStream bytes.toList)
  let ops ← liftExcept .decode (Sequencer.decode words (j.args.integer "qubits"))
  print (listing ops)
  j.info ("decoded program of " ++ toString words.length ++ " words")

def inspect (j : Job m) : CommandM m Inspector := do
  let c ← j.loadCircuit
  let c ← j.scheduled j.options c
  let p ← j.encoded c
  liftExcept .inspector (Inspector.ofProgram c p)

def check (j : Job m) : CommandM m Unit := do
  let c ← j.loadCircuit
  let o := { j.options with enabled := true }
  let after ← j.scheduled o c
  let want ← liftExcept (.simulate "simulate") c.simulate
  let got ← liftExcept (.simulate "simulate scheduled") after.simulate
  let fidelity := want.fidelity got
  print (c.name ++ ": " ++ toString c.lastSlice ++ " -> " ++ toString after.lastSlice ++
    " timeslices (" ++ Mode.nameOf o.mode ++ "), fidelity " ++ Decimal.fixed 12 fidelity ++ "\n")
  if 1.0 - fidelity > j.args.number "tolerance" 1e-9 then throw (.fidelity fidelity)

def run (j : Job m) : Command → CommandM m Ending
  | .compile => do j.compile; return .done
  | .draw => do j.draw; return .done
  | .dump => do j.dump; return .done
  | .decode => do j.decode; return .done
  | .inspect => do return .inspect (← j.inspect)
  | .check => do j.check; return .done
  | .version => do print "qsofinstr version 0.4.0\n"; return .done

end Job

def runCommand (host : Host m) (args : List String) : CommandM m Ending := do
  let read : m (Except String Arguments) := readArguments host.files args
  match ← read with
  | .error e => throw (.usage e)
  | .ok a =>
    if a.switch "help" then
      print Command.usage
      return .done
    match a.complete with
    | .error e => throw (.usage e)
    | .ok command =>
      let settings ← loadSettings host.files (a.text "config")
      let sink ← openLog host.files settings
      let job : Job m := ⟨host, settings, sink, a⟩
      job.run command

end Sequencer
