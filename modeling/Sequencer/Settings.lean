import Sequencer.Schedule.Mode
import Sequencer.Yaml.Decoding
import Sequencer.Yaml.Writer

/-!
# Settings

The settings of the command line, as a YAML text. Every key may be left out;
a key that does not exist or is given twice is of the wrong type. Whatever is
left out is filled in before the settings are checked.
-/

namespace Sequencer

structure ScheduleSettings where
  /-- Absent means enabled. -/
  enabled : Option Bool := none
  mode : Int := 0
  deriving DecidableEq, Repr

structure OutputSettings where
  format : RawText := ""
  /-- The directory of compiled programs; empty means beside the input. -/
  dir : RawText := ""
  manifest : Bool := false
  deriving DecidableEq, Repr

structure LogSettings where
  path : RawText := ""
  deriving DecidableEq, Repr

structure Settings where
  schedule : ScheduleSettings := {}
  output : OutputSettings := {}
  log : Option LogSettings := none
  deriving DecidableEq, Repr

inductive SettingsError where
  | notYaml
  | wrongType
  | unsupportedMode (mode : Int)
  | unsupportedFormat (format : RawText)
  deriving DecidableEq, Repr

def SettingsError.message : SettingsError → String
  | .notYaml => "not a YAML text"
  | .wrongType => "a value of the wrong type"
  | .unsupportedMode mode => "invalid config: schedule mode must be 1 or 2, got " ++ toString mode
  | .unsupportedFormat format =>
    "invalid config: output format must be txt or bin, got " ++ format.quoted

namespace Settings

open Yaml

def overSchedule : Over ScheduleSettings := overRecord {} [
  field "enabled" ScheduleSettings.enabled (fun v s => { s with enabled := v })
    (overOptional false bareBool),
  field "mode" ScheduleSettings.mode (fun v s => { s with mode := v }) overInt]

def overOutput : Over OutputSettings := overRecord {} [
  field "format" OutputSettings.format (fun v s => { s with format := v }) overText,
  field "dir" OutputSettings.dir (fun v s => { s with dir := v }) overText,
  field "manifest" OutputSettings.manifest (fun v s => { s with manifest := v }) overBool]

def overLog : Over LogSettings := overFields {} [
  field "path" LogSettings.path (fun v s => { s with path := v }) overText]

def overNode : Over Settings := overRecord {} [
  field "schedule" Settings.schedule (fun v s => { s with schedule := v }) overSchedule,
  field "output" Settings.output (fun v s => { s with output := v }) overOutput,
  field "log" Settings.log (fun v s => { s with log := v }) (overOptional {} overLog)]

def ofBytes (bytes : List UInt8) : Except SettingsError Settings :=
  match Yaml.read bytes with
  | .invalid => .error .notYaml
  | .noDocument => .ok {}
  | .document d =>
    match d.over overNode {} with
    | none => .error .notYaml
    | some (s, true) => .ok s
    | some (_, false) => .error .wrongType

def withDefaults (s : Settings) : Settings :=
  let standard := ScheduleOptions.standard
  { s with
    schedule := ⟨some (s.schedule.enabled.getD standard.enabled),
      if s.schedule.mode = 0 then standard.mode else s.schedule.mode⟩
    output := { s.output with format := if s.output.format.isEmpty then "txt" else s.output.format } }

def scheduleOptions (s : Settings) : ScheduleOptions :=
  ⟨s.schedule.enabled.getD ScheduleOptions.standard.enabled, s.schedule.mode⟩

def isFormat (format : RawText) : Bool := format == "txt" || format == "bin"

def check (s : Settings) : Except SettingsError Unit :=
  match s.scheduleOptions.validMode with
  | .error _ => .error (.unsupportedMode s.schedule.mode)
  | .ok _ =>
    if isFormat s.output.format then .ok ()
    else .error (.unsupportedFormat s.output.format)

def load (bytes : Option (List UInt8)) : Except SettingsError Settings := do
  let given ←
    match bytes with
    | none => pure {}
    | some bytes => ofBytes bytes
  let s := given.withDefaults
  s.check
  return s

def boolText (b : Bool) : String := if b then "true" else "false"

def toYaml (s : Settings) : String :=
  let schedule : Yaml.Output :=
    [("enabled", .plain ((s.schedule.enabled.map boolText).getD "null")),
     ("mode", .plain (toString s.schedule.mode))]
  let output : Yaml.Output :=
    [("format", .text s.output.format), ("dir", .text s.output.dir),
     ("manifest", .plain (boolText s.output.manifest))]
  Yaml.write [
    ("schedule", .record schedule),
    ("output", .record output),
    ("log", (s.log.map fun l => .record [("path", .text l.path)]).getD (.plain "null"))]

end Settings
end Sequencer
