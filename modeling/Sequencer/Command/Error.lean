import Sequencer.Circuit.Document
import Sequencer.Circuit.Loading
import Sequencer.Command.LogSink
import Sequencer.Inspector.Basic
import Sequencer.Instruction.Encoder
import Sequencer.Qasm.Elaboration
import Sequencer.Settings
import Sequencer.Simulation.Run

/-!
# Why a command fails
-/

namespace Sequencer

inductive CommandError where
  | usage (message : String)
  | file (doing : String) (error : FileError)
  | log (path : RawText) (error : LogSinkError)
  | settings (error : SettingsError)
  | source (path : String) (error : Qasm.ReadError)
  | load (error : LoadError)
  | unsupportedMode (mode : Int)
  | unsupportedFormat (format : String)
  | encode (error : EncodeError)
  | stream (error : StreamError)
  | decode (error : DecodeError)
  | simulate (doing : String) (error : SimulationError)
  | unwritable (error : UnwritableValue)
  /-- Scheduling changed the final state. -/
  | fidelity (value : Float)
  | inspector (error : InspectorError)
  | fault (f : Fault)

namespace CommandError

def message : CommandError → String
  | .usage message => message
  | .file doing error => doing ++ ": " ++ error.message
  | .log path error => "create logger: open sink " ++ path.quoted ++ ": " ++ error.message
  | .settings error => error.message
  | .source path error => error.message path
  | .load error => error.message
  | .unsupportedMode mode => "schedule mode must be 1 or 2, got " ++ toString mode
  | .unsupportedFormat format => "output format must be txt or bin, got " ++ Text.quote format
  | .encode error => "encode: " ++ error.message
  | .stream error => error.message
  | .decode error => "decode program: " ++ error.message
  | .simulate doing error => doing ++ ": " ++ error.message
  | .unwritable error => error.message
  | .fidelity value => "scheduling changed the final state: fidelity " ++ Decimal.general value
  | .inspector error => error.message
  | .fault f => f.message?.getD ""

def fault? : CommandError → Option Fault
  | .fault f | .load (.fault f) | .encode (.fault f) | .decode (.fault f) | .simulate _ (.fault f)
  | .inspector (.fault f) => some f
  | _ => none

end CommandError
end Sequencer
