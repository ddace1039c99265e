import Sequencer.Assoc
import Sequencer.Circuit.Basic
import Sequencer.Circuit.Builder
import Sequencer.Circuit.Document
import Sequencer.Circuit.Drawing
import Sequencer.Circuit.Label
import Sequencer.Circuit.Loading
import Sequencer.Circuit.Source
import Sequencer.Command.Arguments
import Sequencer.Command.Error
import Sequencer.Command.Files
import Sequencer.Command.Flag
import Sequencer.Command.LogSink
import Sequencer.Command.Manifest
import Sequencer.Command.Path
import Sequencer.Command.Run
import Sequencer.Decimal.Binary
import Sequencer.Decimal.Notation
import Sequencer.Decimal.Reader
import Sequencer.Decimal.Shortest
import Sequencer.Fault
import Sequencer.Gate
import Sequencer.Hash.Blake3
import Sequencer.Inspector.Basic
import Sequencer.Inspector.Pane
import Sequencer.Inspector.View
import Sequencer.Instruction.Decoder
import Sequencer.Instruction.Encoder
import Sequencer.Instruction.FixedPoint
import Sequencer.Instruction.Lane
import Sequencer.Instruction.LaneBuffer
import Sequencer.Instruction.MeasurementBuffer
import Sequencer.Instruction.Operation
import Sequencer.Instruction.Program
import Sequencer.Instruction.SliceBuffer
import Sequencer.Instruction.Word
import Sequencer.Integer
import Sequencer.Json.Fields
import Sequencer.Json.Reader
import Sequencer.Json.Value
import Sequencer.Main
import Sequencer.Qasm.Elaboration
import Sequencer.Qasm.Expression
import Sequencer.Qasm.Grammar
import Sequencer.Qasm.Matcher
import Sequencer.Qasm.Syntax
import Sequencer.Qasm.Token
import Sequencer.Schedule.Basic
import Sequencer.Schedule.Isolated
import Sequencer.Schedule.Mode
import Sequencer.Schedule.Packed
import Sequencer.Schedule.Strategy
import Sequencer.Settings
import Sequencer.Simulation.Complex
import Sequencer.Simulation.GateMatrix
import Sequencer.Simulation.Run
import Sequencer.Simulation.StateVector
import Sequencer.Text.Base64
import Sequencer.Text.Block
import Sequencer.Text.CellWidth
import Sequencer.Text.Escape
import Sequencer.Text.Grapheme
import Sequencer.Text.IpLiteral
import Sequencer.Text.Pen
import Sequencer.Text.Printable
import Sequencer.Text.Quoted
import Sequencer.Text.RawText
import Sequencer.Text.SmallLetters
import Sequencer.Text.Url
import Sequencer.Text.Wrap
import Sequencer.Timeline
import Sequencer.Yaml.Cursor
import Sequencer.Yaml.Decoding
import Sequencer.Yaml.Node
import Sequencer.Yaml.Resolution
import Sequencer.Yaml.Source
import Sequencer.Yaml.Token
import Sequencer.Yaml.Tokenizer
import Sequencer.Yaml.Writer
import Sequencer.Proofs.Checked
import Sequencer.Proofs.Chunks
import Sequencer.Proofs.Timelines
import Sequencer.Proofs.Circuit.ElementNames
import Sequencer.Proofs.Circuit.Placement
import Sequencer.Proofs.Circuit.WellFormed
import Sequencer.Proofs.Circuit.Construction
import Sequencer.Proofs.Circuit.Bookkeeping
import Sequencer.Proofs.Circuit.Visits
import Sequencer.Proofs.Circuit.Targets
import Sequencer.Proofs.Schedule.Moves
import Sequencer.Proofs.Schedule.Rescheduled
import Sequencer.Proofs.Schedule.Packed
import Sequencer.Proofs.Schedule.Isolated
import Sequencer.Proofs.Schedule.Visiting
import Sequencer.Proofs.Simulation.Operators
import Sequencer.Proofs.Simulation.Reordering
import Sequencer.Proofs.Simulation.Applications
import Sequencer.Proofs.Simulation.Scheduled
import Sequencer.Proofs.Instruction.BitFields
import Sequencer.Proofs.Instruction.Layout
import Sequencer.Proofs.Instruction.Measurements
import Sequencer.Proofs.Instruction.Contents
import Sequencer.Proofs.Instruction.LaneBuffers
import Sequencer.Proofs.Instruction.SliceBuffers
import Sequencer.Proofs.Instruction.Groups
import Sequencer.Proofs.Instruction.Plan
import Sequencer.Proofs.Instruction.BitTests
import Sequencer.Proofs.Instruction.Operands
import Sequencer.Proofs.Instruction.Packets
import Sequencer.Proofs.Instruction.Reading
import Sequencer.Proofs.Instruction.RoundTrip
import Sequencer.Proofs.Instruction.Positions
import Sequencer.Proofs.Instruction.MeasuredFirst
import Sequencer.Proofs.Instruction.SliceEnds
import Sequencer.Proofs.Instruction.QubitOrder
import Sequencer.Proofs.Schedule.BitAccesses
import Sequencer.Proofs.Decimal.Numerals
import Sequencer.Proofs.Json.Texts
import Sequencer.Proofs.Json.Numbers
import Sequencer.Proofs.Associations
import Sequencer.Proofs.Json.Records
import Sequencer.Proofs.Circuit.DocumentReading
import Sequencer.Proofs.Circuit.Keys
import Sequencer.Proofs.Circuit.Reloading
import Sequencer.Proofs.Qasm.Tokens
import Sequencer.Proofs.Qasm.Matching
import Sequencer.Proofs.Qasm.Programs
import Sequencer.Proofs.Qasm.Elaborated
import Sequencer.Proofs.Instruction.Capacity
import Sequencer.Proofs.Qasm.Lexing
import Sequencer.Proofs.Qasm.Recognition
import Sequencer.Proofs.Qasm.Products
import Sequencer.Proofs.Qasm.Statements
import Sequencer.Proofs.Circuit.Replay
import Sequencer.Proofs.Qasm.Emission
import Sequencer.Proofs.Qasm.Rereading
import Sequencer.Proofs.Qasm.RoundTrip
import Sequencer.Proofs.Instruction.Concatenation
import Sequencer.Proofs.Instruction.LostGroups
import Sequencer.Proofs.Circuit.Calls
import Sequencer.Proofs.Schedule.Barriers
import Sequencer.Proofs.Circuit.Dependences
import Sequencer.Proofs.Circuit.Commutation
import Sequencer.Proofs.Instruction.Conditions
import Sequencer.Angle
import Sequencer.Proofs.Instruction.Distinction
import Sequencer.Proofs.Instruction.Serialization
import Sequencer.Proofs.Instruction.Batches
import Sequencer.Proofs.Instruction.Safety
import Sequencer.Proofs.Qasm.Expansion
import Sequencer.Proofs.Qasm.Flattening
import Sequencer.Proofs.Qasm.Constructs
import Sequencer.Proofs.Qasm.Rendering
import Sequencer.Proofs.Schedule.Idempotence
import Sequencer.Proofs.Qasm.Broadcast
import Sequencer.Proofs.Qasm.DeclaredGates
import Sequencer.Proofs.Circuit.Extension
