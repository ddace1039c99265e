import Sequencer.Instruction.Word

/-!
# Measurement buffer

Measurements of several timeslices share words. A batch stays open until a
conditioned operation or the end of the program needs it, and is then written
at the last timeslice it covers.

Any integer is accepted as the width of a qubit field. A width that does not
fit leads to faults; what a call did before its fault stays done.
-/

namespace Sequencer

structure MeasurementBuffer where
  fieldWidth : Int
  /-- The words of the batch, newest first. -/
  newest : List Word := []
  isOpen : Bool := false
  room : Int := 0
  slice : Int := 0

namespace MeasurementBuffer

def ofWidth (fieldWidth : Int) : MeasurementBuffer := { fieldWidth := fieldWidth }

def isFlushed (b : MeasurementBuffer) : Bool := b.newest.isEmpty

def words (b : MeasurementBuffer) : List Word := b.newest.reverse

def setBits (b : MeasurementBuffer) (bits : Nat) : MeasurementBuffer :=
  match b.newest with
  | [] => b
  | w :: rest => { b with newest := (w ||| UInt64.ofNat bits) :: rest }

/-- Sets the unused low bits of the newest word and closes it. -/
def pad (b : MeasurementBuffer) : MeasurementBuffer × Option Fault :=
  if !b.isOpen then (b, none)
  else
    match lowOnes b.room with
    | .error f => (b, some f)
    | .ok bits => ({ b.setBits bits with isOpen := false }, none)

def makeRoom (b : MeasurementBuffer) : MeasurementBuffer × Option Fault :=
  if b.isOpen && b.fieldWidth ≤ b.room then (b, none)
  else
    match b.pad with
    | (b, some f) => (b, some f)
    | (b, none) =>
      ({ b with newest := Word.header .measurement :: b.newest, isOpen := true, room := headerRoom }, none)

def fieldBits (fieldWidth room qubit : Int) : Except Fault Nat := do
  let mask ← lowOnes fieldWidth
  if room < 0 then throw .outOfRange
  if 64 ≤ room then return 0
  let value := (qubit % Nat.pow 2 64).toNat % (mask + 1)
  return value * Nat.pow 2 room.toNat % Nat.pow 2 64

def add (b : MeasurementBuffer) (qubit t : Int) : MeasurementBuffer × Option Fault :=
  match b.makeRoom with
  | (b, some f) => (b, some f)
  | (b, none) =>
    let b := { b with room := Integer.wrap (b.room - b.fieldWidth) }
    match fieldBits b.fieldWidth b.room qubit with
    | .error f => (b, some f)
    | .ok bits => ({ b.setBits bits with slice := max b.slice t }, none)

/-- Ends the batch: its words, its last timeslice, and an empty buffer. -/
def close (b : MeasurementBuffer) : Except Fault (List Word × Int × MeasurementBuffer) :=
  match b.pad with
  | (_, some f) => .error f
  | (b, none) => .ok (b.words, b.slice, { b with newest := [], slice := 0 })

end MeasurementBuffer
end Sequencer
