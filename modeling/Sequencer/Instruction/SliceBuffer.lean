import Sequencer.Assoc
import Sequencer.Instruction.LaneBuffer

/-!
# Slice buffers

What is written for one timeslice. The category written last ends it: its
words come behind those of the other categories, with the end flag on their
last header word. Measurements end a timeslice only as long as nothing else is
written in it, so the flag that they carry is taken back when a group follows.
Groups are written while their timeslice is visited, and the lanes are closed
and flagged when it ends; measurements may come in later.
-/

namespace Sequencer

namespace Category

/-- The order of the categories, before the one that ends the timeslice is moved
to the end. -/
def emissionOrder : List Category :=
  [.single, .singleCond, .control, .controlCond, .decoherence, .measurement, .reset]

def lanes (k : Category) : List Lane := Lane.all.filter fun l => l.category = k

end Category

namespace Word

def flagLast : List Word → List Word
  | [] => []
  | [w] => [w ||| lastFlag]
  | w :: rest => w :: flagLast rest

def withoutFlag (w : Word) : Word := w &&& UInt64.ofNat (Nat.pow 2 63 - 1)

def unflagLast : List Word → List Word
  | [] => []
  | [w] => [w.withoutFlag]
  | w :: rest => w :: unflagLast rest

end Word

def Lane.further (position : Lane → Nat) (best : Option Lane) (l : Lane) : Option Lane :=
  match best with
  | none => some l
  | some b => if position b ≤ position l then some l else some b

/-- The lane with the highest position, the later one on ties. -/
def Lane.furthest (position : Lane → Nat) (lanes : List Lane) : Option Lane :=
  lanes.foldl (Lane.further position) none

structure SliceBuffer where
  lanes : Assoc Lane LaneBuffer := {}
  measured : List Word := []
  marker : Option Category := none
  markedLane : Lane := .single

namespace SliceBuffer

def lane (s : SliceBuffer) (l : Lane) : LaneBuffer := (s.lanes.get? l).getD {}

def setLane (s : SliceBuffer) (l : Lane) (b : LaneBuffer) : SliceBuffer := { s with lanes := s.lanes.insert l b }

def unmarked (s : SliceBuffer) : List Word :=
  if s.marker = some .measurement then Word.unflagLast s.measured else s.measured

/-- Makes a category the one written last. -/
def claim (s : SliceBuffer) (k : Category) : SliceBuffer := { s with measured := s.unmarked, marker := some k }

def add (s : SliceBuffer) (y : Layout) (l : Lane) (g : Group) : Except Fault SliceBuffer := do
  let b ← (s.lane l).add l (y.width l) g
  return (s.claim l.category).setLane l b

/-- Adds a batch of measurements, which has the end flag if nothing else has it. -/
def addMeasured (s : SliceBuffer) (words : List Word) : SliceBuffer :=
  if words.isEmpty then s
  else if s.marker.all fun k => k = .measurement then
    { s with measured := Word.flagLast (s.unmarked ++ words), marker := some .measurement }
  else { s with measured := s.measured ++ words }

def closeLanes (s : SliceBuffer) : SliceBuffer :=
  Lane.all.foldl (fun s l => s.setLane l (s.lane l).close) s

def filled (s : SliceBuffer) (k : Category) : List Lane := k.lanes.filter fun l => !(s.lane l).words.isEmpty

/-- Sets the end flag in the lane of the category whose last header word comes
furthest. -/
def markEnd (s : SliceBuffer) (k : Category) : SliceBuffer :=
  match Lane.furthest (fun l => (s.lane l).current) (s.filled k) with
  | none => s
  | some l => { s.setLane l (s.lane l).flag with markedLane := l }

/-- Ends the timeslice: no group is added any more. -/
def flush (s : SliceBuffer) : SliceBuffer :=
  match s.marker with
  | none => s.closeLanes
  | some k => if k = .measurement then s.closeLanes else s.closeLanes.markEnd k

def laneWords (s : SliceBuffer) (lanes : List Lane) : List Word := lanes.flatMap fun l => (s.lane l).words

def categoryWords (s : SliceBuffer) (k : Category) : List Word :=
  if k = .measurement then s.measured else s.laneWords k.lanes

/-- The words of the category that ends the timeslice, the lane with the flag
last. -/
def markedWords (s : SliceBuffer) (k : Category) : List Word :=
  if k = .measurement then s.measured
  else s.laneWords (k.lanes.filter fun l => l ≠ s.markedLane) ++ (s.lane s.markedLane).words

def words (s : SliceBuffer) : List Word :=
  match s.marker with
  | none => Category.emissionOrder.flatMap s.categoryWords
  | some k => (Category.emissionOrder.filter fun other => other ≠ k).flatMap s.categoryWords ++ s.markedWords k

end SliceBuffer
end Sequencer
