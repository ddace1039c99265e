import Sequencer.Instruction.FixedPoint
import Sequencer.Instruction.Lane

/-!
# Lane buffers

The words of a lane within a timeslice, filled group by group. The fields of a
group go into the current header word, below those of the groups before it; a
group that does not fit opens the next header word. What follows a header word
on behalf of its groups is written behind it. A word that is closed has its
unused low bits set.
-/

namespace Sequencer

/-- What follows the header word on behalf of a group. -/
inductive Trail where
  | none
  | angle (word : Word)
  | probability (value : Fixed)
  deriving DecidableEq, Repr

structure Group where
  fields : List BitField
  trail : Trail := .none
  deriving DecidableEq, Repr

def Group.width (g : Group) : Nat := BitField.totalWidth g.fields

def Lane.header (l : Lane) : Word :=
  Word.ofFields ([.flag false, ⟨l.category.code, 3⟩] ++ l.flags ++ [⟨0, l.room⟩])

structure LaneBuffer where
  words : List Word := []
  /-- The position of the header word that took the last group. -/
  current : Nat := 0
  isOpen : Bool := false
  room : Nat := 0
  /-- The position of a probability word whose low half is free. -/
  half : Option Nat := none

namespace LaneBuffer

def setBits (b : LaneBuffer) (position : Nat) (bits : Word) : LaneBuffer :=
  { b with words := b.words.modify position (· ||| bits) }

def closeHeader (b : LaneBuffer) : LaneBuffer :=
  if b.isOpen then { b.setBits b.current (Word.ofFields [.ones b.room]) with isOpen := false } else b

def closeHalf (b : LaneBuffer) : LaneBuffer :=
  match b.half with
  | none => b
  | some position => { b.setBits position (Word.ofFields [.ones 32]) with half := none }

def close (b : LaneBuffer) : LaneBuffer := b.closeHeader.closeHalf

def makeRoom (b : LaneBuffer) (l : Lane) (need : Nat) : LaneBuffer :=
  if b.isOpen && need ≤ b.room then b
  else
    { b.close with
      words := b.close.words ++ [l.header], current := b.close.words.length, isOpen := true, room := l.room }

/-- Writes a field below those before it. A field that reaches below bit 0 is a
fault. -/
def put (b : LaneBuffer) (f : BitField) : Except Fault LaneBuffer :=
  if b.room < f.width then .error .outOfRange
  else
    .ok { b.setBits b.current (Word.ofFields [f, ⟨0, b.room - f.width⟩]) with room := b.room - f.width }

def append (b : LaneBuffer) (w : Word) : LaneBuffer := { b with words := b.words ++ [w] }

/-- Two probabilities share a word, the first in the high half. -/
def addTrail (b : LaneBuffer) : Trail → LaneBuffer
  | .none => b
  | .angle w => b.append w
  | .probability p =>
    match b.half with
    | none => { b.append (Word.ofFields [p.field, ⟨0, 32⟩]) with half := some b.words.length }
    | some position => { b.setBits position (Word.ofFields [p.field]) with half := none }

/-- Adds a group, for which `need` bits have to be free in a header word. -/
def add (b : LaneBuffer) (l : Lane) (need : Nat) (g : Group) : Except Fault LaneBuffer := do
  let filled ← g.fields.foldlM put (b.makeRoom l need)
  return filled.addTrail g.trail

def flag (b : LaneBuffer) : LaneBuffer := b.setBits b.current Word.lastFlag

end LaneBuffer
end Sequencer
