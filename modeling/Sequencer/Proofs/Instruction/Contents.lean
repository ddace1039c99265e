import Sequencer.Instruction.SliceBuffer

/-!
# Contents of timeslices

What the words of a timeslice are, said of all its groups at once. The groups
of a lane go into header words one after the other; a group that does not fit
opens the next header word. A header word with the trailing words of its groups
is a packet. Unused low bits of a header are set, and so is the unused half of a
probability word.
-/

namespace Sequencer

namespace Packing

def consFirst (g : Group) : List (List Group) → List (List Group)
  | [] => [[g]]
  | p :: rest => (g :: p) :: rest

/-- Splits groups into the continuation of a packet with `free` bits left and
the packets after it. Every group asks for `need` bits. -/
def split (room need : Nat) : Nat → List Group → List (List Group)
  | _, [] => [[]]
  | free, g :: rest =>
    if need ≤ free then consFirst g (split room need (free - g.width) rest)
    else [] :: consFirst g (split room need (room - g.width) rest)

def packets (room need : Nat) : List Group → List (List Group)
  | [] => []
  | g :: rest => consFirst g (split room need (room - g.width) rest)

def freeFrom (room need free : Nat) (groups : List Group) : Nat :=
  groups.foldl (fun free g => (if need ≤ free then free else room) - g.width) free

def freeAfter (room need : Nat) (groups : List Group) : Nat := freeFrom room need 0 groups

def freeFor (room need : Nat) (groups : List Group) : Nat :=
  let free := freeAfter room need groups
  if need ≤ free then free else room

end Packing

/-- Two probabilities to a word, the first in the high half; a missing second
one is all ones. -/
def probabilityWords : List Fixed → List Word
  | [] => []
  | [p] => [Word.ofFields [p.field, .ones 32]]
  | p :: q :: rest => Fixed.pair p q :: probabilityWords rest

def angleWords (groups : List Group) : List Word :=
  groups.filterMap fun g =>
    match g.trail with
    | .angle w => some w
    | _ => none

def probabilities (groups : List Group) : List Fixed :=
  groups.filterMap fun g =>
    match g.trail with
    | .probability p => some p
    | _ => none

def trailingWords (groups : List Group) : List Word :=
  angleWords groups ++ probabilityWords (probabilities groups)

def headerWord (l : Lane) (last : Bool) (groups : List Group) : Word :=
  let fields := groups.flatMap Group.fields
  Word.ofFields ([.flag last, ⟨l.category.code, 3⟩] ++ l.flags ++ fields ++
    [.ones (l.room - BitField.totalWidth fields)])

def packetWords (l : Lane) (last : Bool) (groups : List Group) : List Word :=
  headerWord l last groups :: trailingWords groups

/-- What one timeslice holds: its groups in the order in which they were
added, and its measurement words. -/
structure SliceContent where
  groups : List (Lane × Group) := []
  measured : List Word := []

namespace SliceContent

def laneGroups (s : SliceContent) (l : Lane) : List Group :=
  s.groups.filterMap fun e => if e.1 = l then some e.2 else none

def packets (s : SliceContent) (y : Layout) (l : Lane) : List (List Group) :=
  Packing.packets l.room (y.width l) (s.laneGroups l)

def laneWords (s : SliceContent) (y : Layout) (l : Lane) : List Word :=
  (s.packets y l).flatMap (packetWords l false)

def flaggedWords (s : SliceContent) (y : Layout) (l : Lane) : List Word :=
  let ps := s.packets y l
  ps.dropLast.flatMap (packetWords l false) ++ (ps.getLast?.map (packetWords l true)).getD []

def lastHeader (s : SliceContent) (y : Layout) (l : Lane) : Nat :=
  ((s.packets y l).dropLast.flatMap (packetWords l false)).length

/-- The category that ends the timeslice: that of the group added last, or
measurement when there is no group. -/
def closing (s : SliceContent) : Category :=
  match s.groups.getLast? with
  | some e => e.1.category
  | none => .measurement

def closingLane? (s : SliceContent) (y : Layout) : Option Lane :=
  Lane.furthest (s.lastHeader y) (s.closing.lanes.filter fun l => !(s.laneGroups l).isEmpty)

def categoryWords (s : SliceContent) (y : Layout) (k : Category) : List Word :=
  if k = .measurement then s.measured else k.lanes.flatMap (s.laneWords y)

def closingWords (s : SliceContent) (y : Layout) : List Word :=
  match s.closingLane? y with
  | none => Word.flagLast s.measured
  | some l =>
    (s.closing.lanes.filter fun other => other ≠ l).flatMap (s.laneWords y) ++ s.flaggedWords y l

def words (s : SliceContent) (y : Layout) : List Word :=
  (Category.emissionOrder.filter fun k => k ≠ s.closing).flatMap (s.categoryWords y) ++ s.closingWords y

end SliceContent
end Sequencer
