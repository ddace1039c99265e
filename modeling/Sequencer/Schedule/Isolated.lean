import Sequencer.Gate
import Sequencer.Schedule.Strategy

/-!
# Isolated scheduling

Every off-diagonal gate instance gets the next unused timeslice for itself.
The other operations of a timeslice share one, taken into use by the first of
them and given up for a new one when a conditioned operation would otherwise
run no later than the last measurement.
-/

namespace Sequencer

structure IsolatedMemory where
  used : Int := 0
  /-- The timeslice now shared by the other operations of a timeslice. -/
  shared : Assoc Int Int := {}
  measured : Int := 0

namespace IsolatedMemory

def sharedFor? (m : IsolatedMemory) (t : Int) (n : Node) : Option Int :=
  (m.shared.get? t).filter fun slot => !(n.isConditioned && slot ≤ m.measured)

def slotFor (m : IsolatedMemory) (t : Int) (n : Node) : Int × IsolatedMemory :=
  if Gate.isOffDiagonal n.gate then (m.used + 1, { m with used := m.used + 1 })
  else
    match m.sharedFor? t n with
    | some slot => (slot, m)
    | none =>
      (m.used + 1, { m with used := m.used + 1, shared := m.shared.insert t (m.used + 1) })

end IsolatedMemory

def isolated : Strategy IsolatedMemory where
  start := {}
  choose m _ t n :=
    let (slot, m) := m.slotFor t n
    (slot, { m with measured := if n.measurement then max m.measured slot else m.measured })
  moved m _ _ _ := m

end Sequencer
