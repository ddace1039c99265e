import Sequencer.Gate
import Sequencer.Schedule.Strategy

/-!
# Packed scheduling

A node is delayed as much as the node before it on its qubit. Off-diagonal
gates also wait for the last off-diagonal gate, gates on several qubits take
the largest delay of their participants, and conditioned operations wait for
the last measurement. A measurement counts once its own timeslice is known.
-/

namespace Sequencer

structure PackedMemory where
  delays : Assoc String Int := {}
  offDiagonal : Int := 0
  measured : Int := 0

namespace PackedMemory

def delay (m : PackedMemory) (qubit : String) : Int := (m.delays.get? qubit).getD 0

def delayFor (m : PackedMemory) (qubit : String) (t : Int) (n : Node) : Int :=
  let own := m.delay qubit
  let own := if Gate.isOffDiagonal n.gate then max own (m.offDiagonal + 1 - t) else own
  let shared := n.partners.foldl (fun d p => max d (m.delay p)) own
  if n.isConditioned then max shared (m.measured + 1 - t) else shared

end PackedMemory

def packed : Strategy PackedMemory where
  start := {}
  choose m qubit t n :=
    let slot := t + m.delayFor qubit t n
    (slot,
     { m with
       offDiagonal := if Gate.isOffDiagonal n.gate then max m.offDiagonal slot else m.offDiagonal
       measured := if n.measurement then max m.measured slot else m.measured })
  moved m qubit t slot := { m with delays := m.delays.insert qubit (slot - t) }

end Sequencer
