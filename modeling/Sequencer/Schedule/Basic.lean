import Sequencer.Schedule.Isolated
import Sequencer.Schedule.Mode
import Sequencer.Schedule.Packed

/-!
# Scheduling

Moves the operations of a circuit to timeslices a controller can execute:
off-diagonal gates never share a timeslice, and conditioned operations run
after the last measurement before them.
-/

namespace Sequencer.Circuit

def scheduleIn (c : Circuit) : Mode → Except Fault Circuit
  | .packed => c.reschedule packed
  | .isolated => c.reschedule isolated

def schedule (c : Circuit) (o : ScheduleOptions) : Except Fault Circuit := do
  if !o.enabled then return c
  c.scheduleIn (← o.validMode)

/-- Scheduling moves a node before it ends, well or not. -/
def movesBeforeFault (c : Circuit) (o : ScheduleOptions) : Bool :=
  o.enabled &&
    match o.validMode with
    | .ok .packed => c.movesFirst packed
    | .ok .isolated => c.movesFirst isolated
    | .error _ => false

end Sequencer.Circuit
