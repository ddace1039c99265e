import Sequencer.Fault

/-!
# Scheduling modes
-/

namespace Sequencer

/-- How operations are moved. Packed scheduling puts off-diagonal gates one
after the other and lets everything else run in parallel; isolated scheduling
gives every off-diagonal gate a timeslice of its own. -/
inductive Mode where
  | packed | isolated
  deriving DecidableEq, Repr

namespace Mode

def code : Mode → Int
  | .packed => 1
  | .isolated => 2

def ofCode? (code : Int) : Option Mode :=
  if code = 1 then some .packed else if code = 2 then some .isolated else none

def name : Mode → String
  | .packed => "packed"
  | .isolated => "isolated"

def nameOf (code : Int) : String := ((ofCode? code).map name).getD "unknown"

end Mode

structure ScheduleOptions where
  enabled : Bool
  mode : Int
  deriving DecidableEq, Repr

namespace ScheduleOptions

def standard : ScheduleOptions := ⟨true, Mode.packed.code⟩

def validMode (o : ScheduleOptions) : Except Fault Mode :=
  match Mode.ofCode? o.mode with
  | some m => .ok m
  | none => .error (.unsupportedMode o.mode)

end ScheduleOptions
end Sequencer
