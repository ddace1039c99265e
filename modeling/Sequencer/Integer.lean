/-!
# Signed integers of 64 bits

Counters, sizes and positions are integers of 64 bits. Where a sum or a
difference can leave their range it wraps around.
-/

namespace Sequencer.Integer

/-- Integers of 64 bits go from its negation up to the number before it. -/
def bound : Nat := 0x8000000000000000

/-- The integer of 64 bits that differs from `n` by a multiple of their number. -/
def wrap (n : Int) : Int := (n + bound) % (2 * bound) - bound

theorem wrap_of_lt {n : Int} (low : -(bound : Int) ≤ n) (high : n < bound) : wrap n = n := by
  unfold wrap bound at *
  omega

end Sequencer.Integer
