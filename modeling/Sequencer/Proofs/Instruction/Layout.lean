import Sequencer.Instruction.Lane
import Sequencer.Proofs.Instruction.BitFields

/-!
# Widths

A qubit index fits its field, and unless the number of qubits is a power of
two above one, it leaves a bit of the field clear: a field of ones is never the
index of a qubit.
-/

namespace Sequencer

open BitField

namespace Layout
variable (y : Layout)

theorem qubitBits_pos : 0 < y.qubitBits := by
  simp only [qubitBits, Sequencer.qubitBits]
  split <;> omega

theorem qubitBits_of_le_one {y : Layout} (h : y.qubits ≤ 1) : y.qubitBits = 1 := by
  simp only [qubitBits, Sequencer.qubitBits]
  exact if_pos (by omega)

theorem qubitBits_of_one_lt {y : Layout} (h : 1 < y.qubits) :
    y.qubitBits = (y.qubits - 1).log2 + 1 := by
  have hcast : ((y.qubits : Int) - 1).toNat = y.qubits - 1 := by omega
  simp only [qubitBits, Sequencer.qubitBits]
  rw [if_neg (by omega), hcast]

theorem qubits_le_two_pow : y.qubits ≤ 2 ^ y.qubitBits := by
  by_cases h : 1 < y.qubits
  · have := Nat.lt_log2_self (n := y.qubits - 1)
    rw [← qubitBits_of_one_lt h] at this
    omega
  · rw [qubitBits_of_le_one (by omega)]
    omega

theorem lt_two_pow {y : Layout} {i : Nat} (h : i < y.qubits) : i < 2 ^ y.qubitBits :=
  Nat.lt_of_lt_of_le h y.qubits_le_two_pow

theorem succ_lt_two_pow {y : Layout} (hy : y.qubits = 1 ∨ ¬ y.qubits.isPowerOfTwo) {i : Nat}
    (h : i < y.qubits) : i + 1 < 2 ^ y.qubitBits := by
  rcases hy with hy | hy
  · rw [qubitBits_of_le_one (Nat.le_of_eq hy)]
    omega
  · have hne : y.qubits ≠ 2 ^ y.qubitBits := fun heq => hy ⟨_, heq⟩
    have := y.qubits_le_two_pow
    omega

theorem qubitBits_le_of_le {y : Layout} {n : Nat} (hn : 0 < n) (h : y.qubits ≤ 2 ^ n) : y.qubitBits ≤ n := by
  by_cases h1 : 1 < y.qubits
  · rw [qubitBits_of_one_lt h1]
    have hne : y.qubits - 1 ≠ 0 := by omega
    exact (Nat.log2_lt hne).mpr (by omega)
  · rw [qubitBits_of_le_one (by omega)]
    exact hn

theorem qubitBits_le {y : Layout} (h : y.qubits < Integer.bound) : y.qubitBits ≤ 64 :=
  qubitBits_le_of_le (by decide) (Nat.le_trans (Nat.le_of_lt h) (by decide))

theorem width_pos (l : Lane) : 0 < y.width l := by
  have := y.qubitBits_pos
  cases l <;> simp only [width] <;> omega

end Layout

namespace Lane

theorem totalWidth_flags (l : Lane) : totalWidth l.flags = l.flags.length := by
  cases l <;> rfl

theorem room_add_flags (l : Lane) : l.flags.length + l.room = headerRoom := by
  cases l <;> rfl

theorem room_le (l : Lane) : l.room ≤ headerRoom := by
  cases l <;> decide

theorem category_code_lt (l : Lane) : l.category.code < 8 := by
  cases l <;> decide

theorem category_ne_measurement (l : Lane) : l.category ≠ .measurement := by
  cases l <;> decide

/-- Category and flags tell the lane. -/
theorem ofWord?_of_holds {w : Word} {l : Lane} {fs : List BitField}
    (h : w.Holds 63 (⟨l.category.code, 3⟩ :: (l.flags ++ fs))) : ofWord? w = some l := by
  have hop := Word.opcode_of_holds h l.category_code_lt
  have hrest := h.tail
  cases l <;>
    simp only [flags, category, testsRange, hasMask, List.cons_append, List.nil_append] at hop hrest <;>
    simp only [ofWord?, Word.category, hop, Category.code, Category.ofCode]
  case singleBit | singleRange | controlOne | controlMany =>
    simp [Word.testBit_of_holds hrest]
  case controlOneBit | controlOneRange | controlManyBit | controlManyRange =>
    have hnext := hrest.tail
    simp [Word.testBit_of_holds hrest, Word.testBit_of_holds hnext, controlCond]

end Lane
end Sequencer
