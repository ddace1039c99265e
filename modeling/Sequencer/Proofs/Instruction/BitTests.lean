import Sequencer.Instruction.Decoder
import Sequencer.Proofs.Instruction.Plan

/-!
# Conditions in words

A condition that the encoder resolves fits its fields, so it is read back as
it was resolved. A register takes consecutive bits, so the range of a register
test lies within the bits of the circuit.
-/

namespace Sequencer

open BitField

-- ---------------------------------------------------------------------------
-- Bits of a register
-- ---------------------------------------------------------------------------

theorem Circuit.WellFormed.split_bits {c : Circuit} (wf : c.WellFormed) {register : String}
    {low : Nat} (h : c.bitIndex (elementName register 0) = .ok low) :
    1 ≤ c.classicalSize register ∧ ∃ before after,
      c.bits = before ++ (Register.elements ⟨register, c.classicalSize register⟩ ++ after) ∧
        before.length = low := by
  simp only [bitIndex] at h
  split at h
  case h_2 => cases h
  rename_i i hi
  obtain rfl : i = low := Except.ok.inj h
  obtain ⟨r, hr, hmem⟩ := List.mem_flatMap.mp (List.mem_of_getElem? (getElem?_of_lastIndexOf? hi))
  obtain ⟨j, hj, hname⟩ := mem_elements.mp hmem
  obtain ⟨rfl, rfl⟩ := elementName_injective (i := 0) hname
  obtain ⟨before, after, hsplit⟩ := List.append_of_mem hr
  have hbits : c.bits = before.flatMap Register.elements ++ (r.elements ++ after.flatMap Register.elements) := by
    rw [bits, hsplit, List.flatMap_append, List.flatMap_cons]
  have hsize : c.classicalSize r.name = r.size := sizeOf_eq wf.classical_names hr
  have hfirst : c.bits[(before.flatMap Register.elements).length]? = some (elementName r.name 0) := by
    have hlen : r.elements.length = r.size.toNat := by simp [Register.elements]
    rw [hbits, List.getElem?_append_right (Nat.le_refl _), Nat.sub_self,
      List.getElem?_append_left (by omega)]
    simp [Register.elements, hj]
  have hlow := (lastIndexOf?_eq_some wf.nodup_bits).mpr hfirst
  rw [hi, Option.some.injEq] at hlow
  exact ⟨by omega, _, _, by rw [hsize]; exact hbits, hlow.symm⟩

theorem Circuit.WellFormed.register_bits {c : Circuit} (wf : c.WellFormed) {register : String}
    {low : Nat} (h : c.bitIndex (elementName register 0) = .ok low) :
    1 ≤ c.classicalSize register ∧ low + c.classicalSize register ≤ c.bits.length := by
  obtain ⟨hsize, before, after, hbits, rfl⟩ := wf.split_bits h
  have htotal := congrArg List.length hbits
  simp only [List.length_append, Register.elements, List.length_map, List.length_range] at htotal
  omega

-- ---------------------------------------------------------------------------
-- Resolved conditions
-- ---------------------------------------------------------------------------

namespace BitTest

def decoded : BitTest → DecodedTest
  | .bit index value => ⟨false, index, index, value⟩
  | .range low high value => ⟨true, low, high, value⟩

def Fits (y : Layout) : BitTest → Prop
  | .bit index value => (0 ≤ index ∧ index < 2 ^ y.qubitBits) ∧ 0 ≤ value ∧ value < 2 ^ 1
  | .range low high value =>
    (0 ≤ low ∧ low < 2 ^ y.qubitBits) ∧ (0 ≤ high ∧ high < 2 ^ y.qubitBits) ∧
      0 ≤ value ∧ value < 2 ^ y.qubits

end BitTest

theorem Circuit.bitTest_ok {c : Circuit} {y : Layout} {t : Int} {gate : String} {k : Condition}
    {test : BitTest} (h : c.bitTest y t gate k = .ok test) :
    test.top < 2 ^ y.qubitBits ∧
      ((∃ low : Nat, c.bitIndex (elementName k.register 0) = .ok low ∧ 0 ≤ k.value ∧
          (y.qubits < 63 → k.value < 2 ^ y.qubits) ∧
          test = .range low (Integer.wrap (low + c.classicalSize k.register - 1)) k.value) ∨
        ∃ index : Nat, c.bitIndex k.register = .ok index ∧ test = .bit index (k.value % 2)) := by
  rw [bitTest] at h
  split at h
  · rw [bind_eq_ok] at h
    obtain ⟨low, hlow, h⟩ := h
    split at h
    · cases h
    · rename_i hvalue
      simp only [pure_bind] at h
      split at h
      · cases h
      · rename_i htop
        obtain rfl := Except.ok.inj h
        rw [not_or, not_and] at hvalue
        simp only [Nat.pow_eq, Nat.cast_pow, Nat.cast_ofNat, Int.not_le, Int.not_lt] at htop hvalue
        exact ⟨htop, .inl ⟨low, mapError_eq_ok.mp hlow, hvalue.1, hvalue.2, rfl⟩⟩
  · rw [bind_eq_ok] at h
    obtain ⟨index, hindex, h⟩ := h
    simp only [pure_bind] at h
    split at h
    · cases h
    · rename_i htop
      obtain rfl := Except.ok.inj h
      simp only [Nat.pow_eq, Nat.cast_pow, Nat.cast_ofNat, Int.not_le] at htop
      exact ⟨htop, .inr ⟨index, mapError_eq_ok.mp hindex, rfl⟩⟩

/-- A register is tested against a number of as many bits as there are qubits;
numbers of 63 bits and more are not checked, and no word has room for them. -/
theorem Circuit.WellFormed.bitTest_fits {c : Circuit} (wf : c.WellFormed)
    (counted : c.bits.length < Integer.bound) {y : Layout} {t : Int} {gate : String} {k : Condition}
    {test : BitTest} (h : c.bitTest y t gate k = .ok test)
    (narrow : test.isRange = true → y.qubits < 63) : test.Fits y := by
  obtain ⟨htop, ⟨low, hlow, hvalue, hbits, rfl⟩ | ⟨index, -, rfl⟩⟩ := bitTest_ok h
  · obtain ⟨hsize, hend⟩ := wf.register_bits hlow
    have hhigh : Integer.wrap (low + c.classicalSize k.register - 1) =
        low + c.classicalSize k.register - 1 := by
      unfold Integer.bound at counted
      exact Integer.wrap_of_lt (by unfold Integer.bound; omega) (by unfold Integer.bound; omega)
    simp only [BitTest.top, hhigh] at htop
    simp only [BitTest.Fits, hhigh]
    exact ⟨⟨by omega, by omega⟩, ⟨by omega, htop⟩, hvalue, hbits (narrow rfl)⟩
  · simp only [BitTest.top] at htop
    exact ⟨⟨by omega, htop⟩, by omega, by omega⟩

-- ---------------------------------------------------------------------------
-- Reading
-- ---------------------------------------------------------------------------

namespace HeaderWord
variable {h : HeaderWord} {pos : Nat} {rest : List BitField}

theorem read_eq {f : BitField} (hw : h.bits.Holds pos (f :: rest)) :
    h.read pos f.width = .ok (f.bits, pos - f.width) := by
  rw [read, hw.next_eq]
  rfl

theorem readTest_eq {y : Layout} {l : Lane} {test : BitTest} (fits : test.Fits y)
    (hl : l.testsRange = test.isRange) (hw : h.bits.Holds pos (test.fields y ++ rest)) :
    h.readTest y l pos = .ok (test.decoded, pos - totalWidth (test.fields y)) := by
  cases test with
  | bit index value =>
    obtain ⟨⟨hi0, hi⟩, hv0, hv⟩ := fits
    have h1 := read_eq hw
    have h2 := read_eq hw.tail
    simp only [width_ofInt, Nat.sub_sub] at h1 h2
    have hrange : l.testsRange = false := hl
    simp [readTest, h1, h2, hrange, bind, Except.bind, pure, Except.pure, bits_ofInt hi0 hi,
      bits_ofInt hv0 hv, BitTest.decoded, BitTest.fields]
  | range low high value =>
    obtain ⟨⟨hl0, hlow⟩, ⟨hh0, hhigh⟩, hv0, hv⟩ := fits
    have h1 := read_eq hw
    have h2 := read_eq hw.tail
    have h3 := read_eq hw.tail.tail
    simp only [width_ofInt, Nat.sub_sub] at h1 h2 h3
    have hrange : l.testsRange = true := hl
    simp [readTest, h1, h2, h3, hrange, bind, Except.bind, pure, Except.pure, bits_ofInt hl0 hlow,
      bits_ofInt hh0 hhigh, bits_ofInt hv0 hv, BitTest.decoded, BitTest.fields, Nat.add_assoc]

end HeaderWord
end Sequencer
