import Mathlib.Tactic.Ring
import Sequencer.Instruction.Word

/-!
# Bit fields

Fields that were put together are read back one after the other. What is left
to read of a word below a position is a list of fields (`Word.Holds`), and
reading takes the first of them.
-/

namespace Sequencer

-- ---------------------------------------------------------------------------
-- Concatenation
-- ---------------------------------------------------------------------------

namespace BitField

def bits (f : BitField) : Nat := f.value % 2 ^ f.width

theorem bits_lt (f : BitField) : f.bits < 2 ^ f.width := Nat.mod_lt _ (Nat.two_pow_pos _)

theorem bits_eq {f : BitField} (h : f.value < 2 ^ f.width) : f.bits = f.value :=
  Nat.mod_eq_of_lt h

@[simp] theorem totalWidth_nil : totalWidth [] = 0 := rfl

@[simp] theorem totalWidth_cons (f : BitField) (fs : List BitField) :
    totalWidth (f :: fs) = f.width + totalWidth fs := rfl

@[simp] theorem totalWidth_append (fs gs : List BitField) :
    totalWidth (fs ++ gs) = totalWidth fs + totalWidth gs := by
  induction fs with
  | nil => simp
  | cons f fs ih => simp [ih, Nat.add_assoc]

theorem totalWidth_flatMap {fields : α → List BitField} {w : Nat} {l : List α}
    (h : ∀ a ∈ l, totalWidth (fields a) = w) : totalWidth (l.flatMap fields) = l.length * w := by
  induction l with
  | nil => simp
  | cons a rest ih =>
    rw [List.flatMap_cons, totalWidth_append, h a List.mem_cons_self,
      ih fun b hb => h b (List.mem_cons_of_mem _ hb), List.length_cons]
    ring

@[simp] theorem concat_nil : concat [] = 0 := rfl

theorem foldl_concat (n : Nat) (fs : List BitField) :
    fs.foldl (fun n f => n * Nat.pow 2 f.width + f.value % Nat.pow 2 f.width) n =
      n * 2 ^ totalWidth fs + concat fs := by
  induction fs generalizing n with
  | nil => simp
  | cons f fs ih =>
    simp only [concat, List.foldl_cons] at ih ⊢
    rw [ih, ih (0 * _ + _), totalWidth_cons, Nat.pow_add, Nat.pow_eq]
    ring

theorem concat_cons (f : BitField) (fs : List BitField) :
    concat (f :: fs) = f.bits * 2 ^ totalWidth fs + concat fs := by
  have h : concat (f :: fs) = fs.foldl _ (0 * Nat.pow 2 f.width + f.value % Nat.pow 2 f.width) := rfl
  rw [h, foldl_concat, Nat.zero_mul, Nat.zero_add]
  rfl

theorem concat_append (fs gs : List BitField) :
    concat (fs ++ gs) = concat fs * 2 ^ totalWidth gs + concat gs := by
  induction fs with
  | nil => simp
  | cons f fs ih =>
    rw [List.cons_append, concat_cons, concat_cons, ih, totalWidth_append, Nat.pow_add]
    ring

theorem concat_lt (fs : List BitField) : concat fs < 2 ^ totalWidth fs := by
  induction fs with
  | nil => simp
  | cons f fs ih =>
    rw [concat_cons, totalWidth_cons, Nat.pow_add]
    calc f.bits * 2 ^ totalWidth fs + concat fs
        < f.bits * 2 ^ totalWidth fs + 2 ^ totalWidth fs := by omega
      _ = (f.bits + 1) * 2 ^ totalWidth fs := by ring
      _ ≤ 2 ^ f.width * 2 ^ totalWidth fs := Nat.mul_le_mul_right _ f.bits_lt

@[simp] theorem bits_ones (n : Nat) : (ones n).bits = 2 ^ n - 1 := by
  have := Nat.two_pow_pos n
  exact Nat.mod_eq_of_lt (show 2 ^ n - 1 < 2 ^ n by omega)

@[simp] theorem bits_flag (b : Bool) : (flag b).bits = b.toNat := by cases b <;> rfl

@[simp] theorem width_flag (b : Bool) : (flag b).width = 1 := rfl

@[simp] theorem width_ones (n : Nat) : (ones n).width = n := rfl

@[simp] theorem width_ofInt (v : Int) (n : Nat) : (ofInt v n).width = n := rfl

theorem bits_ofInt {v : Int} {n : Nat} (h0 : 0 ≤ v) (hn : v < 2 ^ n) :
    ((ofInt v n).bits : Int) = v := by
  have hv : v % (2 ^ n : Int) = v := Int.emod_eq_of_lt h0 hn
  have hlt : v.toNat < 2 ^ n := (Int.toNat_lt h0).mpr (by exact_mod_cast hn)
  simp only [bits, ofInt, Nat.pow_eq, Nat.cast_pow, Nat.cast_ofNat, hv]
  rw [Nat.mod_eq_of_lt hlt, Int.toNat_of_nonneg h0]

theorem bmod_bits_ofInt (v : Int) (n : Nat) :
    ((ofInt v n).bits : Int).bmod (Nat.pow 2 n) = v.bmod (Nat.pow 2 n) := by
  have hpos : (0 : Int) < ((2 ^ n : Nat) : Int) := by exact_mod_cast Nat.two_pow_pos n
  have h0 := Int.emod_nonneg v (Int.ne_of_gt hpos)
  have hbits : ((ofInt v n).bits : Int) = v % ((2 ^ n : Nat) : Int) := by
    simp only [bits, ofInt, Nat.pow_eq]
    rw [Int.natCast_emod, Int.toNat_of_nonneg h0, Int.emod_emod]
  rw [hbits, Nat.pow_eq, Int.emod_bmod]

theorem concat_cons_eq_ones {f : BitField} {fs : List BitField} :
    concat (f :: fs) = 2 ^ totalWidth (f :: fs) - 1 ↔
      f.bits = 2 ^ f.width - 1 ∧ concat fs = 2 ^ totalWidth fs - 1 := by
  rw [concat_cons, totalWidth_cons, Nat.pow_add]
  have hf := f.bits_lt
  have hfs := concat_lt fs
  have hexpand (n : Nat) : (n + 1) * 2 ^ totalWidth fs = n * 2 ^ totalWidth fs + 2 ^ totalWidth fs := by
    ring
  have hle := Nat.mul_le_mul_right (2 ^ totalWidth fs) (Nat.succ_le_of_lt hf)
  rw [Nat.succ_eq_add_one, hexpand] at hle
  constructor
  · intro h
    have htop : f.bits = 2 ^ f.width - 1 := by
      by_contra hne
      have hlt := Nat.mul_le_mul_right (2 ^ totalWidth fs) (show f.bits + 1 + 1 ≤ 2 ^ f.width by omega)
      rw [hexpand, hexpand] at hlt
      omega
    have hw : 2 ^ f.width = f.bits + 1 := by omega
    rw [hw, hexpand] at h
    exact ⟨htop, by omega⟩
  · rintro ⟨htop, hrest⟩
    have hw : 2 ^ f.width = f.bits + 1 := by omega
    rw [hw, hexpand]
    omega

theorem concat_eq_ones {fs : List BitField} :
    concat fs = 2 ^ totalWidth fs - 1 ↔ ∀ f ∈ fs, f.bits = 2 ^ f.width - 1 := by
  induction fs with
  | nil => simp
  | cons f fs ih => rw [concat_cons_eq_ones, ih, List.forall_mem_cons]

end BitField

-- ---------------------------------------------------------------------------
-- Words
-- ---------------------------------------------------------------------------

open BitField

namespace Word

theorem toNat_ofFields {fs : List BitField} (h : totalWidth fs ≤ 64) :
    (ofFields fs).toNat = concat fs := by
  have hlt : concat fs < 2 ^ 64 :=
    Nat.lt_of_lt_of_le (concat_lt fs) (Nat.pow_le_pow_right (by decide) h)
  simpa [ofFields] using hlt

/-- Below bit `pos` the word consists of the given fields. -/
structure Holds (w : Word) (pos : Nat) (fs : List BitField) : Prop where
  width : totalWidth fs = pos
  bits : w.toNat % 2 ^ pos = concat fs

theorem holds_ofFields {fs : List BitField} (h : totalWidth fs = 64) : (ofFields fs).Holds 64 fs := by
  refine ⟨h, ?_⟩
  rw [toNat_ofFields (Nat.le_of_eq h)]
  exact Nat.mod_eq_of_lt (h ▸ concat_lt fs)

namespace Holds
variable {w : Word} {pos : Nat} {f : BitField} {fs gs : List BitField}

theorem drop (h : w.Holds pos (fs ++ gs)) : w.Holds (pos - totalWidth fs) gs := by
  have hw := h.width
  rw [totalWidth_append] at hw
  have hpos : pos - totalWidth fs = totalWidth gs := by omega
  refine ⟨hpos.symm, ?_⟩
  have hdvd : 2 ^ (pos - totalWidth fs) ∣ 2 ^ pos := Nat.pow_dvd_pow 2 (Nat.sub_le _ _)
  rw [← Nat.mod_mod_of_dvd w.toNat hdvd, h.bits, concat_append, hpos, Nat.mul_comm,
    Nat.mul_add_mod, Nat.mod_eq_of_lt (concat_lt gs)]

theorem tail (h : w.Holds pos (f :: fs)) : w.Holds (pos - f.width) fs := by
  have h' : w.Holds pos ([f] ++ fs) := h
  simpa using h'.drop

theorem width_le (h : w.Holds pos (f :: fs)) : f.width ≤ pos := by
  have := h.width
  rw [totalWidth_cons] at this
  omega

theorem div_mod (h : w.Holds pos (f :: fs)) :
    w.toNat / 2 ^ (pos - f.width) % 2 ^ f.width = f.bits := by
  have hw := h.width
  rw [totalWidth_cons] at hw
  have hpos : pos - f.width = totalWidth fs := by omega
  have hb := h.bits
  rw [← hw, Nat.add_comm, Nat.pow_add, concat_cons] at hb
  rw [hpos, ← Nat.mod_mul_right_div_self, hb, Nat.mul_comm f.bits,
    Nat.mul_add_div (Nat.two_pow_pos _), Nat.div_eq_of_lt (concat_lt fs), Nat.add_zero]

theorem next_eq (h : w.Holds pos (f :: fs)) : w.next pos f.width = .ok (f.bits, pos - f.width) := by
  have hle := h.width_le
  simp only [next, Nat.not_lt.mpr hle, if_false, Nat.pow_eq, h.div_mod]

theorem isPadding_iff (h : w.Holds pos fs) :
    w.isPadding pos = true ↔ ∀ f ∈ fs, f.bits = 2 ^ f.width - 1 := by
  rw [← concat_eq_ones, ← h.bits, h.width]
  simp only [isPadding, Nat.pow_eq, beq_iff_eq]

theorem isPadding_ones {n : Nat} (h : w.Holds pos [ones n]) : w.isPadding pos = true := by
  rw [h.isPadding_iff]
  simp

end Holds

theorem isLast_of_holds {w : Word} {b : Bool} {fs : List BitField} (h : w.Holds 64 (flag b :: fs)) :
    w.isLast = b := by
  have hd := h.div_mod
  have hlt : w.toNat < 2 ^ 64 := w.toNat_lt
  simp only [width_flag, bits_flag] at hd
  have hq : w.toNat / Nat.pow 2 63 = b.toNat := by
    have : w.toNat / 2 ^ 63 < 2 := by omega
    rw [Nat.pow_eq]
    omega
  rw [isLast, hq]
  cases b <;> rfl

theorem opcode_of_holds {w : Word} {code : Nat} {fs : List BitField}
    (h : w.Holds 63 (⟨code, 3⟩ :: fs)) (hc : code < 8) : w.opcode = code := by
  have hd := h.div_mod
  rw [bits_eq (show code < 2 ^ 3 from hc)] at hd
  exact hd

theorem testBit_of_holds {w : Word} {pos : Nat} {b : Bool} {fs : List BitField}
    (h : w.Holds (pos + 1) (flag b :: fs)) : w.toNat.testBit pos = b := by
  have hd := h.div_mod
  simp only [width_flag, bits_flag, Nat.add_sub_cancel, Nat.pow_one] at hd
  rw [Nat.testBit_eq_decide_div_mod_eq, hd]
  cases b <;> rfl

end Word
end Sequencer
