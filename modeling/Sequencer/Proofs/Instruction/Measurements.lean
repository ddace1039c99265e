import Sequencer.Instruction.MeasurementBuffer
import Sequencer.Proofs.Chunks
import Sequencer.Proofs.Instruction.BitFields

/-!
# Batches of measurements

The words of a batch are the chunks of its qubits, in the order in which they
were added. The newest word is built up from its top, bits below the last field
still clear; closing it sets them.
-/

namespace Sequencer

open BitField

-- ---------------------------------------------------------------------------
-- Words of measured qubits
-- ---------------------------------------------------------------------------

def measuredHead (w : Nat) (last : Bool) (qubits : List Nat) : List BitField :=
  .flag last :: ⟨Category.measurement.code, 3⟩ :: qubits.map fun q => ⟨q, w⟩

def measuredRoom (w : Nat) (qubits : List Nat) : Nat := headerRoom - qubits.length * w

@[simp] theorem measuredRoom_nil (w : Nat) : measuredRoom w [] = headerRoom := by
  simp [measuredRoom]

def measuredWord (w : Nat) (last : Bool) (qubits : List Nat) : Word :=
  Word.ofFields (measuredHead w last qubits ++ [.ones (measuredRoom w qubits)])

def openWord (w : Nat) (qubits : List Nat) : Word :=
  Word.ofFields (measuredHead w false qubits ++ [⟨0, measuredRoom w qubits⟩])

theorem totalWidth_fields (w : Nat) (qubits : List Nat) :
    totalWidth (qubits.map fun q => ⟨q, w⟩) = qubits.length * w := by
  induction qubits with
  | nil => simp
  | cons q rest ih =>
    rw [List.map_cons, totalWidth_cons, ih, List.length_cons]
    ring

theorem totalWidth_measuredHead {w : Nat} {qubits : List Nat} (fits : qubits.length * w ≤ headerRoom)
    (last : Bool) : totalWidth (measuredHead w last qubits) + measuredRoom w qubits = 64 := by
  simp only [measuredHead, totalWidth_cons, width_flag, totalWidth_fields, measuredRoom, headerRoom]
    at fits ⊢
  omega

theorem holds_measuredWord {w : Nat} {qubits : List Nat} (fits : qubits.length * w ≤ headerRoom)
    (last : Bool) : (measuredWord w last qubits).Holds 64
      (measuredHead w last qubits ++ [ones (measuredRoom w qubits)]) :=
  Word.holds_ofFields (by simpa using totalWidth_measuredHead fits last)

/-- Setting clear low bits of a word replaces its last field. -/
theorem ofFields_or (fs gs : List BitField) (h : totalWidth fs + totalWidth gs = 64) :
    Word.ofFields (fs ++ [⟨0, totalWidth gs⟩]) ||| UInt64.ofNat (concat gs) =
      Word.ofFields (fs ++ gs) := by
  have hg := concat_lt gs
  have hg64 : concat gs < 2 ^ 64 :=
    Nat.lt_of_lt_of_le hg (Nat.pow_le_pow_right (by decide) (by omega))
  have hclear : concat [⟨0, totalWidth gs⟩] = 0 := by simp [concat_cons, bits]
  refine UInt64.toNat_inj.mp ?_
  rw [UInt64.toNat_or, Word.toNat_ofFields (by simp; omega), Word.toNat_ofFields (by simp; omega),
    UInt64.toNat_ofNat_of_lt' hg64, concat_append, concat_append, hclear, totalWidth_cons,
    totalWidth_nil, Nat.add_zero, Nat.add_zero, Nat.mul_comm, ← Nat.two_pow_add_eq_or_of_lt hg]

theorem ofFields_or_lastFlag {fs : List BitField} (h : totalWidth fs = 63) :
    Word.ofFields (.flag false :: fs) ||| Word.lastFlag = Word.ofFields (.flag true :: fs) := by
  have hlt : concat fs < 2 ^ 63 := h ▸ concat_lt fs
  have hflag : Word.lastFlag.toNat = 2 ^ 63 * 1 := rfl
  refine UInt64.toNat_inj.mp ?_
  rw [UInt64.toNat_or, Word.toNat_ofFields (by simp; omega), Word.toNat_ofFields (by simp; omega),
    hflag, concat_cons, concat_cons, h, bits_flag, bits_flag, Nat.or_comm]
  simp only [Bool.toNat_false, Nat.zero_mul, Nat.zero_add, Bool.toNat_true, Nat.one_mul]
  rw [← Nat.two_pow_add_eq_or_of_lt hlt, Nat.mul_one]

theorem openWord_pad {w : Nat} {qubits : List Nat} (fits : qubits.length * w ≤ headerRoom) :
    openWord w qubits ||| UInt64.ofNat (Nat.pow 2 (measuredRoom w qubits) - 1) =
      measuredWord w false qubits := by
  have hones : concat [ones (measuredRoom w qubits)] = Nat.pow 2 (measuredRoom w qubits) - 1 := by
    simp [concat_cons]
  rw [← hones]
  exact ofFields_or _ [ones (measuredRoom w qubits)]
    (by simpa using totalWidth_measuredHead fits false)

theorem measuredWord_flag {w : Nat} {qubits : List Nat} (fits : qubits.length * w ≤ headerRoom) :
    measuredWord w false qubits ||| Word.lastFlag = measuredWord w true qubits := by
  have h := totalWidth_measuredHead fits false
  simp only [measuredWord, measuredHead, List.cons_append]
  refine ofFields_or_lastFlag ?_
  simp only [measuredHead, totalWidth_cons, width_flag, totalWidth_append, totalWidth_nil,
    width_ones] at h ⊢
  omega

theorem openWord_add {w : Nat} (qubits : List Nat) {q : Nat} (hq : q < 2 ^ w)
    (fits : (qubits.length + 1) * w ≤ headerRoom) :
    openWord w qubits ||| UInt64.ofNat (q * 2 ^ measuredRoom w (qubits ++ [q])) =
      openWord w (qubits ++ [q]) := by
  rw [Nat.succ_mul] at fits
  have hroom : measuredRoom w qubits = w + measuredRoom w (qubits ++ [q]) := by
    simp only [measuredRoom, List.length_append, List.length_singleton, Nat.succ_mul]
    omega
  have hfield : concat [⟨q, w⟩, ⟨0, measuredRoom w (qubits ++ [q])⟩] =
      q * 2 ^ measuredRoom w (qubits ++ [q]) := by
    simp [concat_cons, bits, Nat.mod_eq_of_lt hq]
  have hfits : qubits.length * w ≤ headerRoom := by omega
  have h := ofFields_or (measuredHead w false qubits) [⟨q, w⟩, ⟨0, measuredRoom w (qubits ++ [q])⟩]
    (by simpa [hroom] using totalWidth_measuredHead hfits false)
  rw [hfield] at h
  simpa [openWord, measuredHead, hroom] using h

@[simp] theorem openWord_nil (w : Nat) : openWord w [] = Word.header .measurement := by
  simp only [openWord, measuredHead, measuredRoom_nil, List.map_nil]
  rfl

-- ---------------------------------------------------------------------------
-- The buffer
-- ---------------------------------------------------------------------------

def fieldsPerWord (w : Nat) : Nat := headerRoom / w

theorem fieldsPerWord_mul_le (w : Nat) : fieldsPerWord w * w ≤ headerRoom := Nat.div_mul_le_self _ _

theorem length_mul_le {w : Nat} {qubits : List Nat} (h : qubits.length ≤ fieldsPerWord w) :
    qubits.length * w ≤ headerRoom :=
  Nat.le_trans (Nat.mul_le_mul_right w h) (fieldsPerWord_mul_le w)

def batchWords (w : Nat) (qubits : List Nat) : List Word :=
  (chunks (fieldsPerWord w) qubits).map (measuredWord w false)

namespace MeasurementBuffer

/-- The buffer holds a batch of qubits, the last of them measured at `t`. -/
inductive Holds (w : Nat) : MeasurementBuffer → List Nat → Int → Prop
  | flushed (room : Int) : Holds w ⟨w, [], false, room, 0⟩ [] 0
  | filled {full : List (List Nat)} {newest : List Nat} (t : Int)
      (full_length : ∀ piece ∈ full, piece.length = fieldsPerWord w)
      (newest_ne : newest ≠ []) (newest_length : newest.length ≤ fieldsPerWord w) :
      Holds w ⟨w, openWord w newest :: (full.map (measuredWord w false)).reverse, true,
        measuredRoom w newest, t⟩ (full.flatten ++ newest) t

theorem Holds.isFlushed_iff (h : Holds w b qubits t) : b.isFlushed = true ↔ qubits = [] := by
  cases h with
  | flushed room => simp [isFlushed]
  | filled t _ hne _ => simp [isFlushed, hne]

theorem fieldBits_eq {w room q : Nat} (hw : w ≤ headerRoom) (hq : q < 2 ^ w)
    (hroom : w + room ≤ headerRoom) : fieldBits w room q = .ok (q * 2 ^ room) := by
  simp only [headerRoom] at hw hroom
  have h60 : q * 2 ^ room < 2 ^ 64 := by
    calc q * 2 ^ room < 2 ^ w * 2 ^ room := Nat.mul_lt_mul_of_pos_right hq (Nat.two_pow_pos _)
      _ = 2 ^ (w + room) := (Nat.pow_add 2 w room).symm
      _ ≤ 2 ^ 64 := Nat.pow_le_pow_right (by decide) (by omega)
  have hq64 : q < 2 ^ 64 := Nat.lt_of_lt_of_le hq (Nat.pow_le_pow_right (by decide) (by omega))
  have hmask : 2 ^ w - 1 + 1 = 2 ^ w := Nat.sub_add_cancel (Nat.two_pow_pos w)
  have hvalue : ((q : Int) % ((Nat.pow 2 64 : Nat) : Int)).toNat = q := by
    rw [← Int.natCast_emod, Int.toNat_natCast, Nat.pow_eq, Nat.mod_eq_of_lt hq64]
  have h0 : ¬ (w : Int) < 0 := by omega
  have h64 : ¬ (64 : Int) ≤ w := by omega
  have hr0 : ¬ (room : Int) < 0 := by omega
  have hr64 : ¬ (64 : Int) ≤ room := by omega
  simp only [fieldBits, lowOnes, h0, h64, hr0, hr64, if_false, Int.toNat_natCast, hvalue, bind,
    Except.bind, pure, Except.pure, hmask, Nat.mod_eq_of_lt hq, Nat.pow_eq, Nat.mod_eq_of_lt h60]

theorem pad_eq {w : Nat} {newest : List Nat} (h : newest.length ≤ fieldsPerWord w) (rest : List Word)
    (t : Int) :
    pad ⟨w, openWord w newest :: rest, true, measuredRoom w newest, t⟩ =
      (⟨w, measuredWord w false newest :: rest, false, measuredRoom w newest, t⟩, none) := by
  have h64 : ¬ (64 : Int) ≤ measuredRoom w newest := by
    simp only [measuredRoom, headerRoom]
    omega
  have h0 : ¬ (measuredRoom w newest : Int) < 0 := by omega
  simp only [pad, Bool.not_true, Bool.false_eq_true, if_false, lowOnes, h0, h64, Int.toNat_natCast,
    setBits, openWord_pad (length_mul_le h)]

theorem Holds.makeRoom (h : Holds w b qubits t) (hw : 0 < w) (hw60 : w ≤ headerRoom) :
    ∃ (full : List (List Nat)) (newest : List Nat), (∀ piece ∈ full, piece.length = fieldsPerWord w) ∧
      newest.length < fieldsPerWord w ∧ qubits = full.flatten ++ newest ∧
      b.makeRoom = (⟨w, openWord w newest :: (full.map (measuredWord w false)).reverse, true,
        measuredRoom w newest, t⟩, none) := by
  have hper : 0 < fieldsPerWord w := Nat.div_pos hw60 hw
  cases h with
  | flushed room =>
    exact ⟨[], [], by simp, hper, rfl, by simp [MeasurementBuffer.makeRoom, pad]⟩
  | @filled full newest _ hfull hne hlen =>
    by_cases hroom : w ≤ measuredRoom w newest
    · have hlt : newest.length < fieldsPerWord w := by
        refine (Nat.le_div_iff_mul_le hw).mpr ?_
        simp only [measuredRoom, Nat.succ_mul] at hroom ⊢
        omega
      exact ⟨full, newest, hfull, hlt, rfl, by simp [MeasurementBuffer.makeRoom, hroom]⟩
    · have hnewest : newest.length = fieldsPerWord w := by
        refine Nat.le_antisymm hlen (Nat.lt_succ_iff.mp ?_)
        refine (Nat.div_lt_iff_lt_mul hw).mpr ?_
        have := length_mul_le hlen
        simp only [measuredRoom, Nat.succ_mul] at hroom ⊢
        omega
      refine ⟨full ++ [newest], [], ?_, hper, by simp, ?_⟩
      · intro piece hp
        rcases List.mem_append.mp hp with hp | hp
        · exact hfull piece hp
        · rw [List.mem_singleton.mp hp, hnewest]
      · simp [MeasurementBuffer.makeRoom, hroom, pad_eq hlen]

theorem Holds.add (h : Holds w b qubits s) (hw : 0 < w) (hw60 : w ≤ headerRoom) {q : Nat}
    (hq : q < 2 ^ w) (t : Int) :
    ∃ b', b.add q t = (b', none) ∧ Holds w b' (qubits ++ [q]) (max s t) := by
  obtain ⟨full, newest, hfull, hlt, rfl, hroom⟩ := h.makeRoom hw hw60
  have hsum : w + measuredRoom w (newest ++ [q]) = measuredRoom w newest := by
    have := (Nat.le_div_iff_mul_le hw).mp hlt
    simp only [measuredRoom, List.length_append, List.length_singleton, Nat.succ_mul] at this ⊢
    omega
  have hle : measuredRoom w newest ≤ headerRoom := Nat.sub_le _ _
  have hwrap : Integer.wrap (measuredRoom w newest - w) = measuredRoom w (newest ++ [q]) := by
    simp only [headerRoom] at hle
    rw [Integer.wrap_of_lt (by unfold Integer.bound; omega) (by unfold Integer.bound; omega)]
    omega
  have hadd := openWord_add newest hq ((Nat.le_div_iff_mul_le hw).mp hlt)
  refine ⟨⟨w, openWord w (newest ++ [q]) :: (full.map (measuredWord w false)).reverse, true,
    measuredRoom w (newest ++ [q]), max s t⟩, ?_, ?_⟩
  · simp only [MeasurementBuffer.add, hroom, hwrap, fieldBits_eq hw60 hq (hsum ▸ hle), setBits, hadd]
  · rw [List.append_assoc]
    exact .filled _ hfull (by simp) (by simpa using Nat.succ_le_of_lt hlt)

theorem Holds.add_wide (h : Holds w b qubits s) (hw : headerRoom < w) (hw64 : w ≤ 64) (q t : Int) :
    (b.add q t).2 ≠ none := by
  have hper : fieldsPerWord w = 0 := Nat.div_eq_of_lt hw
  simp only [headerRoom] at hw
  cases h with
  | filled _ _ hne hlen =>
    have := List.length_pos_iff.mpr hne
    omega
  | flushed room =>
    have hwrap : Integer.wrap ((headerRoom : Int) - w) < 0 := by
      simp only [headerRoom]
      rw [Integer.wrap_of_lt (by unfold Integer.bound; omega) (by unfold Integer.bound; omega)]
      omega
    have hbits : fieldBits w (Integer.wrap ((headerRoom : Int) - w)) q = .error .outOfRange := by
      have h0 : ¬ (w : Int) < 0 := by omega
      simp only [fieldBits, lowOnes, h0, if_false, hwrap, if_true]
      split <;> rfl
    simp [MeasurementBuffer.add, MeasurementBuffer.makeRoom, pad, hbits]

theorem Holds.batchWords_ne_nil (h : Holds w b qubits t) (hne : qubits ≠ []) :
    batchWords w qubits ≠ [] := by
  cases h with
  | flushed room => exact absurd rfl hne
  | filled _ hfull hnewest hlen => simp [batchWords, chunks_flatten_append hfull hnewest hlen]

theorem Holds.close (h : Holds w b qubits t) (hne : qubits ≠ []) :
    ∃ b', b.close = .ok (batchWords w qubits, t, b') ∧ Holds w b' [] 0 := by
  cases h with
  | flushed room => exact absurd rfl hne
  | @filled full newest _ hfull hnewest hlen =>
    refine ⟨⟨w, [], false, measuredRoom w newest, 0⟩, ?_, .flushed _⟩
    simp [MeasurementBuffer.close, pad_eq hlen, words, batchWords,
      chunks_flatten_append hfull hnewest hlen]

end MeasurementBuffer
end Sequencer
