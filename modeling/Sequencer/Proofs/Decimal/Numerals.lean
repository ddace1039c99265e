import Mathlib.Algebra.Group.Nat.Defs
import Mathlib.Data.List.Basic
import Sequencer.Decimal.Reader
import Sequencer.Integer
import Sequencer.Proofs.Checked

/-!
# Decimal numerals

A number written in base ten is read back as itself, within the range of the
reader. Numerals have no superfluous zero in front, so the reader that takes
the base from the first characters reads them in base ten too.
-/

namespace Sequencer.Decimal

-- ---------------------------------------------------------------------------
-- Runs of digits
-- ---------------------------------------------------------------------------

/-- What follows a run of characters cannot prolong it. -/
def StopsAt (p : Char → Bool) (rest : List Char) : Prop := ∀ c ∈ rest.head?, p c = false

theorem StopsAt.nil (p : Char → Bool) : StopsAt p [] := nofun

theorem StopsAt.cons {p : Char → Bool} {c : Char} (h : p c = false) (rest : List Char) :
    StopsAt p (c :: rest) := by
  simpa [StopsAt] using h

theorem takeWhile_append_stop {p : Char → Bool} {run rest : List Char} (hrun : ∀ c ∈ run, p c = true)
    (hrest : StopsAt p rest) : (run ++ rest).takeWhile p = run := by
  rw [List.takeWhile_append_of_pos hrun]
  cases rest with
  | nil => simp
  | cons c rest => simp [hrest c rfl]

theorem dropWhile_append_stop {p : Char → Bool} {run rest : List Char} (hrun : ∀ c ∈ run, p c = true)
    (hrest : StopsAt p rest) : (run ++ rest).dropWhile p = rest := by
  rw [List.dropWhile_append_of_pos hrun]
  cases rest with
  | nil => simp
  | cons c rest => simp [hrest c rfl]

theorem spanDigits_append {digits rest : List Char} (hdigits : ∀ c ∈ digits, c.isDigit = true)
    (hrest : StopsAt Char.isDigit rest) : spanDigits (digits ++ rest) = (digits, rest) := by
  rw [spanDigits, takeWhile_append_stop hdigits hrest, dropWhile_append_stop hdigits hrest]

-- ---------------------------------------------------------------------------
-- Numerals
-- ---------------------------------------------------------------------------

theorem isDigit_numeral {n : Nat} {c : Char} (h : c ∈ Nat.toDigits 10 n) : c.isDigit = true :=
  Nat.isDigit_of_mem_toDigits (by decide) (by decide) h

theorem toList_toString (n : Nat) : (toString n).toList = Nat.toDigits 10 n := by
  rw [Nat.toString_eq_ofList_toDigits, String.toList_ofList]

theorem toList_toString_int (n : Int) :
    (toString n).toList = (if n < 0 then ['-'] else []) ++ Nat.toDigits 10 n.natAbs := by
  rw [Int.toString_eq_repr, Int.repr_eq_if]
  by_cases h : 0 ≤ n
  · have hneg : ¬ n < 0 := by omega
    have habs : n.toNat = n.natAbs := by omega
    simp [h, hneg, habs, Nat.repr_eq_ofList_toDigits]
  · have hneg : n < 0 := by omega
    have habs : (-n).toNat = n.natAbs := by omega
    simp [h, hneg, habs, Nat.repr_eq_ofList_toDigits]

theorem head?_numeral {n : Nat} (h : 0 < n) : (Nat.toDigits 10 n).head? ≠ some '0' := by
  induction n using Nat.strongRecOn with
  | ind n ih =>
    rw [Nat.toDigits_eq_if (by decide)]
    split
    · rename_i hlt
      have hdigit : ∀ d < 10, 0 < d → d.digitChar ≠ '0' := by decide
      simpa using hdigit n hlt h
    · rename_i hge
      rw [List.head?_append_of_ne_nil _ Nat.toDigits_ne_nil]
      exact ih (n / 10) (by omega) (by omega)

theorem exists_numeral_cons {n : Nat} (h : 0 < n) :
    ∃ c rest, Nat.toDigits 10 n = c :: rest ∧ c ≠ '0' := by
  cases hd : Nat.toDigits 10 n with
  | nil => exact absurd hd Nat.toDigits_ne_nil
  | cons c rest =>
    have := head?_numeral h
    rw [hd] at this
    exact ⟨c, rest, rfl, by simpa using this⟩

-- ---------------------------------------------------------------------------
-- Reading numerals
-- ---------------------------------------------------------------------------

theorem le_ofDigitChars (digits : List Char) (start : Nat) : start ≤ Nat.ofDigitChars 10 digits start := by
  induction digits generalizing start with
  | nil => simp [Nat.ofDigitChars_nil]
  | cons c rest ih =>
    rw [Nat.ofDigitChars_cons]
    have := ih (10 * start + (c.toNat - '0'.toNat))
    omega

theorem readDigits_eq {digits : List Char} {start : Nat} (hdigits : ∀ c ∈ digits, c.isDigit = true)
    (hbound : Nat.ofDigitChars 10 digits start < 2 ^ 64) :
    readDigits 10 start digits = .ok (Nat.ofDigitChars 10 digits start) := by
  induction digits generalizing start with
  | nil => rfl
  | cons c rest ih =>
    obtain ⟨hc, hrest⟩ := List.forall_mem_cons.mp hdigits
    rw [Nat.ofDigitChars_cons] at hbound ⊢
    have hvalue : alphaDigit? c = some (c.toNat - '0'.toNat) := by simp [alphaDigit?, hc, digitValue]
    have hten : c.toNat - '0'.toNat < 10 := by
      have := (Char.isDigit_iff_toNat.mp hc).2
      have hnine : '9'.toNat = '0'.toNat + 9 := rfl
      omega
    have hle := le_ofDigitChars rest (10 * start + (c.toNat - '0'.toNat))
    have hstep : ¬ Nat.pow 2 64 ≤ start * 10 + (c.toNat - '0'.toNat) := by
      have : Nat.pow 2 64 = 2 ^ 64 := rfl
      omega
    rw [readDigits, hvalue]
    simp only [hstep, ↓reduceIte, Nat.not_le.mpr hten]
    rw [Nat.mul_comm start 10]
    exact ih hrest hbound

theorem readDigits_numeral {n : Nat} (h : n < 2 ^ 64) : readDigits 10 0 (Nat.toDigits 10 n) = .ok n := by
  have hvalue : Nat.ofDigitChars 10 (Nat.toDigits 10 n) 0 = n := Nat.ofDigitChars_ten_toDigits
  rw [readDigits_eq (fun _ => isDigit_numeral) (by rwa [hvalue]), hvalue]

theorem splitSign_digits {digits : List Char} (h : ∀ c ∈ digits, c.isDigit = true) :
    splitSign digits = (false, digits) := by
  cases digits with
  | nil => rfl
  | cons c rest =>
    have hc : c.isDigit = true := h c List.mem_cons_self
    unfold splitSign
    split
    · rename_i heq
      cases heq
      simp at hc
    · rename_i heq
      cases heq
      simp at hc
    · rfl

theorem splitSign_numeral (n : Nat) : splitSign (Nat.toDigits 10 n) = (false, Nat.toDigits 10 n) :=
  splitSign_digits fun _ => isDigit_numeral

theorem readInt_toString {n : Int} (low : -(Integer.bound : Int) ≤ n) (high : n < Integer.bound) :
    readInt (toString n) = .ok n := by
  have hbound : Integer.bound = 2 ^ 63 := by decide
  have hpow : Nat.pow 2 63 = 2 ^ 63 := rfl
  have hsplit : splitSign (toString n).toList = (decide (n < 0), Nat.toDigits 10 n.natAbs) := by
    rw [toList_toString_int]
    by_cases hneg : n < 0
    · simp [hneg, splitSign]
    · simp [hneg, splitSign_numeral]
  have hne : (Nat.toDigits 10 n.natAbs).isEmpty = false := by simp [Nat.toDigits_ne_nil]
  simp only [readInt, hsplit, hne, Bool.false_eq_true, ↓reduceIte]
  rw [readDigits_numeral (by omega)]
  show signedRange (decide (n < 0)) n.natAbs = .ok n
  by_cases hneg : n < 0
  · rw [signedRange, decide_eq_true hneg, if_pos rfl, if_neg (by omega)]
    exact congrArg _ (by omega)
  · rw [signedRange, decide_eq_false hneg, if_neg Bool.false_ne_true, if_neg (by omega)]
    exact congrArg _ (by omega)

theorem readInt_lt {s : String} {n : Int} (h : readInt s = .ok n) : n < Integer.bound := by
  simp only [readInt] at h
  split at h
  · cases h
  · obtain ⟨m, -, h⟩ := bind_eq_ok.mp h
    have hpos : 0 < Integer.bound := by decide
    have hbound : Integer.bound = Nat.pow 2 63 := by decide
    simp only [signedRange] at h
    split at h
    · split at h
      · cases h
      · obtain rfl := Except.ok.inj h
        omega
    · split at h
      · cases h
      · obtain rfl := Except.ok.inj h
        omega

theorem ne_underscore_of_isDigit {c : Char} (h : c.isDigit = true) : c ≠ '_' := by
  rintro rfl
  simp at h

theorem withoutUnderscores_digits {digits : List Char} (h : ∀ c ∈ digits, c.isDigit = true) :
    withoutUnderscores digits = digits :=
  List.filter_eq_self.mpr fun c hc => by simpa using ne_underscore_of_isDigit (h c hc)

theorem underscoresSeparate_digits {digits : List Char} (h : ∀ c ∈ digits, c.isDigit = true)
    (p : Char → Bool) (after : Bool) : underscoresSeparate p after digits = true := by
  induction digits generalizing after with
  | nil => rfl
  | cons c rest ih =>
    obtain ⟨hc, hrest⟩ := List.forall_mem_cons.mp h
    simp [underscoresSeparate, ne_underscore_of_isDigit hc, ih hrest]

theorem readIntAnyBase_toString {n : Nat} (h : n < Integer.bound) : readIntAnyBase (toString n) = .ok (n : Int) := by
  have hbound : Integer.bound = Nat.pow 2 63 := by decide
  by_cases hn : n = 0
  · subst hn
    decide
  · obtain ⟨c, rest, hdigits, hc⟩ := exists_numeral_cons (Nat.pos_of_ne_zero hn)
    have hall : ∀ d ∈ c :: rest, d.isDigit = true := fun d hd => isDigit_numeral (hdigits ▸ hd)
    have hbase : splitBase (c :: rest) = (10, c :: rest) := by
      unfold splitBase
      split
      · rename_i heq
        exact absurd (List.cons.inj heq).1 hc
      · rename_i heq
        exact absurd (List.cons.inj heq).1 hc
      · rfl
    have hread : readDigits 10 0 (c :: rest) = .ok n := by
      rw [← hdigits]
      refine readDigits_numeral (Nat.lt_trans h ?_)
      decide
    simp only [readIntAnyBase, toList_toString, hdigits, splitSign_digits hall, hbase,
      withoutUnderscores_digits hall, hread, underscoresSeparate_digits hall]
    have hrange : signedRange false n = .ok (n : Int) := by
      rw [signedRange, if_neg Bool.false_ne_true, if_neg (by omega)]
    simpa [bind, Except.bind] using hrange

theorem readIntAnyBase_nonneg {s : String} {n : Int} (hdigits : ∀ c ∈ s.toList, c.isDigit = true)
    (h : readIntAnyBase s = .ok n) : 0 ≤ n ∧ n < Integer.bound := by
  simp only [readIntAnyBase, splitSign_digits hdigits] at h
  split at h
  · cases h
  · simp only [bind_eq_ok] at h
    obtain ⟨m, -, h⟩ := h
    split at h
    · obtain ⟨_, hthrow, _⟩ := h
    · simp only [signedRange, Bool.false_eq_true, ↓reduceIte] at h
      split at h
      · cases h
      · rename_i hlt
        obtain rfl := Except.ok.inj h
        have hbound : Integer.bound = Nat.pow 2 63 := by decide
        omega

end Sequencer.Decimal
