import Sequencer.Circuit.Document
import Sequencer.Proofs.Json.Texts

/-!
# Spellings of numbers

Integers and finite numbers are written as JSON spells numbers, whatever the
layout of the latter: no superfluous zero in front, digits after a point, and
a sign and digits in a power of ten.
-/

namespace Sequencer

open Decimal Json

def SpelledAsNumber (cs : List Char) : Prop := ∃ s : Spelling, cs = s.chars

theorem isDigit_of_mem_zeros {n : Nat} {c : Char} (h : c ∈ (zeros n).toList) : c.isDigit = true := by
  rw [zeros, String.toList_ofList] at h
  rw [(List.mem_replicate.mp h).2]
  rfl

theorem spelled_int (n : Int) : SpelledAsNumber (toString n).toList := by
  refine ⟨⟨decide (n < 0), Nat.toDigits 10 n.natAbs, [], none, Nat.toDigits_ne_nil,
    fun _ => isDigit_numeral, ?_, nofun, nofun, nofun⟩, ?_⟩
  · by_cases hn : n = 0
    · exact .inl (by simp [hn])
    · exact .inr (head?_numeral (by omega))
  · rw [toList_toString_int]
    simp [Spelling.chars, Spelling.fractionChars, Spelling.powerChars]

theorem toList_withPoint (whole fraction : String) :
    (withPoint whole fraction).toList =
      whole.toList ++ if fraction.toList = [] then [] else '.' :: fraction.toList := by
  simp only [withPoint, String.isEmpty_iff, String.toList_eq_nil_iff]
  split
  · simp_all
  · simp

section
variable {coefficient : Nat} (h : 0 < coefficient)
include h

theorem spelled_scientific (exponentDigits : Nat) (x : Int) :
    ∃ s : Spelling, s.negative = false ∧
      (scientific exponentDigits (toString coefficient) x).toList = s.chars := by
  obtain ⟨c, rest, hdigits, hc⟩ := exists_numeral_cons h
  have hall : ∀ d ∈ c :: rest, d.isDigit = true := fun d hd => isDigit_numeral (hdigits ▸ hd)
  refine ⟨⟨false, [c], rest, some (decide (x < 0),
      (zeros (exponentDigits - (toString x.natAbs).length)).toList ++ Nat.toDigits 10 x.natAbs),
    List.cons_ne_nil c [], ?_, ?_, ?_, ?_, ?_⟩, rfl, ?_⟩
  · simpa using hall c List.mem_cons_self
  · exact .inr (by simpa using hc)
  · exact fun d hd => hall d (List.mem_cons_of_mem c hd)
  · simp [Nat.toDigits_ne_nil]
  · rintro p ⟨⟩ d hd
    rcases List.mem_append.mp hd with hd | hd
    · exact isDigit_of_mem_zeros hd
    · exact isDigit_numeral hd
  · simp only [scientific, toList_toString, hdigits, String.toList_append, toList_withPoint,
      Spelling.chars, Spelling.fractionChars, Spelling.powerChars]
    by_cases hx : x < 0 <;> by_cases hr : rest = [] <;> simp [hx, hr]

theorem spelled_positional (x : Int) :
    ∃ s : Spelling, s.negative = false ∧ (positional (toString coefficient) x).toList = s.chars := by
  obtain ⟨c, rest, hdigits, hc⟩ := exists_numeral_cons h
  have hall : ∀ d ∈ c :: rest, d.isDigit = true := fun d hd => isDigit_numeral (hdigits ▸ hd)
  by_cases hx : x < 0
  · refine ⟨⟨false, ['0'], (zeros (-x - 1).toNat).toList ++ c :: rest, none, List.cons_ne_nil _ _,
      by simp, .inl rfl, ?_, nofun, nofun⟩, rfl, ?_⟩
    · intro d hd
      rcases List.mem_append.mp hd with hd | hd
      · exact isDigit_of_mem_zeros hd
      · exact hall d hd
    · simp [positional, hx, hdigits, Spelling.chars, Spelling.fractionChars,
        Spelling.powerChars]
  · refine ⟨⟨false, c :: (rest.take x.toNat ++ (zeros (x.toNat + 1 - (c :: rest).length)).toList),
      rest.drop x.toNat, none, List.cons_ne_nil _ _, ?_, ?_, ?_, nofun, nofun⟩, rfl, ?_⟩
    · intro d hd
      rcases List.mem_cons.mp hd with rfl | hd
      · exact hall d List.mem_cons_self
      · rcases List.mem_append.mp hd with hd | hd
        · exact hall d (List.mem_cons_of_mem c (List.mem_of_mem_take hd))
        · exact isDigit_of_mem_zeros hd
    · exact .inr (by simpa using hc)
    · exact fun d hd => hall d (List.mem_cons_of_mem c (List.mem_of_mem_drop hd))
    · simp only [positional, hx, ↓reduceIte, toList_toString, hdigits, toList_withPoint, Spelling.chars,
        Spelling.fractionChars, Spelling.powerChars]
      simp

end

theorem spelled_digits (layout : Decimal.Layout) (d : Digits) :
    ∃ s : Spelling, s.negative = false ∧ (d.text layout).toList = s.chars := by
  by_cases hzero : d.coefficient = 0
  · exact ⟨⟨false, ['0'], [], none, by simp, by simp, .inl rfl, nofun, nofun, nofun⟩, rfl,
      by simp [Digits.text, hzero, Spelling.chars, Spelling.fractionChars, Spelling.powerChars]⟩
  · have hpos : 0 < d.coefficient := by omega
    simp only [Digits.text, hzero, ↓reduceIte]
    split
    · exact spelled_scientific hpos _ _
    · exact spelled_positional hpos _

theorem spelled_signed {text : String} (negative : Bool) {s : Spelling} (hs : s.negative = false)
    (h : text.toList = s.chars) : SpelledAsNumber (signed negative text).toList := by
  cases negative with
  | false => exact ⟨s, h⟩
  | true => exact ⟨{ s with negative := true }, by
      simp [signed, h, hs, Spelling.chars, Spelling.fractionChars, Spelling.powerChars]⟩

/-- A number whose text can be read is finite, so its text is that of a JSON
number. -/
theorem spelled_float {layout : Decimal.Layout} {x : Float} (h : readFloat (Decimal.text layout x) = .ok x) :
    SpelledAsNumber (Decimal.text layout x).toList := by
  have hword {word : String} (hnone : (readLiteral? word.toList).isNone = true) :
      readFloat word ≠ .ok x := by
    rw [Option.isNone_iff_eq_none] at hnone
    simp [readFloat, hnone]
  unfold Decimal.text at h ⊢
  cases hx : Binary.ofFloat x with
  | nan =>
    simp only [hx] at h
    exact absurd h (hword (by decide +kernel))
  | infinite negative =>
    simp only [hx] at h
    cases negative with
    | true => exact absurd h (hword (by decide +kernel))
    | false => exact absurd h (hword (by decide +kernel))
  | finite negative m q =>
    obtain ⟨s, hs, hchars⟩ := spelled_digits layout (shortest m q)
    exact spelled_signed negative hs hchars

end Sequencer
