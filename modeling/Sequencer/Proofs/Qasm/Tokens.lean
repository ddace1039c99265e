import Mathlib.Data.List.TakeWhile
import Sequencer.Proofs.Decimal.Numerals
import Sequencer.Qasm.Token

/-!
# What the tokens of a text look like

Whatever the text, an identifier is made of letters, digits and underscores, an
integer of digits, and a number begins with a digit or a point.
-/

namespace Sequencer.Qasm

def IsIdentifier (name : String) : Prop :=
  ∃ c rest, name.toList = c :: rest ∧ isLetter c = true ∧ ∀ d ∈ rest, isLetterOrDigit d = true

instance (name : String) : Decidable (IsIdentifier name) :=
  decidable_of_iff (name.toList.head?.any isLetter = true ∧ name.toList.tail.all isLetterOrDigit = true) (by
    unfold IsIdentifier
    cases name.toList with
    | nil => simp
    | cons c rest => simp)

theorem IsIdentifier.notMem {name : String} (h : IsIdentifier name) {x : Char}
    (hx : isLetterOrDigit x = false) : x ∉ name.toList := by
  obtain ⟨c, rest, hname, hc, hrest⟩ := h
  rw [hname, List.mem_cons]
  rintro (rfl | hmem)
  · simp [isLetterOrDigit, hc] at hx
  · simp [hrest x hmem] at hx

structure Token.Lawful (t : Token) : Prop where
  identifier : t.kind = .identifier → IsIdentifier t.value
  integer : t.kind = .integer → ∀ c ∈ t.value.toList, c.isDigit = true
  number : t.kind = .decimal ∨ t.kind = .integer →
    ∃ c rest, t.value.toList = c :: rest ∧ (c.isDigit = true ∨ c = '.')

theorem isIdentifier_of_take {cs spelling rest : List Char}
    (h : takeIdentifier? cs = some (spelling, rest)) : IsIdentifier (String.ofList spelling) := by
  unfold takeIdentifier? at h
  split at h
  · cases h
  · split at h
    · rename_i c tail hc
      simp only [Option.some.injEq, Prod.mk.injEq] at h
      exact ⟨c, tail.takeWhile isLetterOrDigit, by simp [← h.1], hc, fun d hd => List.mem_takeWhile_imp hd⟩
    · cases h

theorem isDigit_of_take {cs spelling rest : List Char} (h : takeInteger? cs = some (spelling, rest)) :
    ∀ c ∈ spelling, c.isDigit = true := by
  simp only [takeInteger?] at h
  split at h
  · cases h
  · simp only [Option.some.injEq, Prod.mk.injEq] at h
    rw [← h.1]
    exact fun c hc => List.mem_takeWhile_imp hc

theorem isDigit_head_spanDigits {cs : List Char} {c : Char} {rest : List Char}
    (h : (Decimal.spanDigits cs).1 = c :: rest) : c.isDigit = true := by
  have hmem : c ∈ (Decimal.spanDigits cs).1 := h ▸ List.mem_cons_self
  exact List.mem_takeWhile_imp hmem

theorem head_of_takeInteger {cs spelling rest : List Char} (h : takeInteger? cs = some (spelling, rest)) :
    ∃ c tail, spelling = c :: tail ∧ (c.isDigit = true ∨ c = '.') := by
  simp only [takeInteger?] at h
  split at h
  · cases h
  · rename_i hne
    simp only [Option.some.injEq, Prod.mk.injEq] at h
    cases hw : (Decimal.spanDigits cs).1 with
    | nil => simp [hw] at hne
    | cons c tail => exact ⟨c, tail, by rw [← h.1, hw], .inl (isDigit_head_spanDigits hw)⟩

theorem head_of_takeDecimal {cs spelling rest : List Char} (h : takeDecimal? cs = some (spelling, rest)) :
    ∃ c tail, spelling = c :: tail ∧ (c.isDigit = true ∨ c = '.') := by
  simp only [takeDecimal?] at h
  cases hw : (Decimal.spanDigits cs).1 with
  | nil =>
    rw [hw] at h
    split at h
    · split at h
      · cases h
      · simp only [Option.some.injEq, Prod.mk.injEq] at h
        exact ⟨'.', _, h.1.symm, .inr rfl⟩
    · simp at h
  | cons c tail =>
    rw [hw] at h
    have hc := isDigit_head_spanDigits hw
    split at h
    · split at h
      · cases h
      · simp only [Option.some.injEq, Prod.mk.injEq] at h
        exact ⟨c, _, h.1.symm, .inl hc⟩
    · split at h
      · cases h
      · split at h
        · cases h
        · simp only [Option.some.injEq, Prod.mk.injEq] at h
          exact ⟨c, _, h.1.symm, .inl hc⟩

theorem lawful_of_nextLexeme {cs spelling rest : List Char} {kind : TokenKind} {value : String}
    (h : nextLexeme? cs = some (.token kind, spelling, rest)) (hv : tokenValue? kind spelling = some value)
    (pos lead : Position) : Token.Lawful ⟨kind, value, pos, lead⟩ := by
  obtain ⟨rule, hmem, hrule⟩ := List.exists_of_findSome?_eq_some h
  obtain ⟨span, hspan, heq⟩ := Option.map_eq_some_iff.mp hrule
  simp only [Prod.mk.injEq] at heq
  obtain ⟨hkind, rfl⟩ := heq
  have hrules : ∀ r ∈ rules, r.1 = .token kind →
      (kind = .identifier → r.2 = takeIdentifier?) ∧ (kind = .integer → r.2 = takeInteger?) ∧
        (kind = .decimal → r.2 = takeDecimal?) := by
    cases kind <;> simp [rules]
  obtain ⟨hidentifier, hinteger, hdecimal⟩ := hrules rule hmem hkind
  refine ⟨?_, ?_, ?_⟩
  · rintro rfl
    obtain rfl := Option.some.inj hv
    exact isIdentifier_of_take (hidentifier rfl ▸ hspan)
  · rintro rfl
    obtain rfl := Option.some.inj hv
    simpa using isDigit_of_take (hinteger rfl ▸ hspan)
  · rintro (rfl | rfl)
    · obtain rfl := Option.some.inj hv
      simpa using head_of_takeDecimal (hdecimal rfl ▸ hspan)
    · obtain rfl := Option.some.inj hv
      simpa using head_of_takeInteger (hinteger rfl ▸ hspan)

theorem lawful_of_tokenizeFrom {fuel : Nat} {lead pos : Position} {cs : List Char} {ts : List Token}
    {final : Position} (h : tokenizeFrom fuel lead pos cs = .ok (ts, final)) : ∀ t ∈ ts, t.Lawful := by
  induction fuel generalizing lead pos cs ts final with
  | zero =>
    cases cs with
    | nil => cases h; simp
    | cons c rest => cases h
  | succ fuel ih =>
    cases cs with
    | nil => cases h; simp
    | cons c rest =>
      rw [tokenizeFrom] at h
      · split at h
        · cases h
        · rename_i lexeme spelling after hnext
          cases lexeme with
          | dropped => exact ih h
          | token kind =>
            simp only at h
            split at h
            · cases h
            · rename_i value hvalue
              simp only [bind_eq_ok, pure_eq_ok, Prod.mk.injEq] at h
              obtain ⟨more, hmore, rfl, rfl⟩ := h
              exact List.forall_mem_cons.mpr ⟨lawful_of_nextLexeme hnext hvalue _ _, ih hmore⟩
      · simp

theorem lawful_of_tokenize {text : String} {ts : List Token} {final : Position}
    (h : tokenize text = .ok (ts, final)) : ∀ t ∈ ts, t.Lawful :=
  lawful_of_tokenizeFrom h

end Sequencer.Qasm
