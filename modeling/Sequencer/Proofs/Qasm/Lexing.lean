import Sequencer.Proofs.Json.Numbers
import Sequencer.Proofs.Qasm.Tokens

/-!
# From characters to tokens

How a text is cut into tokens, piece by piece from its end: a piece in front of
a text is one more token, if what follows cannot prolong it. Where the tokens
stand does not matter here, so a token is known by its kind and its value.
-/

namespace Sequencer.Qasm

open Decimal (StopsAt takeWhile_append_stop dropWhile_append_stop spanDigits_append)

abbrev TokenForm : Type := TokenKind × String

def Token.form (t : Token) : TokenForm := (t.kind, t.value)

inductive Lexes : List Char → List TokenForm → Prop
  | done : Lexes [] []
  | drop {span rest : List Char} {fs : List TokenForm} (nonempty : span ≠ [])
      (next : nextLexeme? (span ++ rest) = some (.dropped, span, rest)) (h : Lexes rest fs) :
      Lexes (span ++ rest) fs
  | token {span rest : List Char} {fs : List TokenForm} {kind : TokenKind} {value : String} (nonempty : span ≠ [])
      (next : nextLexeme? (span ++ rest) = some (.token kind, span, rest))
      (means : tokenValue? kind span = some value) (h : Lexes rest fs) :
      Lexes (span ++ rest) ((kind, value) :: fs)

theorem Lexes.tokenizeFrom {cs : List Char} {fs : List TokenForm} (h : Lexes cs fs) {fuel : Nat}
    (enough : cs.length ≤ fuel) (lead pos : Position) :
    ∃ ts final, tokenizeFrom fuel lead pos cs = .ok (ts, final) ∧ ts.map Token.form = fs := by
  have hstep {span : List Char} (rest : List Char) (hne : span ≠ []) : ∃ c more, span ++ rest = c :: more ∧
      rest.length ≤ more.length := by
    cases span with
    | nil => exact absurd rfl hne
    | cons c span => exact ⟨c, span ++ rest, rfl, by simp⟩
  induction h generalizing fuel lead pos with
  | done => exact ⟨[], pos, by cases fuel <;> rfl, rfl⟩
  | @drop span rest fs hne next _ ih =>
    obtain ⟨c, more, heq, hlen⟩ := hstep rest hne
    rw [heq] at enough next ⊢
    cases fuel with
    | zero => cases enough
    | succ fuel =>
      simp only [List.length_cons, Nat.add_le_add_iff_right] at enough
      obtain ⟨ts, final, hts, hforms⟩ := ih (Nat.le_trans hlen enough) lead (pos.advanceAll span)
      exact ⟨ts, final, by simp [Qasm.tokenizeFrom, next, hts], hforms⟩
  | @token span rest fs kind value hne next means _ ih =>
    obtain ⟨c, more, heq, hlen⟩ := hstep rest hne
    rw [heq] at enough next ⊢
    cases fuel with
    | zero => cases enough
    | succ fuel =>
      simp only [List.length_cons, Nat.add_le_add_iff_right] at enough
      obtain ⟨ts, final, hts, hforms⟩ := ih (Nat.le_trans hlen enough) (pos.advanceAll span)
        (pos.advanceAll span)
      refine ⟨⟨kind, value, pos, lead⟩ :: ts, final, ?_, by simp [Token.form, hforms]⟩
      simp [Qasm.tokenizeFrom, next, means, hts, bind, Except.bind, pure, Except.pure]

theorem Lexes.tokenize {text : String} {fs : List TokenForm} (h : Lexes text.toList fs) :
    ∃ ts final, tokenize text = .ok (ts, final) ∧ ts.map Token.form = fs :=
  h.tokenizeFrom (Nat.le_refl _) .start .start

-- ---------------------------------------------------------------------------
-- Rules that do not apply
-- ---------------------------------------------------------------------------

section
variable {c : Char} {rest : List Char}

theorem takeComment?_of_ne (h : c ≠ '/') : takeComment? (c :: rest) = none := by
  unfold takeComment?
  split
  · rename_i heq
    exact absurd (List.cons.inj heq).1 h
  · rfl

theorem takeString?_of_ne (h : c ≠ '"') : takeString? (c :: rest) = none := by
  unfold takeString?
  split
  · rename_i heq
    exact absurd (List.cons.inj heq).1 h
  · rfl

theorem spanDigits_of_not (h : c.isDigit = false) : Decimal.spanDigits (c :: rest) = ([], c :: rest) := by
  simp [Decimal.spanDigits, h]

theorem takeInteger?_of_not (h : c.isDigit = false) : takeInteger? (c :: rest) = none := by
  simp [takeInteger?, spanDigits_of_not h]

theorem takeDecimal?_of_not (h : c.isDigit = false) (hp : c ≠ '.') : takeDecimal? (c :: rest) = none := by
  simp only [takeDecimal?, spanDigits_of_not h]
  split
  · rename_i heq
    exact absurd (List.cons.inj heq).1 hp
  · rfl

theorem takeIdentifier?_of_not (h : isLetter c = false) : takeIdentifier? (c :: rest) = none := by
  simp [takeIdentifier?, h]

end

theorem ne_of_isLetter {c d : Char} (h : isLetter c = true) (hd : isLetter d = false) : c ≠ d := by
  rintro rfl
  simp [h] at hd

theorem not_isDigit_of_isLetter {c : Char} (h : isLetter c = true) : c.isDigit = false := by
  by_contra hd
  simp only [Bool.not_eq_false, Char.isDigit_iff_toNat] at hd
  simp only [isLetter, Bool.or_eq_true, Bool.and_eq_true, decide_eq_true_eq, Char.le_def] at h
  have h9 : '9'.toNat = 57 := rfl
  have ha : 'a'.val.toNat = 97 := rfl
  have hA : 'A'.val.toNat = 65 := rfl
  rcases h with (⟨h, -⟩ | ⟨h, -⟩) | rfl
  · have := UInt32.le_iff_toNat_le.mp h
    have : c.toNat = c.val.toNat := rfl
    omega
  · have := UInt32.le_iff_toNat_le.mp h
    have : c.toNat = c.val.toNat := rfl
    omega
  · exact absurd hd.2 (by decide)

def blanks : List Char := [' ', '\t', '\n', '\r', Char.ofNat 12]

theorem mem_blanks {b : Char} (hb : isBlank b = true) : b ∈ blanks := by
  simp only [isBlank, Bool.or_eq_true, decide_eq_true_eq] at hb
  rcases hb with (((rfl | rfl) | rfl) | rfl) | hcode
  · simp [blanks]
  · simp [blanks]
  · simp [blanks]
  · simp [blanks]
  · have hb : b = Char.ofNat 12 := by rw [← hcode, Char.ofNat_toNat]
    simp [blanks, hb]

theorem ne_of_isDigit {c d : Char} (h : c.isDigit = true) (hd : d.isDigit = false) : c ≠ d := by
  rintro rfl
  simp [h] at hd

-- ---------------------------------------------------------------------------
-- Pieces
-- ---------------------------------------------------------------------------

/-- A character that a word or a number before it would take in. -/
def prolongs (c : Char) : Bool := isLetterOrDigit c || c == '.'

theorem stopsAt_of_prolongs {p : Char → Bool} {rest : List Char} (hp : ∀ c, p c = true → prolongs c = true)
    (h : StopsAt prolongs rest) : StopsAt p rest := by
  intro c hc
  by_contra hpc
  have := h c hc
  simp [hp c (by simpa using hpc)] at this

theorem stopsAt_isDigit {rest : List Char} (h : StopsAt prolongs rest) : StopsAt Char.isDigit rest :=
  stopsAt_of_prolongs (fun c hc => by simp [prolongs, isLetterOrDigit, hc]) h

/-- The character after the mark makes it a comment or an arrow. -/
def prolongsMark (c d : Char) : Bool := (c == '/' && d == '/') || (c == '-' && d == '>')

inductive IsPower : List Char → Prop
  | none : IsPower []
  | some {e : Char} {sign digits : List Char} (letter : e = 'e' ∨ e = 'E') (sign_ok : sign ∈ [[], ['+'], ['-']])
      (nonempty : digits ≠ []) (digits_ok : ∀ c ∈ digits, c.isDigit = true) : IsPower (e :: (sign ++ digits))

inductive IsDecimal : List Char → Prop
  | point {whole fraction power : List Char} (whole_ok : ∀ c ∈ whole, c.isDigit = true)
      (fraction_ok : ∀ c ∈ fraction, c.isDigit = true) (nonempty : whole ≠ [] ∨ fraction ≠ [])
      (power_ok : IsPower power) : IsDecimal (whole ++ '.' :: (fraction ++ power))
  | power {whole power : List Char} (whole_ne : whole ≠ []) (whole_ok : ∀ c ∈ whole, c.isDigit = true)
      (power_ne : power ≠ []) (power_ok : IsPower power) : IsDecimal (whole ++ power)

def numeralKind (spelling : String) : TokenKind := if spelling.toList.all Char.isDigit then .integer else .decimal

theorem numeralKind_digits {digits : List Char} (h : ∀ c ∈ digits, c.isDigit = true) :
    numeralKind (String.ofList digits) = .integer := by
  simp [numeralKind, List.all_eq_true.mpr h]

theorem IsPower.letter {power : List Char} (h : IsPower power) (hne : power ≠ []) :
    ∃ e more, power = e :: more ∧ (e = 'e' ∨ e = 'E') := by
  cases h with
  | none => exact absurd rfl hne
  | some letter => exact ⟨_, _, rfl, letter⟩

theorem IsPower.stopsAt {power rest : List Char} (h : IsPower power) (ends : StopsAt Char.isDigit rest) :
    StopsAt Char.isDigit (power ++ rest) := by
  cases h with
  | none => exact ends
  | some letter => rcases letter with rfl | rfl <;> exact .cons rfl _

theorem IsDecimal.numeralKind {cs : List Char} (h : IsDecimal cs) : numeralKind (String.ofList cs) = .decimal := by
  have hother : ∃ c ∈ cs, c.isDigit = false := by
    cases h with
    | point => exact ⟨'.', by simp, rfl⟩
    | power _ _ power_ne power_ok =>
      obtain ⟨e, more, rfl, rfl | rfl⟩ := power_ok.letter power_ne
      · exact ⟨'e', by simp, rfl⟩
      · exact ⟨'E', by simp, rfl⟩
  obtain ⟨c, hc, hdigit⟩ := hother
  rw [Qasm.numeralKind, if_neg]
  intro hall
  rw [String.toList_ofList] at hall
  simp [List.all_eq_true.mp hall c hc] at hdigit

theorem IsDecimal.first {cs : List Char} (h : IsDecimal cs) :
    ∃ c rest, cs = c :: rest ∧ (c.isDigit = true ∨ c = '.') := by
  cases h with
  | @point whole _ _ whole_ok =>
    cases whole with
    | nil => exact ⟨'.', _, rfl, .inr rfl⟩
    | cons c whole => exact ⟨c, _, rfl, .inl (whole_ok c List.mem_cons_self)⟩
  | @power whole _ whole_ne whole_ok =>
    obtain ⟨c, whole, rfl⟩ := List.exists_cons_of_ne_nil whole_ne
    exact ⟨c, _, rfl, .inl (whole_ok c List.mem_cons_self)⟩

def headingText : String := "OPENQASM 2.0;\ninclude \"qelib1.inc\";\n\n"

def versionForms : List TokenForm := [(.identifier, "OPENQASM"), (.decimal, "2.0"), (.punctuation, ";")]

def inclusionForms : List TokenForm := [(.identifier, "include"), (.string, "qelib1.inc"), (.punctuation, ";")]

namespace Lexes
variable {rest : List Char} {fs : List TokenForm}

theorem of_rule {span : List Char} {lexeme : Lexeme} (before : List (Lexeme × (List Char → Option Span)))
    {rule : List Char → Option Span} {after : List (Lexeme × (List Char → Option Span))}
    (split : rules = before ++ (lexeme, rule) :: after) (fails : ∀ r ∈ before, r.2 (span ++ rest) = none)
    (taken : rule (span ++ rest) = some (span, rest)) :
    nextLexeme? (span ++ rest) = some (lexeme, span, rest) := by
  have hbefore : before.findSome? (fun r => (r.2 (span ++ rest)).map fun s => (r.1, s)) = none :=
    List.findSome?_eq_none_iff.mpr fun r hr => by rw [fails r hr]; rfl
  rw [nextLexeme?, split, List.findSome?_append, hbefore, Option.none_or, List.findSome?_cons]
  simp [taken]

theorem nextLexeme?_letter (rest : List Char) {c : Char} (hc : isLetter c = true) :
    nextLexeme? (c :: rest) =
      some (.token .identifier, c :: rest.takeWhile isLetterOrDigit, rest.dropWhile isLetterOrDigit) := by
  have hdigit := not_isDigit_of_isLetter hc
  have hnext := @of_rule (rest.dropWhile isLetterOrDigit) (c :: rest.takeWhile isLetterOrDigit) (.token .identifier)
    [_, _, _, _] takeIdentifier? _ rfl
  simp only [List.cons_append, List.takeWhile_append_dropWhile, List.forall_mem_cons] at hnext
  exact hnext ⟨takeComment?_of_ne (ne_of_isLetter hc (by decide)), takeString?_of_ne (ne_of_isLetter hc (by decide)),
    takeDecimal?_of_not hdigit (ne_of_isLetter hc (by decide)), takeInteger?_of_not hdigit, List.forall_mem_nil _⟩
    (by simp [takeIdentifier?, hc])

theorem identifier {name : String} (hname : IsIdentifier name) (ends : StopsAt isLetterOrDigit rest)
    (h : Lexes rest fs) : Lexes (name.toList ++ rest) ((.identifier, name) :: fs) := by
  obtain ⟨c, tail, heq, hc, htail⟩ := hname
  have hvalue : tokenValue? .identifier (c :: tail) = some name := by
    rw [tokenValue?, ← heq, String.ofList_toList]
    nofun
  rw [heq]
  refine .token (List.cons_ne_nil c tail) ?_ hvalue h
  rw [List.cons_append, nextLexeme?_letter _ hc, takeWhile_append_stop htail ends, dropWhile_append_stop htail ends]

theorem word {name : String} (hname : IsIdentifier name) (ends : StopsAt prolongs rest) (h : Lexes rest fs) :
    Lexes (name.toList ++ rest) ((.identifier, name) :: fs) :=
  identifier hname (stopsAt_of_prolongs (fun c hc => by simp [prolongs, hc]) ends) h

theorem takeExponent_none (ends : StopsAt prolongs rest) : takeExponent rest = ([], rest) := by
  cases rest with
  | nil => rfl
  | cons c rest =>
    have hc := ends c rfl
    have hne : ¬ (c = 'e' ∨ c = 'E') := by
      rintro (rfl | rfl)
      · exact absurd hc (by decide)
      · exact absurd hc (by decide)
    simp [takeExponent, hne]

theorem integer {digits : List Char} (hne : digits ≠ []) (hdigits : ∀ c ∈ digits, c.isDigit = true)
    (ends : StopsAt prolongs rest) (h : Lexes rest fs) :
    Lexes (digits ++ rest) ((.integer, String.ofList digits) :: fs) := by
  have hspan := spanDigits_append hdigits (stopsAt_isDigit ends)
  refine .token hne (of_rule [_, _, _] rfl ?_ ?_) rfl h
  · have hdecimal : takeDecimal? (digits ++ rest) = none := by
      simp only [takeDecimal?, hspan, takeExponent_none ends]
      split
      · exact absurd (ends '.' rfl) (by decide)
      · simp
    obtain ⟨c, tail, rfl⟩ := List.exists_cons_of_ne_nil hne
    have hc := hdigits c List.mem_cons_self
    simp only [List.forall_mem_cons]
    exact ⟨takeComment?_of_ne (ne_of_isDigit hc (by decide)), takeString?_of_ne (ne_of_isDigit hc (by decide)),
      hdecimal, List.forall_mem_nil _⟩
  · simp [takeInteger?, hspan, hne]

theorem numeral {n : Nat} (ends : StopsAt prolongs rest) (h : Lexes rest fs) :
    Lexes ((toString n).toList ++ rest) ((.integer, toString (n : Int)) :: fs) := by
  have hinteger := integer Nat.toDigits_ne_nil (fun _ => Decimal.isDigit_numeral (n := n)) ends h
  rwa [← Decimal.toList_toString, String.ofList_toList] at hinteger

theorem takeExponent_power {power : List Char} (h : IsPower power) (ends : StopsAt prolongs rest) :
    takeExponent (power ++ rest) = (power, rest) := by
  cases h with
  | none => exact takeExponent_none ends
  | @some e sign digits letter sign_ok nonempty digits_ok =>
    have hspan := spanDigits_append digits_ok (stopsAt_isDigit ends)
    obtain ⟨d, more, rfl⟩ := List.exists_cons_of_ne_nil nonempty
    have hd := digits_ok d List.mem_cons_self
    have hplus : d ≠ '+' := ne_of_isDigit hd (by decide)
    have hminus : d ≠ '-' := ne_of_isDigit hd (by decide)
    simp only [List.mem_cons, List.not_mem_nil, or_false] at sign_ok
    rcases sign_ok with rfl | rfl | rfl
    · simp_all [takeExponent]
    · simp_all [takeExponent]
    · simp_all [takeExponent]

theorem takeDecimal?_append {cs : List Char} (h : IsDecimal cs) (ends : StopsAt prolongs rest) :
    takeDecimal? (cs ++ rest) = some (cs, rest) := by
  cases h with
  | @point whole fraction power whole_ok fraction_ok nonempty power_ok =>
    have hwhole := spanDigits_append whole_ok (.cons rfl _ : StopsAt Char.isDigit ('.' :: (fraction ++ (power ++ rest))))
    have hfraction := spanDigits_append fraction_ok (power_ok.stopsAt (stopsAt_isDigit ends))
    have hsome : ¬ (whole = [] ∧ fraction = []) := fun hboth => nonempty.elim (· hboth.1) (· hboth.2)
    simp [takeDecimal?, hwhole, hfraction, takeExponent_power power_ok ends, hsome]
  | @power whole power whole_ne whole_ok power_ne power_ok =>
    have hspan := spanDigits_append whole_ok (power_ok.stopsAt (stopsAt_isDigit ends))
    obtain ⟨e, more, heq, letter⟩ := power_ok.letter power_ne
    rw [List.append_assoc]
    simp only [takeDecimal?, hspan, takeExponent_power power_ok ends]
    split
    · rename_i hpoint
      rw [heq] at hpoint
      rcases letter with rfl | rfl <;> simp at hpoint
    · simp [whole_ne, power_ne]

theorem decimal {cs : List Char} (hcs : IsDecimal cs) (ends : StopsAt prolongs rest) (h : Lexes rest fs) :
    Lexes (cs ++ rest) ((.decimal, String.ofList cs) :: fs) := by
  obtain ⟨c, more, heq, hc⟩ := hcs.first
  have hother {d : Char} (hd : d.isDigit = false) (hpoint : d ≠ '.') : c ≠ d := by
    rintro rfl
    rcases hc with hc | hc
    · simp [hc] at hd
    · exact hpoint hc
  refine .token (by simp [heq]) (of_rule [_, _] rfl ?_ (takeDecimal?_append hcs ends)) rfl h
  rw [heq]
  simp only [List.cons_append, List.forall_mem_cons]
  exact ⟨takeComment?_of_ne (hother (by decide) (by decide)), takeString?_of_ne (hother (by decide) (by decide)),
    List.forall_mem_nil _⟩

theorem isPower_powerChars (s : Json.Spelling) : IsPower s.powerChars := by
  cases hp : s.power with
  | none => simpa [Json.Spelling.powerChars, hp] using IsPower.none
  | some p =>
    obtain ⟨negative, digits⟩ := p
    have hsign : [if negative then '-' else '+'] ∈ [[], ['+'], ['-']] := by cases negative <;> simp
    simpa [Json.Spelling.powerChars, hp] using IsPower.some (.inl rfl) hsign (s.power_ne _ hp) (s.power_digits _ hp)

theorem number (s : Json.Spelling) (hs : s.negative = false) (ends : StopsAt prolongs rest) (h : Lexes rest fs) :
    Lexes (s.chars ++ rest) ((numeralKind (String.ofList s.chars), String.ofList s.chars) :: fs) := by
  have hpower := isPower_powerChars s
  have hdecimal (hcs : IsDecimal s.chars) : Lexes (s.chars ++ rest)
      ((numeralKind (String.ofList s.chars), String.ofList s.chars) :: fs) := by
    rw [hcs.numeralKind]
    exact decimal hcs ends h
  by_cases hfraction : s.fraction = []
  · have hchars : s.chars = s.whole ++ s.powerChars := by
      simp [Json.Spelling.chars, hs, Json.Spelling.fractionChars, hfraction]
    by_cases hne : s.powerChars = []
    · rw [hchars, hne, List.append_nil, numeralKind_digits s.whole_digits]
      exact integer s.whole_ne s.whole_digits ends h
    · exact hdecimal (hchars ▸ .power s.whole_ne s.whole_digits hne hpower)
  · have hchars : s.chars = s.whole ++ '.' :: (s.fraction ++ s.powerChars) := by
      simp [Json.Spelling.chars, hs, Json.Spelling.fractionChars, hfraction]
    exact hdecimal (hchars ▸ .point s.whole_digits s.fraction_digits (.inl s.whole_ne) hpower)

theorem mark {c : Char} (hc : c ∈ punctuationMarks) (ends : StopsAt (prolongsMark c) rest) (h : Lexes rest fs) :
    Lexes (c :: rest) ((.punctuation, String.singleton c) :: fs) := by
  have hplain : c ≠ '"' ∧ c.isDigit = false ∧ c ≠ '.' ∧ isLetter c = false ∧ c ≠ '=' := by
    have hall : punctuationMarks.all (fun d =>
        d ≠ '"' ∧ d.isDigit = false ∧ d ≠ '.' ∧ isLetter d = false ∧ d ≠ '=') = true := by
      decide
    exact of_decide_eq_true (List.all_eq_true.mp hall c hc)
  obtain ⟨hquote, hdigit, hpoint, hletter, hequal⟩ := hplain
  refine .token (List.cons_ne_nil c []) (of_rule [_, _, _, _, _] rfl ?_ ?_) rfl h
  · simp only [List.cons_append, List.nil_append, List.forall_mem_cons]
    refine ⟨?_, takeString?_of_ne hquote, takeDecimal?_of_not hdigit hpoint, takeInteger?_of_not hdigit,
      takeIdentifier?_of_not hletter, List.forall_mem_nil _⟩
    unfold takeComment?
    split
    · rename_i heq
      obtain ⟨rfl, rfl⟩ := List.cons.inj heq
      exact absurd (ends '/' rfl) (by decide)
    · rfl
  · simp only [List.cons_append, List.nil_append]
    unfold takePunctuation?
    split
    · rename_i heq
      obtain ⟨rfl, rfl⟩ := List.cons.inj heq
      exact absurd (ends '>' rfl) (by decide)
    · rename_i heq
      exact absurd (List.cons.inj heq).1 hequal
    · rename_i heq
      obtain ⟨rfl, rfl⟩ := List.cons.inj heq
      simp [hc]
    · rename_i heq
      cases heq

theorem arrow (h : Lexes rest fs) : Lexes ('-' :: '>' :: rest) ((.punctuation, "->") :: fs) :=
  .token (List.cons_ne_nil '-' ['>']) (of_rule [_, _, _, _, _] rfl (by
    simp only [List.cons_append, List.nil_append, List.forall_mem_cons]
    exact ⟨rfl, rfl, rfl, rfl, rfl, List.forall_mem_nil _⟩) rfl) rfl h

theorem equals (h : Lexes rest fs) : Lexes ('=' :: '=' :: rest) ((.punctuation, "==") :: fs) :=
  .token (List.cons_ne_nil '=' ['=']) (of_rule [_, _, _, _, _] rfl (by
    simp only [List.cons_append, List.nil_append, List.forall_mem_cons]
    exact ⟨rfl, rfl, rfl, rfl, rfl, List.forall_mem_nil _⟩) rfl) rfl h

theorem nextLexeme?_blank (rest : List Char) {b : Char} (hb : isBlank b = true) :
    nextLexeme? (b :: rest) = some (.dropped, b :: rest.takeWhile isBlank, rest.dropWhile isBlank) := by
  have hall : blanks.all (fun d => d ≠ '/' ∧ d ≠ '"' ∧ d.isDigit = false ∧
      d ≠ '.' ∧ isLetter d = false ∧ d ≠ '-' ∧ d ≠ '=' ∧ d ∉ punctuationMarks) = true := by
    decide
  obtain ⟨hslash, hquote, hdigit, hpoint, hletter, hminus, hequal, hmark⟩ :=
    of_decide_eq_true (List.all_eq_true.mp hall b (mem_blanks hb))
  have hpunctuation : takePunctuation? (b :: rest) = none := by
    unfold takePunctuation?
    split
    · rename_i heq
      exact absurd (List.cons.inj heq).1 hminus
    · rename_i heq
      exact absurd (List.cons.inj heq).1 hequal
    · rename_i heq
      obtain ⟨rfl, rfl⟩ := List.cons.inj heq
      simp [hmark]
    · rfl
  have hnext := @of_rule (rest.dropWhile isBlank) (b :: rest.takeWhile isBlank) .dropped [_, _, _, _, _, _]
    takeBlanks? _ rfl
  simp only [List.cons_append, List.takeWhile_append_dropWhile, List.forall_mem_cons] at hnext
  exact hnext ⟨takeComment?_of_ne hslash, takeString?_of_ne hquote, takeDecimal?_of_not hdigit hpoint,
    takeInteger?_of_not hdigit, takeIdentifier?_of_not hletter, hpunctuation, List.forall_mem_nil _⟩
    (by simp [takeBlanks?, hb])

/-- A blank in front changes nothing, also where it prolongs other blanks. -/
theorem blank {b : Char} (hb : isBlank b = true) (h : Lexes rest fs) : Lexes (b :: rest) fs := by
  have hdrop {rest : List Char} (h : Lexes (rest.dropWhile isBlank) fs) : Lexes (b :: rest) fs := by
    have := Lexes.drop (List.cons_ne_nil b (rest.takeWhile isBlank)) (by
      simpa using nextLexeme?_blank rest hb) h
    simpa using this
  refine hdrop ?_
  cases rest with
  | nil => exact h
  | cons d more =>
    by_cases hd : isBlank d = true
    · -- the blanks behind are dropped together
      rw [List.dropWhile_cons_of_pos hd]
      have hnext := nextLexeme?_blank more hd
      generalize hcs : d :: more = cs at h hnext
      cases h with
      | done => cases hcs
      | drop _ next h =>
        rw [next] at hnext
        simp only [Option.some.injEq, Prod.mk.injEq, true_and] at hnext
        exact hnext.2 ▸ h
      | token _ next =>
        rw [next] at hnext
        simp at hnext
    · rwa [List.dropWhile_cons_of_neg (by simpa using hd)]

theorem all_ne_of_notMem {d : Char} {cs : List Char} (h : d ∉ cs) : ∀ c ∈ cs, decide (c ≠ d) = true := by
  intro c hc
  rw [decide_eq_true_eq]
  rintro rfl
  exact h hc

theorem comment {cs : List Char} (hcs : '\n' ∉ cs) (ends : StopsAt (· ≠ '\n') rest) (h : Lexes rest fs) :
    Lexes ('/' :: '/' :: cs ++ rest) fs := by
  have hall := all_ne_of_notMem hcs
  refine .drop (List.cons_ne_nil '/' ('/' :: cs)) (of_rule [] rfl (by simp) ?_) h
  simp only [takeComment?, List.cons_append, takeWhile_append_stop hall ends, dropWhile_append_stop hall ends]

theorem quoted {inner value : List Char} (hinner : '"' ∉ inner) (hvalue : unquote? inner.length inner = some value)
    (h : Lexes rest fs) : Lexes ('"' :: (inner ++ ['"']) ++ rest) ((.string, String.ofList value) :: fs) := by
  have hall := all_ne_of_notMem hinner
  have hstop : StopsAt (fun c => decide (c ≠ '"')) ('"' :: rest) := .cons rfl _
  refine .token (List.cons_ne_nil '"' (inner ++ ['"'])) (of_rule [_] rfl ?_ ?_) ?_ h
  · simp only [List.forall_mem_cons, List.cons_append]
    exact ⟨takeComment?_of_ne (by decide), List.forall_mem_nil _⟩
  · simp only [takeString?, List.cons_append, List.append_assoc, List.nil_append, takeWhile_append_stop hall hstop,
      dropWhile_append_stop hall hstop]
  · simp [tokenValue?, hvalue]

theorem heading (h : Lexes rest fs) :
    Lexes (headingText.toList ++ rest) (versionForms ++ (inclusionForms ++ fs)) := by
  have hend : Lexes (';' :: '\n' :: '\n' :: rest) ((.punctuation, ";") :: fs) :=
    mark (by decide) (.cons rfl _) (blank rfl (blank rfl h))
  have hfile : Lexes ("\"qelib1.inc\"".toList ++ ';' :: '\n' :: '\n' :: rest)
      ((.string, "qelib1.inc") :: (.punctuation, ";") :: fs) := by
    refine .token (by decide) (of_rule [_] rfl ?_ rfl) (by decide) hend
    simp only [List.forall_mem_cons]
    exact ⟨rfl, List.forall_mem_nil _⟩
  have hinclude := word (by decide : IsIdentifier "include") (.cons rfl _) (blank (b := ' ') rfl hfile)
  have hversion : Lexes ("2.0".toList ++ ';' :: '\n' :: ("include".toList ++ ' ' :: ("\"qelib1.inc\"".toList ++
      ';' :: '\n' :: '\n' :: rest))) ((.decimal, "2.0") :: (.punctuation, ";") :: (.identifier, "include") ::
        (.string, "qelib1.inc") :: (.punctuation, ";") :: fs) := by
    have htwo : IsDecimal (['2'] ++ '.' :: (['0'] ++ [])) := .point (by simp) (by simp) (.inl (by simp)) .none
    exact decimal htwo (.cons rfl _) (mark (by decide) (.cons rfl _) (blank rfl hinclude))
  exact word (by decide : IsIdentifier "OPENQASM") (.cons rfl _) (blank (b := ' ') rfl hversion)

end Lexes

/-- In front of what does not prolong it, the text is cut into the tokens. -/
def Spells (text : String) (fs : List TokenForm) : Prop :=
  ∀ ⦃rest gs⦄, StopsAt prolongs rest → Lexes rest gs → Lexes (text.toList ++ rest) (fs ++ gs)

def separated : List (List TokenForm) → List TokenForm
  | [] => []
  | fs :: rest => fs ++ rest.flatMap fun gs => (.punctuation, ",") :: gs

theorem Spells.joined {texts : List String} {parts : List (List TokenForm)} (h : List.Forall₂ Spells texts parts)
    (hne : texts ≠ []) : Spells (", ".intercalate texts) (separated parts) := by
  induction h with
  | nil => exact absurd rfl hne
  | @cons text fs texts parts hfirst hrest ih =>
    cases hrest with
    | nil => simpa [separated, String.intercalate_singleton] using hfirst
    | @cons next gs texts parts hnext hlater =>
      intro rest more ends h
      have hlast := ih (List.cons_ne_nil next texts) ends h
      have hcomma := hfirst (.cons rfl _) (Lexes.mark (c := ',') (by decide) (.cons rfl _) (Lexes.blank (b := ' ') rfl hlast))
      simpa [separated, String.intercalate_cons_cons] using hcomma

end Sequencer.Qasm
