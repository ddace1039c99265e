import Mathlib.Data.List.DropRight
import Sequencer.Json.Reader
import Sequencer.Proofs.Decimal.Numerals

/-!
# Texts of JSON values

The indented text of a value is read back as that value, whatever follows it,
provided that its numbers are spelled as JSON spells them and that it is not
nested deeper than the reader goes. Strings may hold any characters.
-/

namespace Sequencer.Json

open Decimal (StopsAt takeWhile_append_stop dropWhile_append_stop)

-- ---------------------------------------------------------------------------
-- Blanks
-- ---------------------------------------------------------------------------

theorem skipBlanks_append {blanks : List Char} (h : ∀ c ∈ blanks, isBlank c = true) (rest : List Char) :
    skipBlanks (blanks ++ rest) = skipBlanks rest :=
  List.dropWhile_append_of_pos h

theorem skipBlanks_cons {c : Char} (h : isBlank c = false) (rest : List Char) :
    skipBlanks (c :: rest) = c :: rest := by
  simp [skipBlanks, h]

theorem skipBlanks_skipBlanks (cs : List Char) : skipBlanks (skipBlanks cs) = skipBlanks cs :=
  List.dropWhile_idempotent isBlank cs

theorem toList_newline (depth : Nat) :
    (newline depth).toList = '\n' :: List.replicate (4 * depth) ' ' := by
  simp [newline]

theorem isBlank_newline {depth : Nat} {c : Char} (h : c ∈ (newline depth).toList) : isBlank c = true := by
  rw [toList_newline, List.mem_cons, List.mem_replicate] at h
  rcases h with rfl | ⟨-, rfl⟩ <;> rfl

theorem skipBlanks_newline (depth : Nat) (rest : List Char) :
    skipBlanks ((newline depth).toList ++ rest) = skipBlanks rest :=
  skipBlanks_append (fun _ => isBlank_newline) rest

-- ---------------------------------------------------------------------------
-- Strings
-- ---------------------------------------------------------------------------

theorem hexValue?_hexDigit {n : Nat} (h : n < 16) : hexValue? (Text.hexDigit n) = some n := by
  have hall : ∀ m < 16, hexValue? (Text.hexDigit m) = some m := by decide
  exact hall n h

theorem readHex4?_hexDigits {n : Nat} (h : n < 0x10000) (rest : List Char) :
    readHex4? (Text.hexDigits 4 n ++ rest) = some (n, rest) := by
  have hdigit (m : Nat) : hexValue? (Text.hexDigit (m % 16)) = some (m % 16) :=
    hexValue?_hexDigit (Nat.mod_lt m (by decide))
  simp only [Text.hexDigits, List.nil_append, List.cons_append, readHex4?, hdigit]
  simp only [bind, Option.bind, pure, Option.some.injEq, Prod.mk.injEq, and_true]
  omega

theorem joinSurrogate_of_lt {unit : Nat} (h : unit < 0xd800) (rest : List Char) :
    joinSurrogate unit rest = (Char.ofNat unit, rest) := by
  have hhigh : ¬ (0xd800 ≤ unit ∧ unit < 0xdc00) := by omega
  have hlow : ¬ (0xdc00 ≤ unit ∧ unit < 0xe000) := by omega
  simp only [joinSurrogate, hhigh, hlow, ↓reduceIte]

theorem toNat_lt_of_numbered {c : Char} (h : (c.toNat < 0x20 || isMarkup c) = true) :
    c.toNat < 0xd800 := by
  simp only [isMarkup, Bool.or_eq_true, decide_eq_true_eq] at h
  rcases h with h | (((rfl | rfl) | rfl) | h) | h
  · omega
  · decide
  · decide
  · decide
  · omega
  · omega

theorem readChars_escapeChar (fuel : Nat) (c : Char) (rest acc : List Char) :
    readChars (fuel + 1) (escapeChar c ++ rest) acc = readChars fuel rest (c :: acc) := by
  have hchar {n : Nat} (h : c.toNat = n) : Char.ofNat n = c := h ▸ Char.ofNat_toNat c
  unfold escapeChar
  split_ifs with hquote hslash hnewline hreturn htab hback hfeed hnumbered
  · subst hquote
    rfl
  · subst hslash
    rfl
  · subst hnewline
    rfl
  · subst hreturn
    rfl
  · subst htab
    rfl
  · rw [← hchar hback]
    rfl
  · rw [← hchar hfeed]
    rfl
  · have hlt := toNat_lt_of_numbered hnumbered
    simp only [List.cons_append, List.nil_append, readChars]
    rw [readHex4?_hexDigits (by omega)]
    simp only [joinSurrogate_of_lt hlt, Char.ofNat_toNat]
  · have hplain : ¬ c.toNat < 0x20 := by simp_all
    rw [List.singleton_append, readChars]
    · rw [if_neg hplain]
    · exact hquote
    · exact hslash

theorem readChars_escaped {fuel : Nat} (s rest acc : List Char) (h : s.length < fuel) :
    readChars fuel (s.flatMap escapeChar ++ '"' :: rest) acc =
      some (String.ofList (acc.reverse ++ s), rest) := by
  induction s generalizing fuel acc with
  | nil =>
    obtain ⟨fuel, rfl⟩ := Nat.exists_eq_add_of_lt h
    simp [readChars]
  | cons c s ih =>
    obtain ⟨fuel, rfl⟩ : ∃ m, fuel = m + 1 := ⟨fuel - 1, by simp at h; omega⟩
    rw [List.flatMap_cons, List.append_assoc, readChars_escapeChar, ih _ (by simpa using h)]
    simp

theorem length_le_escaped (s : List Char) : s.length ≤ (s.flatMap escapeChar).length := by
  have hone (c : Char) : 1 ≤ (escapeChar c).length := by
    unfold escapeChar
    split_ifs <;> simp
  induction s with
  | nil => simp
  | cons c s ih =>
    have := hone c
    simp only [List.flatMap_cons, List.length_cons, List.length_append]
    omega

theorem toList_quote (s : String) :
    (quote s).toList = '"' :: (s.toList.flatMap escapeChar ++ ['"']) := by
  simp [quote]

theorem readChars_quoted (s : String) (rest : List Char) :
    readChars ((s.toList.flatMap escapeChar ++ '"' :: rest).length + 1)
      (s.toList.flatMap escapeChar ++ '"' :: rest) [] = some (s, rest) := by
  have hlen := length_le_escaped s.toList
  rw [readChars_escaped _ _ _ (by simp only [List.length_append]; omega)]
  simp

-- ---------------------------------------------------------------------------
-- Numbers
-- ---------------------------------------------------------------------------

structure Spelling where
  negative : Bool
  whole : List Char
  /-- The digits after the point, which is left out before none. -/
  fraction : List Char
  power : Option (Bool × List Char)
  whole_ne : whole ≠ []
  whole_digits : ∀ c ∈ whole, c.isDigit = true
  no_zero : whole = ['0'] ∨ whole.head? ≠ some '0'
  fraction_digits : ∀ c ∈ fraction, c.isDigit = true
  power_ne : ∀ p ∈ power, p.2 ≠ []
  power_digits : ∀ p ∈ power, ∀ c ∈ p.2, c.isDigit = true

namespace Spelling

def fractionChars (s : Spelling) : List Char := if s.fraction = [] then [] else '.' :: s.fraction

def powerChars (s : Spelling) : List Char :=
  match s.power with
  | none => []
  | some (negative, digits) => 'e' :: (if negative then '-' else '+') :: digits

def chars (s : Spelling) : List Char :=
  (if s.negative then ['-'] else []) ++ s.whole ++ s.fractionChars ++ s.powerChars

theorem first (s : Spelling) : ∃ c, s.chars.head? = some c ∧ (c = '-' ∨ c.isDigit = true) := by
  cases hneg : s.negative with
  | true => exact ⟨'-', by simp [chars, hneg], .inl rfl⟩
  | false =>
    cases hw : s.whole with
    | nil => exact absurd hw s.whole_ne
    | cons c more => exact ⟨c, by simp [chars, hneg, hw], .inr (s.whole_digits c (by simp [hw]))⟩

end Spelling

/-- A character that a number before it would take in. -/
def prolongsNumber (c : Char) : Bool := c.isDigit || c = '.' || c = 'e' || c = 'E'

theorem stopsAt_digits {rest : List Char} (h : StopsAt prolongsNumber rest) : StopsAt Char.isDigit rest := by
  intro c hc
  have := h c hc
  simp_all [prolongsNumber]

theorem spanDigits_append {digits rest : List Char} (hdigits : ∀ c ∈ digits, c.isDigit = true)
    (hrest : StopsAt Char.isDigit rest) : spanDigits (digits ++ rest) = (digits, rest) := by
  rw [spanDigits, takeWhile_append_stop hdigits hrest, dropWhile_append_stop hdigits hrest]

section
variable (s : Spelling) {rest : List Char}

theorem readPower?_chars (hrest : StopsAt prolongsNumber rest) :
    readPower? (s.powerChars ++ rest) = some (s.powerChars, rest) := by
  unfold Spelling.powerChars
  cases hp : s.power with
  | none =>
    cases rest with
    | nil => rfl
    | cons c rest =>
      have hc := hrest c rfl
      simp only [prolongsNumber, Bool.or_eq_false_iff, decide_eq_false_iff_not] at hc
      simp [readPower?, hc]
  | some p =>
    obtain ⟨negative, digits⟩ := p
    have hne := s.power_ne _ hp
    have hspan := spanDigits_append (s.power_digits _ hp) (stopsAt_digits hrest)
    simp only at hne hspan
    cases negative <;> simp [readPower?, hspan, hne]

theorem stopsAt_powerChars (hrest : StopsAt prolongsNumber rest) :
    StopsAt Char.isDigit (s.powerChars ++ rest) := by
  unfold Spelling.powerChars
  split
  · exact stopsAt_digits hrest
  · exact .cons rfl _

theorem readFraction?_chars (hrest : StopsAt prolongsNumber rest) :
    readFraction? (s.fractionChars ++ (s.powerChars ++ rest)) =
      some (s.fractionChars, s.powerChars ++ rest) := by
  unfold Spelling.fractionChars
  split
  · -- without a point, the power or what follows the number comes next
    rw [List.nil_append, readFraction?]
    intro more hmore
    unfold Spelling.powerChars at hmore
    split at hmore
    · cases rest with
      | nil => simp at hmore
      | cons c rest =>
        have hc := hrest c rfl
        simp only [List.nil_append, List.cons.injEq] at hmore
        rw [hmore.1] at hc
        simp [prolongsNumber] at hc
    · simp at hmore
  · rename_i hne
    simp [readFraction?, spanDigits_append s.fraction_digits (stopsAt_powerChars s hrest), hne]

theorem stopsAt_fractionChars (hrest : StopsAt prolongsNumber rest) :
    StopsAt Char.isDigit (s.fractionChars ++ (s.powerChars ++ rest)) := by
  unfold Spelling.fractionChars
  split
  · exact stopsAt_powerChars s hrest
  · exact .cons rfl _

theorem readWhole?_chars (hrest : StopsAt Char.isDigit rest) :
    readWhole? (s.whole ++ rest) = some (s.whole, rest) := by
  rcases s.no_zero with hzero | hzero
  · simp [hzero, readWhole?]
  · rw [readWhole?]
    · simp [spanDigits_append s.whole_digits hrest, s.whole_ne]
    · intro more hmore
      refine hzero ?_
      cases hw : s.whole with
      | nil => exact absurd hw s.whole_ne
      | cons c cs =>
        rw [hw, List.cons_append, List.cons.injEq] at hmore
        simp [hmore.1]

theorem readNumber?_chars (hrest : StopsAt prolongsNumber rest) :
    readNumber? (s.chars ++ rest) = some (.number (String.ofList s.chars), rest) := by
  have hwhole := readWhole?_chars s (stopsAt_fractionChars s hrest)
  have hfraction := readFraction?_chars s hrest
  have hpower := readPower?_chars s hrest
  cases hneg : s.negative with
  | true =>
    simp only [Spelling.chars, hneg, ↓reduceIte, List.cons_append, List.nil_append, List.append_assoc,
      readNumber?]
    simp [hwhole, hfraction, hpower]
  | false =>
    have hsign : ∀ more, s.whole ++ (s.fractionChars ++ (s.powerChars ++ rest)) ≠ '-' :: more := by
      intro more h
      cases hw : s.whole with
      | nil => exact s.whole_ne hw
      | cons c cs =>
        rw [hw, List.cons_append, List.cons.injEq] at h
        have := s.whole_digits c (by simp [hw])
        rw [h.1] at this
        simp at this
    simp only [Spelling.chars, hneg, Bool.false_eq_true, ↓reduceIte, List.nil_append, List.append_assoc,
      readNumber?]
    simp [hwhole, hfraction, hpower]

end

-- ---------------------------------------------------------------------------
-- Values
-- ---------------------------------------------------------------------------

/-- Values whose numbers are well spelled, with at most the given number of
arrays and objects inside one another. -/
inductive Written : Nat → Json → Prop
  | null : Written n .null
  | bool (value : Bool) : Written n (.bool value)
  | number {spelling : String} (s : Spelling) (h : spelling.toList = s.chars) :
      Written n (.number spelling)
  | string (value : String) : Written n (.string value)
  | array {items : List Json} (h : ∀ j ∈ items, Written n j) : Written (n + 1) (.array items)
  | object {members : List (String × Json)} (h : ∀ e ∈ members, Written n e.2) :
      Written (n + 1) (.object members)

/-- The value's text is read as the value, in front of anything that does not
prolong a number. -/
def ReadsBack (n : Nat) (j : Json) : Prop :=
  ∀ {fuel depth level : Nat} {cs rest : List Char},
    skipBlanks cs = (j.indented level).toList ++ rest → (j.indented level).toList.length ≤ fuel →
    depth + n ≤ depthLimit → StopsAt prolongsNumber rest → readValue fuel depth cs = some (j, rest)

theorem toList_lastItem (level : Nat) (item : Json) :
    (indentedItems level [item]).toList = (newline level).toList ++ (item.indented level).toList := by
  simp [indentedItems]

theorem toList_items (level : Nat) (item next : Json) (rest : List Json) :
    (indentedItems level (item :: next :: rest)).toList =
      (newline level).toList ++ ((item.indented level).toList ++
        ',' :: (indentedItems level (next :: rest)).toList) := by
  simp [indentedItems]

theorem toList_lastMember (level : Nat) (name : String) (value : Json) :
    (indentedMembers level [(name, value)]).toList =
      (newline level).toList ++ ((quote name).toList ++ ':' :: ' ' :: (value.indented level).toList) := by
  simp [indentedMembers]

theorem toList_members (level : Nat) (name : String) (value : Json) (next : String × Json)
    (rest : List (String × Json)) :
    (indentedMembers level ((name, value) :: next :: rest)).toList =
      (newline level).toList ++ ((quote name).toList ++ ':' :: ' ' :: ((value.indented level).toList ++
        ',' :: (indentedMembers level (next :: rest)).toList)) := by
  simp [indentedMembers]

theorem toList_array (level : Nat) {items : List Json} (h : items ≠ []) :
    ((Json.array items).indented level).toList =
      '[' :: ((indentedItems (level + 1) items).toList ++ ((newline level).toList ++ [']'])) := by
  cases items with
  | nil => exact absurd rfl h
  | cons item rest => simp [indented]

theorem toList_object (level : Nat) {members : List (String × Json)} (h : members ≠ []) :
    ((Json.object members).indented level).toList =
      '\x7b' :: ((indentedMembers (level + 1) members).toList ++ ((newline level).toList ++ ['\x7d'])) := by
  cases members with
  | nil => exact absurd rfl h
  | cons member rest => simp [indented]

theorem not_isBlank_of_isDigit {c : Char} (h : c.isDigit = true) : isBlank c = false := by
  by_contra hblank
  simp only [isBlank, Bool.not_eq_false, Bool.or_eq_true, decide_eq_true_eq] at hblank
  rcases hblank with ((rfl | rfl) | rfl) | rfl <;> simp at h

/-- The first character of a value's text tells it from blanks and from the
end of an array. -/
theorem Written.first {n : Nat} {j : Json} (h : Written n j) (level : Nat) :
    ∃ c, (j.indented level).toList.head? = some c ∧ isBlank c = false ∧ c ≠ ']' := by
  cases h with
  | null => exact ⟨'n', by simp [indented, compact], rfl, by decide⟩
  | bool value =>
    cases value with
    | true => exact ⟨'t', by simp [indented, compact], rfl, by decide⟩
    | false => exact ⟨'f', by simp [indented, compact], rfl, by decide⟩
  | number s h =>
    obtain ⟨c, hc, hfirst⟩ := s.first
    refine ⟨c, by simp [indented, compact, h, hc], ?_⟩
    rcases hfirst with rfl | hdigit
    · exact ⟨rfl, by decide⟩
    · refine ⟨not_isBlank_of_isDigit hdigit, ?_⟩
      rintro rfl
      simp at hdigit
  | string value => exact ⟨'"', by simp [indented, compact, toList_quote], rfl, by decide⟩
  | @array n items h =>
    refine ⟨'[', ?_, rfl, by decide⟩
    cases items with
    | nil => simp [indented]
    | cons item rest => simp [toList_array level (List.cons_ne_nil item rest)]
  | @object n members h =>
    refine ⟨'\x7b', ?_, rfl, by decide⟩
    cases members with
    | nil => simp [indented]
    | cons member rest => simp [toList_object level (List.cons_ne_nil member rest)]

theorem Written.skipBlanks_text {n : Nat} {j : Json} (h : Written n j) (level : Nat) (rest : List Char) :
    skipBlanks ((j.indented level).toList ++ rest) = (j.indented level).toList ++ rest := by
  obtain ⟨c, hc, hblank, -⟩ := h.first level
  obtain ⟨more, hmore⟩ := List.head?_eq_some_iff.mp hc
  rw [hmore, List.cons_append, skipBlanks_cons hblank]

theorem Written.skipBlanks_items {n : Nat} {item : Json} (h : Written n item) (level : Nat)
    (more : List Json) (rest after : List Char) :
    skipBlanks ((indentedItems level (item :: more)).toList ++ rest) ≠ ']' :: after := by
  obtain ⟨c, hc, -, hclose⟩ := h.first level
  obtain ⟨text, htext⟩ := List.head?_eq_some_iff.mp hc
  intro heq
  cases more with
  | nil =>
    rw [toList_lastItem, List.append_assoc, skipBlanks_newline, h.skipBlanks_text, htext] at heq
    exact hclose (List.cons.inj heq).1
  | cons next more =>
    rw [toList_items, List.append_assoc, skipBlanks_newline, List.append_assoc, h.skipBlanks_text,
      htext] at heq
    exact hclose (List.cons.inj heq).1

theorem skipBlanks_members (level : Nat) (member : String × Json) (more : List (String × Json))
    (rest : List Char) :
    ∃ after, skipBlanks ((indentedMembers level (member :: more)).toList ++ rest) = '"' :: after := by
  obtain ⟨name, value⟩ := member
  cases more with
  | nil =>
    rw [toList_lastMember, List.append_assoc, skipBlanks_newline, toList_quote, List.append_assoc,
      List.cons_append, skipBlanks_cons rfl]
    exact ⟨_, rfl⟩
  | cons next more =>
    rw [toList_members, List.append_assoc, skipBlanks_newline, toList_quote, List.append_assoc,
      List.cons_append, skipBlanks_cons rfl]
    exact ⟨_, rfl⟩

theorem stopsAt_newline (level : Nat) (rest : List Char) :
    StopsAt prolongsNumber ((newline level).toList ++ rest) := by
  rw [toList_newline]
  exact .cons rfl _

theorem readItems_text {n fuel depth level close : Nat} {items acc : List Json} {cs rest : List Char}
    (hne : items ≠ []) (written : ∀ j ∈ items, Written n j) (reads : ∀ j ∈ items, ReadsBack n j)
    (hcs : skipBlanks cs = skipBlanks ((indentedItems level items).toList ++
      ((newline close).toList ++ ']' :: rest)))
    (hfuel : (indentedItems level items).toList.length ≤ fuel) (hdepth : depth + n ≤ depthLimit) :
    readItems fuel depth cs acc = some (.array (acc.reverse ++ items), rest) := by
  induction items generalizing fuel cs acc with
  | nil => exact absurd rfl hne
  | cons item more ih =>
    obtain ⟨hitem, hmore⟩ := List.forall_mem_cons.mp written
    obtain ⟨ritem, rmore⟩ := List.forall_mem_cons.mp reads
    cases more with
    | nil =>
      rw [toList_lastItem, List.append_assoc, skipBlanks_newline, hitem.skipBlanks_text] at hcs
      simp only [toList_lastItem, List.length_append, toList_newline, List.length_cons] at hfuel
      obtain ⟨fuel, rfl⟩ : ∃ m, fuel = m + 1 := ⟨fuel - 1, by omega⟩
      rw [readItems, ritem hcs (by omega) hdepth (stopsAt_newline close _)]
      simp [skipBlanks_newline, skipBlanks_cons (c := ']') rfl]
    | cons next more =>
      rw [toList_items] at hcs hfuel
      simp only [List.append_assoc, List.cons_append, skipBlanks_newline, hitem.skipBlanks_text] at hcs
      simp only [List.length_append, toList_newline, List.length_cons] at hfuel
      obtain ⟨fuel, rfl⟩ : ∃ m, fuel = m + 1 := ⟨fuel - 1, by omega⟩
      rw [readItems, ritem hcs (by omega) hdepth (.cons rfl _)]
      simp only [skipBlanks_cons (c := ',') rfl]
      rw [ih (List.cons_ne_nil next more) hmore rmore rfl (by omega)]
      simp

theorem readMembers_text {n fuel depth level close : Nat} {members acc : List (String × Json)}
    {cs rest : List Char} (hne : members ≠ []) (written : ∀ e ∈ members, Written n e.2)
    (reads : ∀ e ∈ members, ReadsBack n e.2)
    (hcs : skipBlanks cs = skipBlanks ((indentedMembers level members).toList ++
      ((newline close).toList ++ '\x7d' :: rest)))
    (hfuel : (indentedMembers level members).toList.length ≤ fuel) (hdepth : depth + n ≤ depthLimit) :
    readMembers fuel depth cs acc = some (.object (acc.reverse ++ members), rest) := by
  induction members generalizing fuel cs acc with
  | nil => exact absurd rfl hne
  | cons member more ih =>
    obtain ⟨name, value⟩ := member
    obtain ⟨hvalue, hmore⟩ : Written n value ∧ ∀ e ∈ more, Written n e.2 := List.forall_mem_cons.mp written
    obtain ⟨rvalue, rmore⟩ : ReadsBack n value ∧ ∀ e ∈ more, ReadsBack n e.2 := List.forall_mem_cons.mp reads
    have hafter (rest : List Char) : skipBlanks (' ' :: ((value.indented level).toList ++ rest)) =
        (value.indented level).toList ++ rest := hvalue.skipBlanks_text level rest
    cases more with
    | nil =>
      rw [toList_lastMember] at hcs hfuel
      simp only [List.append_assoc, List.cons_append, List.nil_append, skipBlanks_newline, toList_quote,
        skipBlanks_cons (c := '"') rfl] at hcs
      simp only [List.length_append, toList_newline, List.length_cons] at hfuel
      obtain ⟨fuel, rfl⟩ : ∃ m, fuel = m + 1 := ⟨fuel - 1, by omega⟩
      simp only [readMembers, hcs, readChars_quoted, skipBlanks_cons (c := ':') rfl]
      rw [rvalue (hafter _) (by omega) hdepth (stopsAt_newline close _)]
      simp [skipBlanks_newline, skipBlanks_cons (c := '\x7d') rfl]
    | cons next more =>
      rw [toList_members] at hcs hfuel
      simp only [List.append_assoc, List.cons_append, List.nil_append, skipBlanks_newline, toList_quote,
        skipBlanks_cons (c := '"') rfl] at hcs
      simp only [List.length_append, toList_newline, List.length_cons] at hfuel
      obtain ⟨fuel, rfl⟩ : ∃ m, fuel = m + 1 := ⟨fuel - 1, by omega⟩
      simp only [readMembers, hcs, readChars_quoted, skipBlanks_cons (c := ':') rfl]
      rw [rvalue (hafter _) (by omega) hdepth (.cons rfl _)]
      simp only [skipBlanks_cons (c := ',') rfl]
      rw [ih (List.cons_ne_nil next more) hmore rmore rfl (by omega)]
      simp

theorem readValue_number {fuel depth : Nat} {cs rest : List Char} (s : Spelling)
    (hcs : skipBlanks cs = s.chars ++ rest) (hrest : StopsAt prolongsNumber rest) :
    readValue (fuel + 1) depth cs = some (.number (String.ofList s.chars), rest) := by
  obtain ⟨c, hc, hfirst⟩ := s.first
  obtain ⟨more, hmore⟩ := List.head?_eq_some_iff.mp hc
  have hother {x : Char} (hsign : x ≠ '-') (hdigit : x.isDigit = false) : c ≠ x := by
    rintro rfl
    rcases hfirst with rfl | hfirst
    · exact hsign rfl
    · simp [hfirst] at hdigit
  have hnumber := readNumber?_chars s hrest
  rw [hmore, List.cons_append] at hcs hnumber
  rw [readValue, hcs]
  split
  · rename_i heq
    cases heq
  · rename_i heq
    exact absurd (List.cons.inj heq).1 (hother (by decide) rfl)
  · rename_i heq
    exact absurd (List.cons.inj heq).1 (hother (by decide) rfl)
  · rename_i heq
    cases heq
    rw [if_neg (hother (by decide) rfl), if_neg (hother (by decide) rfl),
      if_neg (hother (by decide) rfl), if_neg (hother (by decide) rfl), hnumber, hmore]

theorem readWord?_append (word : String) (value : Json) (rest : List Char) :
    readWord? word value (word.toList ++ rest) = some (value, rest) := by
  simp only [readWord?, ← String.length_toList]
  rw [List.take_left, if_pos rfl, List.drop_left]

theorem Written.readsBack {n : Nat} {j : Json} (h : Written n j) : ReadsBack n j := by
  induction h with
  | null =>
    intro fuel depth level cs rest hcs hfuel hdepth hrest
    simp only [indented, compact] at hcs hfuel
    obtain ⟨fuel, rfl⟩ : ∃ m, fuel = m + 1 := ⟨fuel - 1, by simp at hfuel; omega⟩
    rw [readValue, hcs]
    exact readWord?_append "null" .null rest
  | bool value =>
    intro fuel depth level cs rest hcs hfuel hdepth hrest
    simp only [indented, compact] at hcs hfuel
    obtain ⟨fuel, rfl⟩ : ∃ m, fuel = m + 1 := ⟨fuel - 1, by cases value <;> simp at hfuel <;> omega⟩
    rw [readValue, hcs]
    cases value with
    | true => exact readWord?_append "true" (.bool true) rest
    | false => exact readWord?_append "false" (.bool false) rest
  | @number n spelling s h =>
    intro fuel depth level cs rest hcs hfuel hdepth hrest
    simp only [indented, compact, h] at hcs hfuel
    obtain ⟨c, hc, -⟩ := s.first
    have hpos : s.chars ≠ [] := by
      rintro heq
      simp [heq] at hc
    have := List.length_pos_iff.mpr hpos
    obtain ⟨fuel, rfl⟩ : ∃ m, fuel = m + 1 := ⟨fuel - 1, by omega⟩
    rw [readValue_number s hcs hrest, ← h, String.ofList_toList]
  | string value =>
    intro fuel depth level cs rest hcs hfuel hdepth hrest
    simp only [indented, compact, toList_quote, List.cons_append, List.append_assoc, List.nil_append,
      List.length_cons] at hcs hfuel
    obtain ⟨fuel, rfl⟩ : ∃ m, fuel = m + 1 := ⟨fuel - 1, by omega⟩
    simp only [readValue, hcs]
    rw [readChars_quoted]
    rfl
  | @array n items written ih =>
    intro fuel depth level cs rest hcs hfuel hdepth hrest
    have hlimit : ¬ depthLimit ≤ depth := by omega
    cases items with
    | nil =>
      simp only [indented] at hcs hfuel
      obtain ⟨fuel, rfl⟩ : ∃ m, fuel = m + 1 := ⟨fuel - 1, by simp at hfuel; omega⟩
      simp [readValue, hcs, hlimit, skipBlanks_cons (c := ']') rfl]
    | cons item more =>
      rw [toList_array level (List.cons_ne_nil item more)] at hcs hfuel
      simp only [List.cons_append, List.append_assoc, List.nil_append, List.length_cons,
        List.length_append] at hcs hfuel
      obtain ⟨fuel, rfl⟩ : ∃ m, fuel = m + 1 := ⟨fuel - 1, by omega⟩
      have hread : readItems fuel (depth + 1) (skipBlanks ((indentedItems (level + 1) (item :: more)).toList ++
          ((newline level).toList ++ ']' :: rest))) [] = some (.array (item :: more), rest) :=
        readItems_text (List.cons_ne_nil item more) written ih (skipBlanks_skipBlanks _) (by omega) (by omega)
      have hopen := (written item List.mem_cons_self).skipBlanks_items (level + 1) more
        ((newline level).toList ++ ']' :: rest)
      -- `hopen` rules out the case of an empty array
      simp only [readValue, hcs, hlimit, ↓reduceIte]
      exact hread
  | @object n members written ih =>
    intro fuel depth level cs rest hcs hfuel hdepth hrest
    have hlimit : ¬ depthLimit ≤ depth := by omega
    cases members with
    | nil =>
      simp only [indented] at hcs hfuel
      obtain ⟨fuel, rfl⟩ : ∃ m, fuel = m + 1 := ⟨fuel - 1, by simp at hfuel; omega⟩
      simp [readValue, hcs, hlimit, skipBlanks_cons (c := '\x7d') rfl]
    | cons member more =>
      rw [toList_object level (List.cons_ne_nil member more)] at hcs hfuel
      simp only [List.cons_append, List.append_assoc, List.nil_append, List.length_cons,
        List.length_append] at hcs hfuel
      obtain ⟨fuel, rfl⟩ : ∃ m, fuel = m + 1 := ⟨fuel - 1, by omega⟩
      have hread : readMembers fuel (depth + 1)
          (skipBlanks ((indentedMembers (level + 1) (member :: more)).toList ++
            ((newline level).toList ++ '\x7d' :: rest))) [] = some (.object (member :: more), rest) :=
        readMembers_text (List.cons_ne_nil member more) written ih (skipBlanks_skipBlanks _) (by omega)
          (by omega)
      obtain ⟨after, hopen⟩ := skipBlanks_members (level + 1) member more
        ((newline level).toList ++ '\x7d' :: rest)
      rw [hopen] at hread
      simpa [readValue, hcs, hlimit, hopen] using hread

theorem Written.read?_text {n : Nat} {j : Json} (h : Written n j) (hdepth : n ≤ depthLimit) :
    read? (j.indented 0 ++ "\n") = some j := by
  have hcs : skipBlanks (j.indented 0 ++ "\n").toList = (j.indented 0).toList ++ ['\n'] := by
    rw [String.toList_append, h.skipBlanks_text]
    rfl
  have hfuel : (j.indented 0).toList.length ≤ 2 * (j.indented 0 ++ "\n").toList.length + 2 := by
    rw [String.toList_append, List.length_append]
    omega
  rw [read?, h.readsBack hcs hfuel (by omega) (.cons rfl [])]
  rfl

end Sequencer.Json
