import Sequencer.Proofs.Qasm.Expressions
import Sequencer.Proofs.Qasm.Programs

/-!
# Parameters read back

The text of a parameter is a product: minus signs, then numbers and pi with
multiplication and division signs between them. Inside a call it is read as
the expression that it is read as on its own.
-/

namespace Sequencer.Qasm

open Matcher
open Decimal (StopsAt)

inductive Atom where
  | number (s : Json.Spelling) (unsigned : s.negative = false)
  | pi

namespace Atom

def chars : Atom → List Char
  | .number s _ => s.chars
  | .pi => "pi".toList

def form : Atom → TokenForm
  | .number s _ => (numeralKind (String.ofList s.chars), String.ofList s.chars)
  | .pi => word "pi"

def primary : Atom → Primary
  | .number s _ => .number (String.ofList s.chars)
  | .pi => .pi

def Readable : Atom → Prop
  | .number s _ => ∃ x, Decimal.readFloat (String.ofList s.chars) = .ok x
  | .pi => True

theorem isNumber_form {s : Json.Spelling} {unsigned : s.negative = false} {t : Token}
    (h : t.form = (Atom.number s unsigned).form) :
    Grammar.isNumber t = true ∧ t.value = String.ofList s.chars := by
  obtain ⟨hkind, hvalue⟩ := Prod.mk.inj h
  refine ⟨?_, hvalue⟩
  rw [Grammar.isNumber, hkind]
  rcases numeralKind_cases (String.ofList s.chars) with h | h <;> rw [h] <;> rfl

theorem first (a : Atom) : ∃ c rest, a.chars = c :: rest ∧ a.form.2 = String.ofList (c :: rest) ∧
    (c.isDigit = true ∨ c = 'p') := by
  cases a with
  | pi => exact ⟨'p', ['i'], rfl, rfl, .inr rfl⟩
  | number s unsigned =>
    obtain ⟨c, rest, hw⟩ := List.exists_cons_of_ne_nil s.whole_ne
    have hchars : s.chars = c :: (rest ++ s.fractionChars ++ s.powerChars) := by
      simp [Json.Spelling.chars, unsigned, hw]
    exact ⟨c, _, hchars, congrArg String.ofList hchars, .inl (s.whole_digits c (by simp [hw]))⟩

theorem lexes (a : Atom) {rest : List Char} {fs : List TokenForm} (ends : StopsAt prolongs rest)
    (h : Lexes rest fs) : Lexes (a.chars ++ rest) (a.form :: fs) := by
  cases a with
  | number s unsigned => exact Lexes.number s unsigned ends h
  | pi => exact Lexes.word (by decide) ends h

end Atom

/-- Minus signs in front of factors, each but the first after a multiplication
or a division sign. -/
structure Product where
  signs : Nat
  first : Atom
  rest : List (Bool × Atom)

namespace Product

def sign (multiplies : Bool) : Char := if multiplies then '*' else '/'

def restChars (factors : List (Bool × Atom)) : List Char :=
  factors.flatMap fun e => sign e.1 :: e.2.chars

def chars (x : Product) : List Char := List.replicate x.signs '-' ++ (x.first.chars ++ restChars x.rest)

def factorForms (e : Bool × Atom) : List TokenForm :=
  [(.punctuation, String.singleton (sign e.1)), e.2.form]

def forms (x : Product) : List TokenForm :=
  List.replicate x.signs (.punctuation, "-") ++ (x.first.form :: x.rest.flatMap factorForms)

def factor : Nat → Atom → Factor
  | 0, a => .power (.base a.primary)
  | signs + 1, a => .neg (factor signs a)

def tree (x : Product) : Expr :=
  .term (x.rest.foldl (fun t e => if e.1 then .mul t (factor 0 e.2) else .div t (factor 0 e.2))
    (.factor (factor x.signs x.first)))

def Readable (x : Product) : Prop := x.first.Readable ∧ ∀ e ∈ x.rest, e.2.Readable

-- ---------------------------------------------------------------------------
-- Lexing
-- ---------------------------------------------------------------------------

theorem stops_factors {factors : List (Bool × Atom)} {rest : List Char} (ends : StopsAt prolongs rest) :
    StopsAt prolongs (restChars factors ++ rest) := by
  cases factors with
  | nil => exact ends
  | cons e more =>
    obtain ⟨multiplies, a⟩ := e
    cases multiplies <;> exact .cons rfl _

theorem stops_mark (a : Atom) (mark : Char) (rest : List Char) : StopsAt (prolongsMark mark) (a.chars ++ rest) := by
  obtain ⟨c, tail, hchars, -, hc⟩ := a.first
  rw [hchars]
  refine .cons ?_ _
  have hslash : c ≠ '/' := by
    rintro rfl
    simp at hc
  have hangle : c ≠ '>' := by
    rintro rfl
    simp at hc
  simp [prolongsMark, hslash, hangle]

theorem lexes_factors (factors : List (Bool × Atom)) {rest : List Char} {fs : List TokenForm}
    (ends : StopsAt prolongs rest) (h : Lexes rest fs) :
    Lexes (restChars factors ++ rest) (factors.flatMap factorForms ++ fs) := by
  induction factors with
  | nil => exact h
  | cons e more ih =>
    obtain ⟨multiplies, a⟩ := e
    have hatom := a.lexes (stops_factors ends) ih
    have hmark := Lexes.mark (c := sign multiplies) (by cases multiplies <;> decide) (stops_mark a _ _) hatom
    simpa [restChars, factorForms] using hmark

theorem lexes (x : Product) {rest : List Char} {fs : List TokenForm} (ends : StopsAt prolongs rest)
    (h : Lexes rest fs) : Lexes (x.chars ++ rest) (x.forms ++ fs) := by
  have hfirst := x.first.lexes (stops_factors ends) (lexes_factors x.rest ends h)
  have hstop (n : Nat) : StopsAt (prolongsMark '-')
      (List.replicate n '-' ++ (x.first.chars ++ (restChars x.rest ++ rest))) := by
    cases n with
    | zero => exact stops_mark x.first _ _
    | succ n => exact .cons rfl _
  have hsigns (n : Nat) : Lexes (List.replicate n '-' ++ (x.first.chars ++ (restChars x.rest ++ rest)))
      (List.replicate n (.punctuation, "-") ++ (x.first.form :: (x.rest.flatMap factorForms ++ fs))) := by
    induction n with
    | zero => exact hfirst
    | succ n ih => exact Lexes.mark (c := '-') (by decide) (hstop n) ih
  simpa [chars, forms] using hsigns x.signs

-- ---------------------------------------------------------------------------
-- Trees
-- ---------------------------------------------------------------------------

theorem forms_primary (a : Atom) : a.primary.forms = [a.form] := by
  cases a <;> rfl

theorem forms_factor (signs : Nat) (a : Atom) :
    (factor signs a).forms = List.replicate signs (mark "-") ++ [a.form] := by
  induction signs with
  | zero => exact forms_primary a
  | succ signs ih => rw [factor, Factor.forms, ih, List.replicate_succ, List.cons_append]

theorem forms_tree (x : Product) : x.tree.forms = x.forms := by
  have hfold (rest : List (Bool × Atom)) (t : Term) :
      (rest.foldl (fun t e => if e.1 then .mul t (factor 0 e.2) else .div t (factor 0 e.2)) t).forms =
        t.forms ++ rest.flatMap factorForms := by
    induction rest generalizing t with
    | nil => simp
    | cons e rest ih =>
      obtain ⟨multiplies, a⟩ := e
      rw [List.foldl_cons, ih]
      cases multiplies <;> simp [Term.forms, forms_factor, factorForms, sign]
  rw [tree, Expr.forms, hfold, Term.forms, forms_factor, forms]
  simp

theorem legible_tree {x : Product} (hx : x.Readable) : x.tree.Legible := by
  have hfactor {a : Atom} (ha : a.Readable) (signs : Nat) : (factor signs a).Legible := by
    induction signs with
    | zero => cases a <;> exact ha
    | succ signs ih => exact ih
  have hfold (rest : List (Bool × Atom)) (hrest : ∀ e ∈ rest, e.2.Readable) (t : Term) (ht : t.Legible) :
      (rest.foldl (fun t e => if e.1 then .mul t (factor 0 e.2) else .div t (factor 0 e.2)) t).Legible := by
    induction rest generalizing t with
    | nil => exact ht
    | cons e rest ih =>
      obtain ⟨multiplies, a⟩ := e
      obtain ⟨ha, hlater⟩ := List.forall_mem_cons.mp hrest
      cases multiplies <;> exact ih hlater _ ⟨ht, hfactor ha 0⟩
  exact hfold x.rest hx.2 _ (hfactor hx.1 _)

end Product

def readExpr? (text : String) : Option Expr :=
  match tokenize text with
  | .error _ => none
  | .ok (tokens, finish) =>
    match Grammar.expr { rest := tokens, finish := finish } with
    | (.found e, c) => if c.rest.isEmpty then some e else none
    | _ => none

/-- The text parses as an expression of that value. -/
def Evaluates (text : String) (value : Float) : Prop := ∃ e, readExpr? text = some e ∧ e.eval {} = .ok value

-- ---------------------------------------------------------------------------
-- The text of a parameter
-- ---------------------------------------------------------------------------

def Atom.ofNat (n : Nat) : Atom :=
  .number ⟨false, Nat.toDigits 10 n, [], none, Nat.toDigits_ne_nil, fun _ => Decimal.isDigit_numeral, by
    by_cases hn : n = 0
    · exact .inl (by simp [hn])
    · exact .inr (Decimal.head?_numeral (Nat.pos_of_ne_zero hn)), nofun, nofun, nofun⟩ rfl

@[simp] theorem Atom.chars_pi : Atom.pi.chars = ['p', 'i'] := rfl

@[simp] theorem Atom.chars_ofNat (n : Nat) : (Atom.ofNat n).chars = Nat.toDigits 10 n := by
  simp [Atom.ofNat, Atom.chars, Json.Spelling.chars, Json.Spelling.fractionChars, Json.Spelling.powerChars]

theorem Product.of_piFraction {value : Float} {d : Nat} {s : String} (h : Parameter.piFraction? value d = some s) :
    ∃ x : Product, s.toList = x.chars := by
  simp only [Parameter.piFraction?] at h
  split at h
  · cases h
  · split at h
    · cases h
    · generalize hk : Parameter.multiple _ = k at h
      -- the numerator: pi, or a number and pi
      have hnum : ∃ x : Product,
          (if (value * d.toFloat / pi).round == 1.0 then "pi" else toString k ++ "*pi").toList = x.chars := by
        split
        · exact ⟨⟨0, .pi, []⟩, rfl⟩
        · refine ⟨⟨if k < 0 then 1 else 0, .ofNat k.natAbs, [(true, .pi)]⟩, ?_⟩
          rw [String.toList_append, Decimal.toList_toString_int]
          by_cases hneg : k < 0 <;>
            simp [hneg, Product.chars, Product.restChars, Product.sign]
      obtain ⟨x, hx⟩ := hnum
      obtain rfl := Option.some.inj h
      split
      · exact ⟨x, hx⟩
      · refine ⟨{ x with rest := x.rest ++ [(false, .ofNat d)] }, ?_⟩
        simp only [String.toList_append, hx, Decimal.toList_toString]
        simp [Product.chars, Product.restChars, Product.sign]

theorem Product.of_text (v : Float) :
    (∃ x : Product, (Parameter.text v).toList = x.chars) ∨ Parameter.text v ∈ ["NaN", "+Inf", "-Inf"] := by
  unfold Parameter.text
  split
  · exact .inl ⟨⟨0, .ofNat 0, []⟩, by decide⟩
  · simp only
    split
    · rename_i s hs
      obtain ⟨d, -, hd⟩ := List.exists_of_findSome?_eq_some hs
      obtain ⟨x, hx⟩ := Product.of_piFraction hd
      refine .inl ?_
      split
      · exact ⟨{ x with signs := x.signs + 1 }, by simp [hx, Product.chars, List.replicate_succ]⟩
      · exact ⟨x, hx⟩
    · unfold Decimal.general Decimal.text
      split
      · exact .inr (by simp)
      · rename_i negative _
        cases negative <;> exact .inr (by simp)
      · rename_i negative m q _
        obtain ⟨s, hs, hchars⟩ := spelled_digits Decimal.Layout.general (Decimal.shortest m q)
        refine .inl ⟨⟨if negative then 1 else 0, .number s hs, []⟩, ?_⟩
        cases negative <;> simp [Decimal.signed, hchars, Product.chars, Product.restChars, Atom.chars]

theorem not_evaluates {word : String} (h : word ∈ ["NaN", "+Inf", "-Inf"]) (w : Float) : ¬ Evaluates word w := by
  have hnone : ∀ word ∈ ["NaN", "+Inf", "-Inf"],
      ((readExpr? word).bind fun e => (e.eval {}).toOption).isNone = true := by
    decide +kernel
  rintro ⟨e, he, heval⟩
  have := hnone word h
  simp [he, heval, Except.toOption] at this

theorem Atom.readable_of_mem {ts : List Token} (h : ∀ t ∈ ts, t.Lawful ∧ t.Readable) {a : Atom}
    (ha : a.form ∈ ts.map Token.form) : a.Readable := by
  obtain ⟨t, ht, hform⟩ := List.mem_map.mp ha
  cases a with
  | pi => trivial
  | number s unsigned =>
    obtain ⟨hnumber, hvalue⟩ := Atom.isNumber_form hform
    obtain ⟨lawful, readable⟩ := h t ht
    obtain ⟨x, hx⟩ := readable lawful hnumber
    exact ⟨x, by rw [← hvalue, hx]⟩

/-- The text of a parameter that evaluates on its own is read as the same value
inside a list of parameters. -/
theorem Evaluates.spelled {v w : Float} (h : Evaluates (Parameter.text v) w) :
    ∃ e : Expr, Spells (Parameter.text v) e.forms ∧ e.Legible ∧ e.eval {} = .ok w := by
  rcases Product.of_text v with ⟨x, hx⟩ | hword
  · obtain ⟨e, he, heval⟩ := h
    have hlexes : Lexes (Parameter.text v).toList x.forms := by simpa [hx] using x.lexes (.nil _) .done
    obtain ⟨ts, finish, htokens, hforms⟩ := hlexes.tokenize
    simp only [readExpr?, htokens] at he
    split at he
    · rename_i found c hfound
      split at he
      · rename_i hrest
        obtain ⟨taken, htaken, hreadable⟩ := Grammar.readable_expr _ _ _ hfound
        obtain rfl : ts = taken := by simpa [List.isEmpty_iff.mp hrest] using htaken
        have hall : ∀ t ∈ ts, t.Lawful ∧ t.Readable := fun t ht => ⟨lawful_of_tokenize htokens t ht, hreadable t ht⟩
        have readable : x.Readable := by
          refine ⟨Atom.readable_of_mem hall ?_, fun e he => Atom.readable_of_mem hall ?_⟩
          · simp [hforms, Product.forms]
          · rw [hforms]
            refine List.mem_append_right _ (List.mem_cons_of_mem _ (List.mem_flatMap_of_mem he ?_))
            simp [Product.factorForms]
        -- on its own the text is read as the tree of the product too
        have legible := Product.legible_tree readable
        obtain ⟨y, c', hy, rfl, -⟩ := reads_expr legible { rest := ts, finish := finish } []
          (by simpa [Cursor.forms, x.forms_tree] using hforms) (by simp [NextNot])
        rw [hfound] at hy
        obtain rfl := Match.found.inj (Prod.mk.inj hy).1
        obtain rfl := Option.some.inj he
        exact ⟨x.tree, fun _ _ ends h => hx ▸ x.forms_tree ▸ x.lexes ends h, legible, heval⟩
      · cases he
    · cases he
  · exact absurd h (not_evaluates hword w)

end Sequencer.Qasm
