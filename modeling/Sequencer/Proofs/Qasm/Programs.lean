import Sequencer.Proofs.Qasm.Matching
import Sequencer.Proofs.Qasm.Tokens
import Sequencer.Qasm.Grammar

/-!
# What programs look like

Registers are declared under identifiers, and guards compare with numbers that
are not negative and have at most 63 bits. Number tokens of an expression are
checked when they are taken: those of an expression that was read are numbers.
-/

namespace Sequencer.Qasm

open Matcher

/-- The part of a program's form that its circuit depends on. -/
def StatementBody.Legal : StatementBody → Prop
  | .quantumRegister name _ | .classicalRegister name _ => IsIdentifier name
  | .guarded guard _ => 0 ≤ guard.value ∧ guard.value < Integer.bound
  | _ => True

def Token.Readable (t : Token) : Prop :=
  t.Lawful → Grammar.isNumber t = true → ∃ x, Decimal.readFloat t.value = .ok x

def AllReadable {α : Type} (ts : List Token) (_ : α) : Prop := ∀ t ∈ ts, t.Readable

theorem AllReadable.nil {a : α} : AllReadable [] a := by simp [AllReadable]

theorem AllReadable.append {a : α} {b : β} {c : γ} {ts us : List Token} (ht : AllReadable ts a)
    (hu : AllReadable us b) : AllReadable (ts ++ us) c :=
  List.forall_mem_append.mpr ⟨ht, hu⟩

namespace Grammar

-- ---------------------------------------------------------------------------
-- Expressions
-- ---------------------------------------------------------------------------

section
variable {α β : Type} {p : Matcher α}

theorem readable_bind {q : α → Matcher β} (hp : p.Sound AllReadable) (hq : ∀ a, (q a).Sound AllReadable) :
    (p >>= q).Sound AllReadable :=
  hp.bind fun a => (hq a).mono fun _ _ hu _ ht => ht.append hu

theorem readable_many (hp : p.Sound AllReadable) : p.many.Sound AllReadable := by
  refine hp.many.mono ?_
  rintro _ l ⟨parts, rfl, h⟩
  induction h with
  | nil => exact .nil
  | cons hD _ ih => exact hD.append ih

theorem readable_optional (hp : p.Sound AllReadable) : p.optional.Sound AllReadable :=
  hp.optional .nil fun _ _ h => h

theorem readable_construct {build : α → Except SyntaxError β} (hp : p.Sound AllReadable) :
    (construct p build).Sound AllReadable :=
  hp.construct fun _ _ _ h _ => h

theorem readable_pure (a : α) : (pure a : Matcher α).Sound AllReadable := sound_pure .nil

end

def beginsNumber (text : String) : Bool := text.toList.head?.any fun c => c.isDigit || c == '.'

theorem readable_of_value {t : Token} (h : beginsNumber t.value = false) : t.Readable := by
  intro lawful hnumber
  simp only [isNumber, Bool.or_eq_true, beq_iff_eq] at hnumber
  obtain ⟨c, rest, hvalue, hc⟩ := lawful.number hnumber
  simp only [beginsNumber, hvalue, List.head?_cons, Option.any_some] at h
  simp_all

theorem readable_oneOf {values : List String} (h : ∀ v ∈ values, beginsNumber v = false) :
    (oneOf values).Sound AllReadable := by
  refine (sound_token _).mono ?_
  rintro _ t ⟨rfl, ht⟩ s hs
  obtain rfl := List.mem_singleton.mp hs
  exact readable_of_value (h _ (List.contains_iff_mem.mp ht))

theorem readable_literal {value : String} (h : beginsNumber value = false) :
    (literal value).Sound AllReadable := by
  refine (sound_token _).mono ?_
  rintro _ t ⟨rfl, ht⟩ s hs
  obtain rfl := List.mem_singleton.mp hs
  exact readable_of_value (by rw [beq_iff_eq.mp ht]; exact h)

theorem readable_identifier : identifier.Sound AllReadable := by
  refine Sound.bind (sound_token _) fun t => sound_pure ?_
  rintro _ ⟨rfl, ht⟩ s hs _ hnumber
  obtain rfl := List.mem_singleton.mp hs
  simp [isNumber, beq_iff_eq.mp ht] at hnumber

section
variable {expr : Matcher Expr} (hexpr : expr.Sound AllReadable)
include hexpr

theorem readable_parenthesized : (parenthesized expr).Sound AllReadable := by
  refine readable_bind (readable_literal (by decide)) fun _ => readable_bind hexpr.required fun _ => ?_
  exact readable_bind (readable_literal (by decide)).required fun _ => readable_pure _

theorem readable_functionCall : (functionCall expr).Sound AllReadable := by
  refine readable_construct (readable_bind (readable_oneOf (by decide)) fun _ => ?_)
  exact readable_bind (readable_parenthesized hexpr).required fun _ => readable_pure _

theorem readable_primary : (primary expr).Sound AllReadable := by
  -- a number is checked when the primary is built from it
  have hpart : (primaryPart expr).Sound fun ts part => ∀ b, part.build = .ok b → AllReadable ts b := by
    refine Sound.firstOf ?_
    simp only [List.forall_mem_cons]
    refine ⟨?_, ?_, ?_, ?_, ?_, nofun⟩
    · refine Sound.bind (sound_token _) fun t => sound_pure ?_
      rintro _ ⟨rfl, ht⟩ b hb s hs _ _
      obtain rfl := List.mem_singleton.mp hs
      simp only [PrimaryPart.build, checkedNumber] at hb
      split at hb
      · rename_i x hx
        exact ⟨x, hx⟩
      · cases hb
    · exact (readable_bind (readable_literal (by decide)) fun _ => readable_pure _).mono
        fun _ _ h _ _ => h
    · exact (readable_bind (readable_functionCall hexpr) fun _ => readable_pure _).mono fun _ _ h _ _ => h
    · exact (readable_bind readable_identifier fun _ => readable_pure _).mono fun _ _ h _ _ => h
    · exact (readable_bind (readable_parenthesized hexpr) fun _ => readable_pure _).mono fun _ _ h _ _ => h
  exact hpart.construct fun _ _ b h hb => h b hb

end

section
variable {factor : Matcher Factor} (hfactor : factor.Sound AllReadable)
include hfactor

theorem readable_power {expr : Matcher Expr} (hexpr : expr.Sound AllReadable) :
    (power factor expr).Sound AllReadable := by
  refine readable_construct (readable_bind (readable_primary hexpr) fun _ => ?_)
  refine readable_bind (readable_optional ?_) fun _ => readable_pure _
  exact readable_bind (readable_literal (by decide)) fun _ => hfactor.required

theorem readable_term : (term factor).Sound AllReadable := by
  refine readable_construct (readable_bind hfactor fun _ => ?_)
  refine readable_bind (readable_many (readable_construct ?_)) fun _ => readable_pure _
  exact readable_bind (readable_oneOf (by decide)) fun _ =>
    readable_bind hfactor.required fun _ => readable_pure _

theorem readable_expression : (expression factor).Sound AllReadable := by
  refine readable_construct (readable_bind (readable_term hfactor) fun _ => ?_)
  refine readable_bind (readable_many (readable_construct ?_)) fun _ => readable_pure _
  exact readable_bind (readable_oneOf (by decide)) fun _ =>
    readable_bind (readable_term hfactor).required fun _ => readable_pure _

end

theorem readable_factor (fuel : Nat) : (factor fuel).Sound AllReadable := by
  induction fuel with
  | zero => exact nofun
  | succ fuel ih =>
    refine readable_construct (Sound.firstOf ?_)
    simp only [List.forall_mem_cons]
    refine ⟨?_, ?_, nofun⟩
    · exact readable_bind (readable_literal (by decide)) fun _ =>
        readable_bind ih.required fun _ => readable_pure _
    · exact readable_bind (readable_power ih (readable_expression ih)) fun _ => readable_pure _

theorem readable_expr : expr.Sound AllReadable :=
  fun c => readable_expression (readable_factor (c.rest.length + 1)) c

-- ---------------------------------------------------------------------------
-- Statements
-- ---------------------------------------------------------------------------

/-- What was found has a property if the tokens taken are as the lexer makes them. -/
def IfLawful {α : Type} (Q : α → Prop) (ts : List Token) (a : α) : Prop := (∀ t ∈ ts, t.Lawful) → Q a

abbrev Anything {α : Type} : List Token → α → Prop := IfLawful fun _ => True

section
variable {α β : Type} {p : Matcher α} {q : α → Matcher β} {R : α → Prop} {Q : β → Prop}

theorem lawful_bind (hp : p.Sound (IfLawful R)) (hq : ∀ a, (q a).Sound (IfLawful fun b => R a → Q b)) :
    (p >>= q).Sound (IfLawful Q) := by
  refine hp.bind fun a => (hq a).mono fun us b hb ts ha lawful => ?_
  obtain ⟨hts, hus⟩ := List.forall_mem_append.mp lawful
  exact hb hus (ha hts)

theorem lawful_skip (hp : p.Sound (IfLawful R)) (hq : ∀ a, (q a).Sound (IfLawful Q)) :
    (p >>= q).Sound (IfLawful Q) :=
  lawful_bind hp fun a => (hq a).mono fun _ _ h lawful _ => h lawful

theorem lawful_token (accepts : Token → Bool) :
    (token accepts).Sound (IfLawful fun t => t.Lawful ∧ accepts t = true) := by
  refine (sound_token accepts).mono ?_
  rintro _ t ⟨rfl, ht⟩ lawful
  exact ⟨lawful t List.mem_cons_self, ht⟩

theorem lawful_pure {a : α} (h : R a) : (pure a : Matcher α).Sound (IfLawful R) := sound_pure fun _ => h

theorem any_optional (hp : p.Sound (IfLawful R)) : p.optional.Sound Anything :=
  hp.optional (fun _ => trivial) fun _ _ _ _ => trivial

theorem any_construct {build : α → Except SyntaxError β} (hp : p.Sound (IfLawful R)) :
    (construct p build).Sound Anything :=
  hp.construct fun _ _ _ _ _ _ => trivial

theorem any_many (hp : p.Sound (IfLawful R)) : p.many.Sound Anything :=
  hp.many.mono fun _ _ _ _ => trivial

theorem any_commaList (hp : p.Sound (IfLawful R)) : (commaList p).Sound Anything :=
  lawful_skip hp fun _ => lawful_skip (any_many (lawful_skip (lawful_token _) fun _ => hp.required))
    fun _ => lawful_pure trivial

theorem any_parameterList (hp : p.Sound (IfLawful R)) : (parameterList p).Sound Anything := by
  refine lawful_skip (any_optional (R := fun _ => True) ?_) fun _ => lawful_pure trivial
  exact lawful_skip (lawful_token _) fun _ => lawful_skip (any_optional (any_commaList hp)) fun _ =>
    lawful_skip (lawful_token _).required fun _ => lawful_pure trivial

end

theorem lawful_identifier : identifier.Sound (IfLawful IsIdentifier) :=
  lawful_bind (lawful_token _) fun _ => lawful_pure fun h => h.1.identifier (beq_iff_eq.mp h.2)

theorem any_index : index.Sound Anything :=
  lawful_skip (lawful_token _) fun _ => lawful_skip (lawful_token _).required fun _ =>
    lawful_skip (lawful_token _).required fun _ => lawful_pure trivial

theorem any_argument : argument.Sound Anything :=
  any_construct (R := fun _ => True) (lawful_skip lawful_identifier fun _ =>
    lawful_skip (any_optional any_index) fun _ => lawful_pure trivial)

theorem any_call : call.Sound Anything := by
  have hexpr : expr.Sound Anything := readable_expr.mono fun _ _ _ _ => trivial
  refine Sound.located (D := Anything) ?_ fun _ _ _ _ _ _ _ => trivial
  exact lawful_skip lawful_identifier fun _ => lawful_skip (any_parameterList hexpr) fun _ =>
    lawful_skip (any_commaList any_argument).required fun _ => lawful_pure trivial

theorem any_action : action.Sound Anything := by
  refine any_construct (R := fun _ => True) (Sound.firstOf ?_)
  simp only [List.forall_mem_cons]
  refine ⟨any_construct (R := fun _ => True) ?_, ?_, ?_, ?_, nofun⟩
  · exact lawful_skip (lawful_token _) fun _ => lawful_skip any_argument.required fun _ =>
      lawful_skip (lawful_token _).required fun _ => lawful_skip any_argument.required fun _ =>
        lawful_skip (lawful_token _).required fun _ => lawful_pure trivial
  · exact lawful_skip (lawful_token _) fun _ => lawful_skip any_argument.required fun _ =>
      lawful_skip (lawful_token _).required fun _ => lawful_pure trivial
  · exact lawful_skip (lawful_token _) fun _ => lawful_skip (any_commaList any_argument).required fun _ =>
      lawful_skip (lawful_token _).required fun _ => lawful_pure trivial
  · exact lawful_skip any_call fun _ => lawful_skip (lawful_token _).required fun _ => lawful_pure trivial

theorem any_gateDeclaration : gateDeclaration.Sound Anything := by
  refine any_construct (R := fun _ => True) ?_
  refine lawful_skip (lawful_token _) fun _ => lawful_skip lawful_identifier.required fun _ =>
    lawful_skip (any_parameterList lawful_identifier) fun _ =>
      lawful_skip (any_commaList lawful_identifier).required fun _ =>
        lawful_skip (lawful_token _).required fun _ => lawful_skip (any_many (R := fun _ => True) ?_) fun _ =>
          lawful_skip (lawful_token _).required fun _ => lawful_pure trivial
  exact lawful_skip any_call fun _ => lawful_skip (lawful_token _).required fun _ => lawful_pure trivial

theorem any_namedDeclaration : namedDeclaration.Sound Anything :=
  any_construct (R := fun _ => True) (lawful_skip (lawful_token _) fun _ =>
    lawful_skip lawful_identifier.required fun _ =>
      lawful_skip (any_parameterList lawful_identifier) fun _ =>
        lawful_skip (any_commaList lawful_identifier).required fun _ =>
          lawful_skip (lawful_token _).required fun _ => lawful_pure trivial)

theorem integerOf_nonneg {t : Token} {n : Int} (lawful : t.Lawful) (hkind : t.kind = .integer)
    (h : integerOf t = .ok n) : 0 ≤ n ∧ n < Integer.bound := by
  simp only [integerOf] at h
  split at h
  · rename_i m hm
    obtain rfl := Except.ok.inj h
    exact Decimal.readIntAnyBase_nonneg (lawful.integer hkind) hm
  · cases h

theorem legal_registerDeclaration : registerDeclaration.Sound (IfLawful StatementBody.Legal) := by
  refine Sound.construct (D := IfLawful fun parts => IsIdentifier parts.2.1) ?_ ?_
  · refine lawful_skip (lawful_token _) fun _ => lawful_bind lawful_identifier.required fun name => ?_
    exact lawful_skip (lawful_token _).required fun _ => lawful_skip (lawful_token _).required fun _ =>
      lawful_skip (lawful_token _).required fun _ => lawful_skip (lawful_token _).required fun _ =>
        lawful_pure fun h => h
  · rintro ts ⟨kind, name, size⟩ body hname hbuild lawful
    simp only [bind_eq_ok, pure_eq_ok] at hbuild
    obtain ⟨n, -, rfl⟩ := hbuild
    split
    · exact hname lawful
    · exact hname lawful

theorem legal_guardedAction : guardedAction.Sound (IfLawful StatementBody.Legal) := by
  refine Sound.construct
    (D := IfLawful fun parts => parts.2.2.1.Lawful ∧ (parts.2.2.1.kind == .integer) = true) ?_ ?_
  · refine lawful_skip (lawful_token _) fun _ => lawful_skip (lawful_token _).required fun _ =>
      lawful_skip lawful_identifier.required fun _ => lawful_skip (any_optional any_index) fun _ =>
        lawful_skip (lawful_token _).required fun _ => lawful_bind (lawful_token _).required fun value => ?_
    exact lawful_skip (lawful_token _).required fun _ => lawful_skip any_action.required fun _ =>
      lawful_pure fun h => h
  · rintro ts ⟨register, i, value, act⟩ body hvalue hbuild lawful
    simp only [bind_eq_ok, pure_eq_ok] at hbuild
    obtain ⟨index, -, n, hn, rfl⟩ := hbuild
    obtain ⟨hlawful, hkind⟩ := hvalue lawful
    exact integerOf_nonneg hlawful (beq_iff_eq.mp hkind) hn

theorem legal_statement : statement.Sound (IfLawful fun st => st.body.Legal) := by
  refine Sound.located (D := IfLawful StatementBody.Legal) (Sound.firstOf ?_) ?_
  · simp only [List.forall_mem_cons]
    refine ⟨?_, legal_registerDeclaration, ?_, ?_, legal_guardedAction, ?_, nofun⟩
    · exact lawful_skip (lawful_token _) fun _ => lawful_skip (lawful_token _).required fun _ =>
        lawful_skip (lawful_token _).required fun _ => lawful_pure trivial
    · exact lawful_skip any_gateDeclaration fun _ => lawful_pure trivial
    · exact lawful_skip any_namedDeclaration fun _ => lawful_pure trivial
    · exact lawful_skip any_action fun _ => lawful_pure trivial
  · rintro pos ts body st hbody hst lawful
    cases hst
    exact hbody lawful

theorem legal_program : program.Sound (IfLawful fun p => ∀ st ∈ p.statements, st.body.Legal) := by
  have hmany : statement.many.Sound (IfLawful fun l => ∀ st ∈ l, st.body.Legal) := by
    refine legal_statement.many.mono ?_
    rintro _ l ⟨parts, rfl, h⟩ lawful
    induction h with
    | nil => simp
    | cons hst _ ih =>
      obtain ⟨hfirst, hrest⟩ := List.forall_mem_append.mp lawful
      exact List.forall_mem_cons.mpr ⟨hst hfirst, ih hrest⟩
  refine Sound.construct (D := IfLawful fun p => ∀ st ∈ p.statements, st.body.Legal) ?_ ?_
  · exact lawful_skip (lawful_token _) fun _ => lawful_skip (lawful_token _).required fun _ =>
      lawful_skip (lawful_token _).required fun _ => lawful_bind hmany fun _ => lawful_pure fun h => h
  · rintro ts p _ hp ⟨⟩ lawful
    exact hp lawful

theorem legal_of_read {text : String} {p : Program} (h : read text = .ok p) :
    ∀ st ∈ p.statements, st.body.Legal := by
  simp only [read] at h
  split at h
  · cases h
  · rename_i tokens finish htokens
    split at h
    · rename_i c hfound
      split at h
      · cases h
        obtain ⟨ts, hts, hlegal⟩ := legal_program _ _ _ hfound
        refine hlegal fun t ht => lawful_of_tokenize htokens t ?_
        simp only at hts
        rw [hts]
        exact List.mem_append_left _ ht
      · cases h
    · cases h
    · cases h

end Grammar
end Sequencer.Qasm
