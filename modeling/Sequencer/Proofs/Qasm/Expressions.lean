import Sequencer.Proofs.Qasm.Recognition
import Sequencer.Qasm.Grammar

/-!
# Expressions read back

Every expression is read back from its tokens, however deep it nests. Sums and
products are read as a first operand and the operands after it, and lean to the
left; a power is read as a base and the factor after it, and leans to the right.
-/

namespace Sequencer.Qasm

open Matcher

-- ---------------------------------------------------------------------------
-- Tokens of a tree
-- ---------------------------------------------------------------------------

abbrev mark (value : String) : TokenForm := (.punctuation, value)

abbrev word (value : String) : TokenForm := (.identifier, value)

mutual
def Expr.forms : Expr → List TokenForm
  | .term t => t.forms
  | .add e t => e.forms ++ mark "+" :: t.forms
  | .sub e t => e.forms ++ mark "-" :: t.forms
def Term.forms : Term → List TokenForm
  | .factor f => f.forms
  | .mul t f => t.forms ++ mark "*" :: f.forms
  | .div t f => t.forms ++ mark "/" :: f.forms
def Factor.forms : Factor → List TokenForm
  | .neg f => mark "-" :: f.forms
  | .power p => p.forms
def Power.forms : Power → List TokenForm
  | .base p => p.forms
  | .pow p f => p.forms ++ mark "^" :: f.forms
def Primary.forms : Primary → List TokenForm
  | .number spelling => [(numeralKind spelling, spelling)]
  | .pi => [word "pi"]
  | .call f e => word f.name :: mark "(" :: (e.forms ++ [mark ")"])
  | .name n => [word n]
  | .group e => mark "(" :: (e.forms ++ [mark ")"])
end

def primaryWords : List String := "pi" :: RealFunction.all.map RealFunction.name

mutual
/-- The numbers are within the range of the reader, and the names are identifiers
that mean nothing else. -/
def Expr.Legible : Expr → Prop
  | .term t => t.Legible
  | .add e t | .sub e t => e.Legible ∧ t.Legible
def Term.Legible : Term → Prop
  | .factor f => f.Legible
  | .mul t f | .div t f => t.Legible ∧ f.Legible
def Factor.Legible : Factor → Prop
  | .neg f => f.Legible
  | .power p => p.Legible
def Power.Legible : Power → Prop
  | .base p => p.Legible
  | .pow p f => p.Legible ∧ f.Legible
def Primary.Legible : Primary → Prop
  | .number spelling => ∃ x, Decimal.readFloat spelling = .ok x
  | .pi => True
  | .call _ e => e.Legible
  | .name n => IsIdentifier n ∧ n ∉ primaryWords
  | .group e => e.Legible
end

-- ---------------------------------------------------------------------------
-- Operands
-- ---------------------------------------------------------------------------

def operandForms {α : Type} (forms : α → List TokenForm) (e : String × α) : List TokenForm := mark e.1 :: forms e.2

def Term.head : Term → Factor
  | .factor f => f
  | .mul t _ | .div t _ => t.head

def Term.tail : Term → List (String × Factor)
  | .factor _ => []
  | .mul t f => t.tail ++ [("*", f)]
  | .div t f => t.tail ++ [("/", f)]

def Expr.head : Expr → Term
  | .term t => t
  | .add e _ | .sub e _ => e.head

def Expr.tail : Expr → List (String × Term)
  | .term _ => []
  | .add e t => e.tail ++ [("+", t)]
  | .sub e t => e.tail ++ [("-", t)]

theorem Term.forms_eq : (t : Term) → t.forms = t.head.forms ++ t.tail.flatMap (operandForms Factor.forms)
  | .factor f => by simp [Term.forms, Term.head, Term.tail]
  | .mul t f => by simp [Term.forms, Term.head, Term.tail, t.forms_eq, operandForms]
  | .div t f => by simp [Term.forms, Term.head, Term.tail, t.forms_eq, operandForms]

theorem Expr.forms_eq : (e : Expr) → e.forms = e.head.forms ++ e.tail.flatMap (operandForms Term.forms)
  | .term t => by simp [Expr.forms, Expr.head, Expr.tail]
  | .add e t => by simp [Expr.forms, Expr.head, Expr.tail, e.forms_eq, operandForms]
  | .sub e t => by simp [Expr.forms, Expr.head, Expr.tail, e.forms_eq, operandForms]

theorem Term.foldl_tail : (t : Term) →
    t.tail.foldl (fun t (e : String × Factor) => if e.1 = "*" then .mul t e.2 else .div t e.2) (.factor t.head) = t
  | .factor f => rfl
  | .mul t f => by simp [Term.head, Term.tail, t.foldl_tail]
  | .div t f => by simp [Term.head, Term.tail, t.foldl_tail]

theorem Expr.foldl_tail : (e : Expr) →
    e.tail.foldl (fun e (x : String × Term) => if x.1 = "+" then .add e x.2 else .sub e x.2) (.term e.head) = e
  | .term t => rfl
  | .add e t => by simp [Expr.head, Expr.tail, e.foldl_tail]
  | .sub e t => by simp [Expr.head, Expr.tail, e.foldl_tail]

theorem Term.legible_parts : (t : Term) → t.Legible →
    t.head.Legible ∧ ∀ e ∈ t.tail, e.1 ∈ ["*", "/"] ∧ e.2.Legible
  | .factor f, h => ⟨h, by simp [Term.tail]⟩
  | .mul t f, h | .div t f, h => by
    obtain ⟨hhead, htail⟩ := t.legible_parts h.1
    exact ⟨hhead, List.forall_mem_append.mpr ⟨htail, List.forall_mem_singleton.mpr ⟨by simp, h.2⟩⟩⟩

theorem Expr.legible_parts : (e : Expr) → e.Legible →
    e.head.Legible ∧ ∀ x ∈ e.tail, x.1 ∈ ["+", "-"] ∧ x.2.Legible
  | .term t, h => ⟨h, by simp [Expr.tail]⟩
  | .add e t, h | .sub e t, h => by
    obtain ⟨hhead, htail⟩ := e.legible_parts h.1
    exact ⟨hhead, List.forall_mem_append.mpr ⟨htail, List.forall_mem_singleton.mpr ⟨by simp, h.2⟩⟩⟩

theorem length_operands {α : Type} (forms : α → List TokenForm) {rest : List (String × α)} :
    ∀ e ∈ rest, (forms e.2).length < (rest.flatMap (operandForms forms)).length := by
  intro e he
  have hle := (List.sublist_flatten_of_mem (List.mem_map_of_mem (f := operandForms forms) he)).length_le
  rw [List.flatMap_def]
  exact Nat.lt_of_lt_of_le (by simp [operandForms]) hle

theorem reads_operands {α β : Type} {item : Matcher α} {forms : α → List TokenForm} {F : List TokenForm → Prop}
    {signs : List String} {build : α × List (String × α) → Except SyntaxError β} {first : α} {rest : List (String × α)}
    {b : β} (hfirst : item.Reads (forms first) F fun a => a = first)
    (hrest : ∀ e ∈ rest, e.1 ∈ signs ∧ item.Reads (forms e.2) F fun a => a = e.2)
    (sign : ∀ s ∈ signs, ∀ more, F (mark s :: more)) (hbuild : build (first, rest) = .ok b) :
    (construct (do
      let a ← item
      let more ← many (construct (do
        let op ← oneOf signs
        let x ← required item
        return (op.value, x)) .ok)
      return (a, more)) build).Reads (forms first ++ rest.flatMap (operandForms forms))
        (fun more => F more ∧ NextNot signs more) fun x => x = b := by
  have hmany : (many (construct (do
      let op ← oneOf signs
      let x ← required item
      return (op.value, x)) .ok)).Reads (rest.flatMap (operandForms forms)) (fun more => F more ∧ NextNot signs more)
        (List.Forall₂ (fun e x => x = e) rest) := by
    refine Reads.many (F := F) (fun e he => ?_) (fun e he more => sign e.1 (hrest e he).1 _) (by simp [operandForms])
      fun more h => ⟨h.1, (misses_oneOf h.2).bind.construct⟩
    refine Reads.construct (P := fun x => x = e) ?_ fun x hx => ⟨x, rfl, hx⟩
    refine (reads_oneOf (hrest e he).1).seq fun op hop => (hrest e he).2.required.then_pure fun x hx => ?_
    rw [hx, (Prod.mk.inj hop).2]
  refine Reads.construct (P := fun x => x = (first, rest)) ?_ fun x hx => ⟨b, hx ▸ hbuild, rfl⟩
  refine hfirst.bind (fun a ha => hmany.then_pure fun l hl => ?_) fun more h => ?_
  · rw [ha, eq_map_of_forall₂ (f := id) hl, List.map_id]
  · cases rest with
    | nil => exact h.1
    | cons e later => exact sign e.1 (hrest e List.mem_cons_self).1 _

-- ---------------------------------------------------------------------------
-- Reading
-- ---------------------------------------------------------------------------

theorem reads_identifier {name : String} {F : List TokenForm → Prop} :
    Grammar.identifier.Reads [word name] F fun s => s = name :=
  reads_ofKind.then_pure fun _ ht => congrArg Prod.snd ht

theorem misses_identifier {f : TokenForm} (hf : f.1 ≠ .identifier) (more : List TokenForm) :
    Grammar.identifier.Misses (f :: more) := by
  refine Misses.bind (misses_token fun g hg t ht => ?_)
  obtain rfl := Option.some.inj hg
  simpa [← ht, Token.form] using hf

theorem misses_isNumber {f : TokenForm} (hf : f.1 ≠ .decimal ∧ f.1 ≠ .integer) (more : List TokenForm) :
    (token Grammar.isNumber).Misses (f :: more) := by
  refine misses_token fun g hg t ht => ?_
  obtain rfl := Option.some.inj hg
  simpa [Grammar.isNumber, ← ht, Token.form] using hf

theorem reads_isNumber {kind : TokenKind} {value : String} {F : List TokenForm → Prop}
    (hkind : kind = .decimal ∨ kind = .integer) :
    (token Grammar.isNumber).Reads [(kind, value)] F fun t => t.value = value := by
  refine (reads_token fun t ht => ?_).mono fun t ht => (Prod.mk.inj ht).2
  simpa [Grammar.isNumber, (Prod.mk.inj ht).1] using hkind

theorem numeralKind_cases (spelling : String) : numeralKind spelling = .decimal ∨ numeralKind spelling = .integer := by
  unfold numeralKind
  split
  · exact .inr rfl
  · exact .inl rfl

theorem RealFunction.ofName?_name (f : RealFunction) : RealFunction.ofName? f.name = some f := by
  cases f <;> decide

abbrev ExprEnd : List TokenForm → Prop := NextNot ["^", "*", "/", "+", "-"]

section
variable {expr : Matcher Expr} {e : Expr} (he : expr.Reads e.forms ExprEnd fun x => x = e)
include he

theorem reads_parenthesized {F : List TokenForm → Prop} :
    (Grammar.parenthesized expr).Reads (mark "(" :: (e.forms ++ [mark ")"])) F fun x => x = e := by
  refine reads_literal.seq fun _ _ => he.required.bind (fun x hx => ?_) fun more _ => .cons (by decide) _
  exact reads_literal.required.then_pure fun _ _ => hx

theorem reads_functionCall (f : RealFunction) {F : List TokenForm → Prop} :
    (Grammar.functionCall expr).Reads (word f.name :: mark "(" :: (e.forms ++ [mark ")"])) F
      fun p => p = .call f e := by
  have hname : f.name ∈ RealFunction.all.map RealFunction.name := List.mem_map_of_mem (by cases f <;> decide)
  refine Reads.construct (P := fun x => x.1.value = f.name ∧ x.2 = e) ?_ ?_
  · exact (reads_oneOf hname).seq fun t ht => (reads_parenthesized he).required.then_pure fun x hx =>
      ⟨(Prod.mk.inj ht).2, hx⟩
  · rintro ⟨t, x⟩ ⟨ht, rfl⟩
    simp only at ht
    exact ⟨_, by simp only [ht, RealFunction.ofName?_name], rfl⟩

end

section
variable {n : Nat}

theorem reads_primary {expr : Matcher Expr}
    (hexpr : ∀ e : Expr, e.Legible → e.forms.length ≤ n → expr.Reads e.forms ExprEnd fun x => x = e)
    {p : Primary} (hp : p.Legible) (short : p.forms.length ≤ n + 1) {F : List TokenForm → Prop} :
    (Grammar.primary expr).Reads p.forms F fun x => x = p := by
  have hbuilt {part : Grammar.PrimaryPart} (hpart : part = .built p) :
      ∃ b, part.build = .ok b ∧ b = p := ⟨p, by rw [hpart]; rfl, rfl⟩
  cases p with
  | number spelling =>
    obtain ⟨x, hx⟩ := hp
    refine Reads.construct (P := fun part => ∃ t : Token, part = .number t ∧ t.value = spelling) (Reads.firstOf ?_) ?_
    · exact (reads_isNumber (numeralKind_cases spelling)).then_pure fun t ht => ⟨t, rfl, ht⟩
    · rintro _ ⟨t, rfl, rfl⟩
      exact ⟨_, by simp only [Grammar.PrimaryPart.build, Grammar.checkedNumber, hx], rfl⟩
  | pi =>
    refine Reads.construct (P := fun part => part = .built .pi) ?_ fun _ => hbuilt
    refine Reads.firstOf_next (fun more _ => (misses_isNumber (by simp) _).bind) (Reads.firstOf ?_)
    exact reads_literal.then_pure fun _ _ => rfl
  | call f e =>
    have he := hexpr e hp (by simp only [Primary.forms, List.length_cons, List.length_append] at short; omega)
    refine Reads.construct (P := fun part => part = .built (.call f e)) ?_ fun _ => hbuilt
    refine Reads.firstOf_next (fun more _ => (misses_isNumber (by simp) _).bind) ?_
    refine Reads.firstOf_next (fun more _ => (misses_literal (.cons (by cases f <;> decide) _)).bind) (Reads.firstOf ?_)
    exact (reads_functionCall he f).then_pure fun x hx => congrArg _ hx
  | name n =>
    have hmiss {values : List String} (hsub : values ⊆ primaryWords) (more : List TokenForm) :
        NextNot values (word n :: more) := .cons (fun hmem => hp.2 (hsub hmem)) _
    refine Reads.construct (P := fun part => part = .built (.name n)) ?_ fun _ => hbuilt
    refine Reads.firstOf_next (fun more _ => (misses_isNumber (by simp) _).bind) ?_
    refine Reads.firstOf_next (fun more _ => (misses_literal (hmiss (by simp [primaryWords]) _)).bind) ?_
    refine Reads.firstOf_next (fun more _ => (misses_oneOf (hmiss (by simp [primaryWords]) _)).bind.construct.bind)
      (Reads.firstOf ?_)
    exact reads_identifier.then_pure fun x hx => congrArg _ (congrArg _ hx)
  | group e =>
    have he := hexpr e hp (by simp only [Primary.forms, List.length_cons, List.length_append] at short; omega)
    refine Reads.construct (P := fun part => part = .built (.group e)) ?_ fun _ => hbuilt
    refine Reads.firstOf_next (fun more _ => (misses_isNumber (by simp) _).bind) ?_
    refine Reads.firstOf_next (fun more _ => (misses_literal (.cons (by decide) _)).bind) ?_
    refine Reads.firstOf_next (fun more _ => (misses_oneOf (.cons (by decide) _)).bind.construct.bind) ?_
    refine Reads.firstOf_next (fun more _ => (misses_identifier (by simp) _).bind) (Reads.firstOf ?_)
    exact (reads_parenthesized he).then_pure fun x hx => congrArg _ (congrArg _ hx)

/-- The exponent reaches as far as a factor does, so powers lean to the right. -/
theorem reads_power {factor : Matcher Factor} {expr : Matcher Expr}
    (hfactor : ∀ f : Factor, f.Legible → f.forms.length ≤ n → factor.Reads f.forms (NextNot ["^"]) fun x => x = f)
    (hexpr : ∀ e : Expr, e.Legible → e.forms.length ≤ n → expr.Reads e.forms ExprEnd fun x => x = e)
    {p : Power} (hp : p.Legible) (short : p.forms.length ≤ n + 1) :
    (Grammar.power factor expr).Reads p.forms (NextNot ["^"]) fun x => x = p := by
  cases p with
  | base b =>
    refine Reads.construct (P := fun x => x = (b, none)) ?_ fun x hx => ⟨.base b, by rw [hx], rfl⟩
    rw [← List.append_nil (Power.base b).forms]
    refine (reads_primary hexpr hp short).seq fun x hx => ?_
    refine (reads_optional_none fun more hmore => (misses_literal hmore).bind).then_pure fun o ho => ?_
    rw [hx, ho]
  | pow b f =>
    obtain ⟨hb, hf⟩ := hp
    simp only [Power.forms, List.length_append, List.length_cons] at short
    refine Reads.construct (P := fun x => x = (b, some f)) ?_ fun x hx => ⟨.pow b f, by rw [hx], rfl⟩
    refine (reads_primary hexpr hb (by omega)).seq fun x hx => ?_
    have hexponent : (literal "^" >>= fun _ => required factor).Reads (mark "^" :: f.forms) (NextNot ["^"])
        fun y => y = f := reads_literal.seq fun _ _ => (hfactor f hf (by omega)).required
    refine hexponent.optional.then_pure fun o ho => ?_
    obtain ⟨y, rfl, hy⟩ := ho
    rw [hx, hy]

section
variable {factor : Matcher Factor}
  (hfactor : ∀ f : Factor, f.Legible → f.forms.length ≤ n → factor.Reads f.forms (NextNot ["^"]) fun x => x = f)
include hfactor

theorem reads_term {t : Term} (ht : t.Legible) (short : t.forms.length ≤ n) :
    (Grammar.term factor).Reads t.forms (NextNot ["^", "*", "/"]) fun x => x = t := by
  obtain ⟨hhead, htail⟩ := t.legible_parts ht
  rw [t.forms_eq] at short ⊢
  rw [List.length_append] at short
  refine Reads.follow (F := fun more => NextNot ["^"] more ∧ NextNot ["*", "/"] more)
    (reads_operands (hfactor _ hhead (by omega)) (fun e he => ⟨(htail e he).1, ?_⟩)
      (fun sign hsign more => .cons (by revert sign; decide) _) (congrArg Except.ok t.foldl_tail))
    fun more h => ⟨h.mono (by simp), h.mono (by simp)⟩
  have hlt := length_operands Factor.forms e he
  exact hfactor _ (htail e he).2 (by omega)

theorem reads_expression {e : Expr} (he : e.Legible) (short : e.forms.length ≤ n) :
    (Grammar.expression factor).Reads e.forms ExprEnd fun x => x = e := by
  obtain ⟨hhead, htail⟩ := e.legible_parts he
  rw [e.forms_eq] at short ⊢
  rw [List.length_append] at short
  refine Reads.follow (F := fun more => NextNot ["^", "*", "/"] more ∧ NextNot ["+", "-"] more)
    (reads_operands (reads_term hfactor hhead (by omega)) (fun x hx => ⟨(htail x hx).1, ?_⟩)
      (fun sign hsign more => .cons (by revert sign; decide) _) (congrArg Except.ok e.foldl_tail))
    fun more h => ⟨h.mono (by simp), h.mono (by simp)⟩
  have hlt := length_operands Term.forms x hx
  exact reads_term hfactor (htail x hx).2 (by omega)

end

end

theorem Primary.Legible.nextNot {p : Primary} (hp : p.Legible) (more : List TokenForm) :
    NextNot ["-"] (p.forms ++ more) := by
  cases p with
  | number spelling =>
    obtain ⟨x, hx⟩ := hp
    refine .cons (fun hmem => ?_) _
    have hminus : (Decimal.readFloat "-").toOption.isNone = true := by decide
    rw [← List.mem_singleton.mp hmem, hx] at hminus
    cases hminus
  | pi | group => exact .cons (by decide) _
  | call f => exact .cons (by cases f <;> decide) _
  | name n =>
    refine .cons (fun hmem => ?_) _
    exact absurd (List.mem_singleton.mp hmem ▸ hp.1 : IsIdentifier "-") (by decide)

theorem Power.Legible.nextNot {p : Power} (hp : p.Legible) (more : List TokenForm) :
    NextNot ["-"] (p.forms ++ more) := by
  cases p with
  | base b => exact Primary.Legible.nextNot hp more
  | pow b f =>
    rw [Power.forms, List.append_assoc]
    exact Primary.Legible.nextNot hp.1 _

theorem Factor.forms_ne_nil : (f : Factor) → f.forms ≠ []
  | .neg f => by simp [Factor.forms]
  | .power (.base p) | .power (.pow p f) => by cases p <;> simp [Factor.forms, Power.forms, Primary.forms]

/-- A factor has no more levels than tokens. -/
theorem reads_factor {n : Nat} {f : Factor} (hf : f.Legible) (short : f.forms.length ≤ n) :
    (Grammar.factor n).Reads f.forms (NextNot ["^"]) fun x => x = f := by
  induction n generalizing f with
  | zero => exact absurd (List.length_eq_zero_iff.mp (Nat.le_zero.mp short)) f.forms_ne_nil
  | succ n ih =>
    refine Reads.construct (P := fun x => x = f) ?_ fun x hx => ⟨x, rfl, hx⟩
    cases f with
    | neg g =>
      have hg : (Grammar.factor n).Reads g.forms (NextNot ["^"]) fun x => x = g := ih hf (Nat.le_of_succ_le_succ short)
      exact Reads.firstOf (reads_literal.seq fun _ _ => hg.required.then_pure fun x hx => congrArg Factor.neg hx)
    | power p =>
      refine Reads.firstOf_next (fun more _ => (misses_literal (Power.Legible.nextNot hf more)).bind) (Reads.firstOf ?_)
      have hpower := reads_power (fun g => ih) (fun e => reads_expression (fun g => ih)) hf short
      exact hpower.then_pure fun x hx => congrArg Factor.power hx

theorem reads_expr {e : Expr} (he : e.Legible) : Grammar.expr.Reads e.forms ExprEnd fun x => x = e := by
  intro c more hc hmore
  have hlen : e.forms.length ≤ c.rest.length + 1 := by
    have := congrArg List.length hc
    rw [Cursor.forms, List.length_map, List.length_append] at this
    omega
  exact reads_expression (fun f => reads_factor) he hlen c more hc hmore

theorem misses_expr (more : List TokenForm) : Grammar.expr.Misses (mark ")" :: more) := by
  have hfactor (n : Nat) : (Grammar.factor (n + 1)).Misses (mark ")" :: more) := by
    have hprimary (expr : Matcher Expr) : (Grammar.primary expr).Misses (mark ")" :: more) := by
      refine Misses.construct (Misses.firstOf ?_)
      simp only [List.forall_mem_cons]
      exact ⟨(misses_isNumber (by simp) _).bind, (misses_literal (.cons (by decide) _)).bind,
        (misses_oneOf (.cons (by decide) _)).bind.construct.bind, (misses_identifier (by simp) _).bind,
        (misses_literal (.cons (by decide) _)).bind.bind, List.forall_mem_nil _⟩
    refine Misses.construct (Misses.firstOf ?_)
    simp only [List.forall_mem_cons]
    exact ⟨(misses_literal (.cons (by decide) _)).bind, (hprimary _).bind.construct.bind, List.forall_mem_nil _⟩
  exact fun c => (hfactor c.rest.length).bind.construct.bind.construct c

end Sequencer.Qasm
