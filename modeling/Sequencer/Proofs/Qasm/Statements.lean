import Sequencer.Circuit.Source
import Sequencer.Proofs.Circuit.ElementNames
import Sequencer.Proofs.Qasm.Constructs
import Sequencer.Proofs.Qasm.Products
import Sequencer.Qasm.Elaboration

/-!
# Statements read back

The lines that a circuit is written as, and what each of them is read as. No
keyword begins a gate call, so the first word of a line decides which statement
it is.
-/

namespace Sequencer.Qasm

open Matcher
open Decimal (StopsAt)

-- ---------------------------------------------------------------------------
-- Arguments
-- ---------------------------------------------------------------------------

def Argument.text (a : Argument) : String :=
  match a.index with
  | none => a.register
  | some i => elementName a.register i

structure Argument.Plain (a : Argument) : Prop where
  named : IsIdentifier a.register
  small : ∀ i ∈ a.index, ∃ n : Nat, i = n ∧ n < Integer.bound

def indexForms : Option Int → List TokenForm
  | none => []
  | some i => [(.punctuation, "["), (.integer, toString i), (.punctuation, "]")]

def Argument.forms (a : Argument) : List TokenForm := (.identifier, a.register) :: indexForms a.index

theorem Argument.Plain.spells {a : Argument} (h : a.Plain) : Spells a.text a.forms := by
  intro rest gs ends hrest
  obtain ⟨name, index⟩ := a
  cases index with
  | none => exact Lexes.word h.named ends hrest
  | some i =>
    obtain ⟨n, rfl, -⟩ := h.small i rfl
    have hclose := Lexes.mark (c := ']') (by decide) (fun c _ => rfl) hrest
    have hindex := Lexes.numeral (n := n) (.cons rfl _) hclose
    have hopen := Lexes.word h.named (.cons rfl _) (Lexes.mark (c := '[') (by decide) (fun c _ => rfl) hindex)
    simpa [Argument.text, toList_elementName, Argument.forms, indexForms] using hopen

theorem Argument.Plain.spelled_index {a : Argument} (h : a.Plain) : IndexSpelled a.index (indexForms a.index) := by
  obtain ⟨register, index⟩ := a
  cases index with
  | none => exact .whole
  | some i =>
    obtain ⟨n, rfl, hn⟩ := h.small i rfl
    exact .element (Decimal.readIntAnyBase_toString hn)

theorem Argument.Plain.spelled {a : Argument} (h : a.Plain) : a.Spelled a.forms :=
  .mk h.named h.spelled_index

section
variable {args : List Argument} (plain : ∀ a ∈ args, a.Plain) (hne : args ≠ [])
include plain hne

theorem spells_arguments : Spells (Circuit.joined (args.map Argument.text)) (separated (args.map Argument.forms)) := by
  refine Spells.joined ?_ (by simpa using hne)
  rw [List.forall₂_map_left_iff, List.forall₂_map_right_iff, List.forall₂_same]
  exact fun a ha => (plain a ha).spells

theorem spelled_arguments : CommaSpelled Argument.Spelled args (separated (args.map Argument.forms)) :=
  .mk hne (List.forall₂_map_right_iff.mpr (List.forall₂_same.mpr fun a ha => (plain a ha).spelled))

end

-- ---------------------------------------------------------------------------
-- Calls
-- ---------------------------------------------------------------------------

def paramForms : List (List TokenForm) → List TokenForm
  | [] => []
  | parts => (.punctuation, "(") :: separated parts ++ [(.punctuation, ")")]

def ReadAs (params values : List Float) : Prop :=
  List.Forall₂ (fun v w => Evaluates (Parameter.text v) w) params values

theorem ReadAs.spelled {params values : List Float} (h : ReadAs params values) :
    ∃ exprs : List Expr, List.Forall₂ Spells (params.map Parameter.text) (exprs.map Expr.forms) ∧
      (∀ e ∈ exprs, e.Legible) ∧ evalAll {} exprs = .ok values := by
  induction h with
  | nil => exact ⟨[], .nil, by simp, rfl⟩
  | cons hfirst _ ih =>
    obtain ⟨e, hspells, legible, heval⟩ := hfirst.spelled
    obtain ⟨exprs, hexprs, hall, hevals⟩ := ih
    refine ⟨e :: exprs, .cons hspells hexprs, List.forall_mem_cons.mpr ⟨legible, hall⟩, ?_⟩
    simp only [evalAll] at hevals
    simp [evalAll, List.mapM_cons, heval, hevals, bind, Except.bind, pure, Except.pure]

theorem spelled_parameters {exprs : List Expr} (h : ∀ e ∈ exprs, e.Legible) :
    ParametersSpelled ExprSpelled exprs (paramForms (exprs.map Expr.forms)) := by
  cases exprs with
  | nil => exact .omitted
  | cons e rest =>
    refine .given (.mk (List.cons_ne_nil e rest) (List.forall₂_map_right_iff.mpr (List.forall₂_same.mpr fun x hx => ?_)))
    exact ⟨h x hx, rfl⟩

def headText (name : String) (params : List Float) : String :=
  if params.isEmpty then name else name ++ "(" ++ Parameter.texts params ++ ")"

theorem spells_head {name : String} (hname : IsIdentifier name) {params : List Float}
    {parts : List (List TokenForm)} (h : List.Forall₂ Spells (params.map Parameter.text) parts) :
    Spells (headText name params) ((.identifier, name) :: paramForms parts) := by
  intro rest gs ends hrest
  cases params with
  | nil =>
    obtain rfl : parts = [] := List.eq_nil_of_length_eq_zero (by simpa using h.length_eq.symm)
    exact Lexes.word hname ends hrest
  | cons v params =>
    have hlist := Spells.joined h (by simp)
    have hclose := Lexes.mark (c := ')') (by decide) (fun _ _ => rfl) hrest
    have hopen := Lexes.word hname (.cons rfl _)
      (Lexes.mark (c := '(') (by decide) (fun _ _ => rfl) (hlist (.cons rfl _) hclose))
    obtain ⟨p, parts, rfl⟩ : ∃ p later, parts = p :: later := by
      cases parts with
      | nil => simp at h
      | cons p later => exact ⟨p, later, rfl⟩
    simpa [headText, paramForms, Parameter.texts] using hopen

-- ---------------------------------------------------------------------------
-- Phrases
-- ---------------------------------------------------------------------------

/-- The text begins with the word, ends by itself, and is read as something with
the property. -/
def Phrase {α : Type} (p : Matcher α) (text first : String) (P : α → Prop) : Prop :=
  ∃ fs, (∀ ⦃rest gs⦄, Lexes rest gs → Lexes (text.toList ++ rest) ((.identifier, first) :: fs ++ gs)) ∧
    p.Reads ((.identifier, first) :: fs) (fun _ => True) P

theorem lexes_end {rest : List Char} {gs : List TokenForm} (h : Lexes rest gs) :
    Lexes (';' :: '\n' :: rest) ((.punctuation, ";") :: gs) :=
  Lexes.mark (c := ';') (by decide) (fun _ _ => rfl) (Lexes.blank (b := '\n') rfl h)

theorem Action.eq_of_bare {a x : Action} (h : x.bare = a.bare) (hcall : ∀ c, a ≠ .call c) : x = a := by
  cases a with
  | call c => exact absurd rfl (hcall c)
  | _ =>
    cases x with
    | call c => cases h
    | _ => exact h

theorem Action.exists_call_of_bare {c : Call} {x : Action} (h : x.bare = (Action.call c).bare) :
    ∃ d : Call, x = .call d ∧ d.name = c.name ∧ d.args = c.args ∧ d.params = c.params := by
  cases x with
  | call d =>
    have hbare : d.bare = c.bare := Action.call.inj h
    obtain ⟨-, hname, hparams, hargs⟩ := Call.mk.inj hbare
    exact ⟨d, rfl, hname, hargs, hparams⟩
  | _ => cases h

section
variable {args : List Argument} (plain : ∀ a ∈ args, a.Plain) (hne : args ≠ [])
include plain hne

theorem phrase_call {name : String} (hname : IsIdentifier name) (hword : name ∉ ["measure", "reset", "barrier"])
    {params values : List Float} (h : ReadAs params values) :
    Phrase Grammar.action (headText name params ++ " " ++ Circuit.joined (args.map Argument.text) ++ ";\n") name
      fun a => ∃ c : Call, a = .call c ∧ c.name = name ∧ c.args = args ∧ evalAll {} c.params = .ok values := by
  obtain ⟨exprs, hexprs, legible, heval⟩ := h.spelled
  have hspelled : (Action.call ⟨.start, name, exprs, args⟩).Spelled _ :=
    .call hword (.mk hname (spelled_parameters legible) (spelled_arguments plain hne))
  refine ⟨paramForms (exprs.map Expr.forms) ++ separated (args.map Argument.forms) ++ [(.punctuation, ";")], ?_, ?_⟩
  · intro rest gs hrest
    have hargs := spells_arguments plain hne (.cons rfl _) (lexes_end hrest)
    have hhead := spells_head hname hexprs (.cons rfl _) (Lexes.blank (b := ' ') rfl hargs)
    simpa using hhead
  · refine hspelled.reads.mono fun x hx => ?_
    obtain ⟨c, rfl, hname, hargs, hparams⟩ := Action.exists_call_of_bare hx
    exact ⟨c, rfl, hname, hargs, hparams ▸ heval⟩

theorem phrase_barrier :
    Phrase Grammar.action ("barrier " ++ Circuit.joined (args.map Argument.text) ++ ";\n") "barrier"
      fun a => a = .barrier args := by
  refine ⟨separated (args.map Argument.forms) ++ [(.punctuation, ";")], ?_, ?_⟩
  · intro rest gs hrest
    have hargs := spells_arguments plain hne (.cons rfl _) (lexes_end hrest)
    have hword := Lexes.word (by decide : IsIdentifier "barrier") (.cons rfl _) (Lexes.blank (b := ' ') rfl hargs)
    simpa using hword
  · exact (Action.Spelled.barrier (spelled_arguments plain hne)).reads.mono fun x hx => Action.eq_of_bare hx nofun

end

theorem phrase_reset {q : Argument} (hq : q.Plain) :
    Phrase Grammar.action ("reset " ++ q.text ++ ";\n") "reset" fun a => a = .reset q := by
  refine ⟨q.forms ++ [(.punctuation, ";")], ?_, ?_⟩
  · intro rest gs hrest
    have harg := hq.spells (.cons rfl _) (lexes_end hrest)
    have hword := Lexes.word (by decide : IsIdentifier "reset") (.cons rfl _) (Lexes.blank (b := ' ') rfl harg)
    simpa using hword
  · exact (Action.Spelled.reset hq.spelled).reads.mono fun x hx => Action.eq_of_bare hx nofun

theorem phrase_measure {q b : Argument} (hq : q.Plain) (hb : b.Plain) :
    Phrase Grammar.action ("measure " ++ q.text ++ " -> " ++ b.text ++ ";\n") "measure"
      fun a => a = .measure q b := by
  refine ⟨q.forms ++ (.punctuation, "->") :: (b.forms ++ [(.punctuation, ";")]), ?_, ?_⟩
  · intro rest gs hrest
    have htarget := hb.spells (.cons rfl _) (lexes_end hrest)
    have hsource := hq.spells (.cons rfl _)
      (Lexes.blank (b := ' ') rfl (Lexes.arrow (Lexes.blank (b := ' ') rfl htarget)))
    have hword := Lexes.word (by decide : IsIdentifier "measure") (.cons rfl _) (Lexes.blank (b := ' ') rfl hsource)
    simpa using hword
  · exact (Action.Spelled.measure hq.spelled hb.spelled).reads.mono fun x hx => Action.eq_of_bare hx nofun

-- ---------------------------------------------------------------------------
-- Whole statements
-- ---------------------------------------------------------------------------

theorem Phrase.unguarded {text first : String} {P : Action → Prop} (h : Phrase Grammar.action text first P)
    (hword : first ∉ ["include", "qreg", "creg", "gate", "opaque", "if"]) :
    Phrase Grammar.statement text first fun st => ∃ a, st.body = .action a ∧ P a := by
  obtain ⟨fs, hlexes, hreads⟩ := h
  exact ⟨fs, hlexes, reads_unguarded hreads fun more => .cons hword _⟩

theorem Phrase.guarded {text first : String} {P : Action → Prop} (h : Phrase Grammar.action text first P)
    {guard : Argument} (hguard : guard.Plain) {value : Nat} (small : value < Integer.bound) :
    Phrase Grammar.statement ("if(" ++ guard.text ++ "==" ++ toString value ++ ") " ++ text) "if" fun st =>
      ∃ a, st.body = .guarded ⟨guard.register, guard.index, value⟩ a ∧ P a := by
  obtain ⟨fs, hlexes, hreads⟩ := h
  refine ⟨(.punctuation, "(") :: (guard.forms ++ (.punctuation, "==") :: (.integer, toString (value : Int)) ::
    (.punctuation, ")") :: (.identifier, first) :: fs), ?_, ?_⟩
  · intro rest gs hrest
    have hclose := Lexes.mark (c := ')') (by decide) (fun _ _ => rfl) (Lexes.blank (b := ' ') rfl (hlexes hrest))
    have hvalue := Lexes.numeral (n := value) (.cons rfl _) hclose
    have hopen := Lexes.mark (c := '(') (by decide) (fun _ _ => rfl) (hguard.spells (.cons rfl _) (Lexes.equals hvalue))
    have hword := Lexes.word (by decide : IsIdentifier "if") (.cons rfl _) hopen
    simpa using hword
  · exact reads_guarded hreads hguard.spelled_index (Decimal.readIntAnyBase_toString small)

theorem phrase_register {keyword name : String} (hkeyword : keyword ∈ ["qreg", "creg"]) (hname : IsIdentifier name)
    {size : Nat} (small : size < Integer.bound) :
    Phrase Grammar.statement (keyword ++ " " ++ name ++ "[" ++ toString size ++ "];\n") keyword fun st =>
      st.body = if keyword = "qreg" then .quantumRegister name size else .classicalRegister name size := by
  have hword : IsIdentifier keyword := by
    have hall : ∀ k ∈ ["qreg", "creg"], IsIdentifier k := by decide
    exact hall keyword hkeyword
  refine ⟨(.identifier, name) :: (.punctuation, "[") :: (.integer, toString (size : Int)) ::
    (.punctuation, "]") :: [(.punctuation, ";")], ?_, ?_⟩
  · intro rest gs hrest
    have hclose := Lexes.mark (c := ']') (by decide) (fun _ _ => rfl) (lexes_end hrest)
    have hsize := Lexes.numeral (n := size) (.cons rfl _) hclose
    have hopen := Lexes.word hname (.cons rfl _) (Lexes.mark (c := '[') (by decide) (fun _ _ => rfl) hsize)
    have hfirst := Lexes.word hword (.cons rfl _) (Lexes.blank (b := ' ') rfl hopen)
    simpa using hfirst
  · exact reads_register hkeyword (Decimal.readIntAnyBase_toString small)

def channelArguments (arity : Nat) : List String := (List.range arity).map fun i => "a" ++ toString i

theorem isIdentifier_argument (i : Nat) : IsIdentifier ("a" ++ toString i) := by
  refine ⟨'a', Nat.toDigits 10 i, by simp, rfl, fun d hd => ?_⟩
  simp [isLetterOrDigit, Decimal.isDigit_numeral hd]

theorem phrase_channel {name : String} (hname : IsIdentifier name) {arity : Nat} (hpos : 0 < arity) :
    Phrase Grammar.statement ("opaque " ++ name ++ "(p) " ++ Circuit.joined (channelArguments arity) ++ ";\n") "opaque"
      fun st => st.body = .named ⟨name, ["p"], channelArguments arity⟩ := by
  have hnamed : ∀ a ∈ channelArguments arity, IsIdentifier a := by
    intro a ha
    obtain ⟨i, -, rfl⟩ := List.mem_map.mp ha
    exact isIdentifier_argument i
  have hne : channelArguments arity ≠ [] := by
    simp [channelArguments]
    omega
  generalize channelArguments arity = args at hnamed hne ⊢
  refine ⟨(.identifier, name) :: (paramForms [[(.identifier, "p")]] ++
    (separated (args.map fun a => [(.identifier, a)]) ++ [(.punctuation, ";")])), ?_, ?_⟩
  · intro rest gs hrest
    have hspells : Spells (Circuit.joined args) (separated (args.map fun a => [(.identifier, a)])) := by
      refine Spells.joined ?_ hne
      rw [List.forall₂_map_right_iff, List.forall₂_same]
      exact fun a ha _ _ ends h => Lexes.word (hnamed a ha) ends h
    have hclose := Lexes.mark (c := ')') (by decide) (fun _ _ => rfl)
      (Lexes.blank (b := ' ') rfl (hspells (.cons rfl _) (lexes_end hrest)))
    have hparam := Lexes.word (by decide : IsIdentifier "p") (.cons rfl _) hclose
    have hopen := Lexes.word hname (.cons rfl _) (Lexes.mark (c := '(') (by decide) (fun _ _ => rfl) hparam)
    have hfirst := Lexes.word (by decide : IsIdentifier "opaque") (.cons rfl _) (Lexes.blank (b := ' ') rfl hopen)
    simpa [paramForms, separated] using hfirst
  · have hparams : ParametersSpelled NameSpelled ["p"] (paramForms [[(.identifier, "p")]]) :=
      .given (.mk (by simp) (.cons ⟨by decide, rfl⟩ .nil))
    have hargs : CommaSpelled NameSpelled args (separated (args.map fun a => [(.identifier, a)])) :=
      .mk hne (List.forall₂_map_right_iff.mpr (List.forall₂_same.mpr fun a ha => ⟨hnamed a ha, rfl⟩))
    exact reads_named hparams hargs

-- ---------------------------------------------------------------------------
-- Programs
-- ---------------------------------------------------------------------------

/-- A line with what it is read as. -/
abbrev Line := String × (Statement → Prop)

section
variable {lines : List Line} {forms : Line → List TokenForm}

theorem lexes_lines
    (h : ∀ l ∈ lines, ∀ ⦃rest gs⦄, Lexes rest gs → Lexes (l.1.toList ++ rest) (forms l ++ gs)) {rest : List Char}
    {gs : List TokenForm} (hrest : Lexes rest gs) :
    Lexes ((String.join (lines.map Prod.fst)).toList ++ rest) (lines.flatMap forms ++ gs) := by
  induction lines with
  | nil => exact hrest
  | cons l lines ih =>
    obtain ⟨hl, hlines⟩ := List.forall_mem_cons.mp h
    simpa using hl (ih hlines)

theorem reads_program (nonempty : ∀ l ∈ lines, forms l ≠ [])
    (h : ∀ l ∈ lines, Grammar.statement.Reads (forms l) (fun _ => True) l.2) :
    Grammar.program.Reads (versionForms ++ (inclusionForms ++ lines.flatMap forms)) (fun more => more = []) fun p =>
      ∃ st sts, p.statements = st :: sts ∧ st.body = .inclusion "qelib1.inc" ∧ List.Forall₂ (fun l st => l.2 st) lines sts := by
  -- the inclusion is the first of the statements
  have hall : ∀ i ∈ (inclusionForms, fun st => st.body = .inclusion "qelib1.inc") ::
      lines.map (fun l => (forms l, l.2)), Grammar.statement.Reads i.1 (fun _ => True) i.2 :=
    List.forall_mem_cons.mpr ⟨reads_inclusion, List.forall_mem_map.mpr h⟩
  have hmany := Reads.many (G := fun more => more = []) hall (fun _ _ _ => trivial)
    (List.forall_mem_cons.mpr ⟨by decide, List.forall_mem_map.mpr nonempty⟩) (by
      rintro _ rfl
      exact ⟨trivial, misses_statement⟩)
  rw [List.flatMap_cons, List.flatMap_map] at hmany
  have hversion : (token Grammar.isNumber).Reads [(.decimal, "2.0")] (fun _ => True) fun _ => True :=
    (reads_token fun t ht => by simp [Grammar.isNumber, (Prod.mk.inj ht).1]).mono fun _ _ => trivial
  refine Reads.construct (P := fun p : Program => ∃ st sts, p.statements = st :: sts ∧
    st.body = .inclusion "qelib1.inc" ∧ List.Forall₂ (fun l st => l.2 st) lines sts) ?_ fun p hp => ⟨p, rfl, hp⟩
  refine reads_literal.seq fun _ _ => hversion.required.seq fun version _ => reads_literal.required.seq fun _ _ => ?_
  refine hmany.then_pure ?_
  rintro _ (_ | ⟨hst, hsts⟩)
  exact ⟨_, _, rfl, hst, by simpa using hsts⟩

end

/-- A program is read line by line; blank lines between them do not matter. -/
theorem read_lines {before after : List Line}
    (h : ∀ l ∈ before ++ after, ∃ first, Phrase Grammar.statement l.1 first l.2) {gap : String} (hgap : gap ∈ ["", "\n"]) :
    ∃ p st sts, Grammar.read (headingText ++ String.join (before.map Prod.fst) ++ gap ++
        String.join (after.map Prod.fst)) = .ok p ∧
      p.statements = st :: sts ∧ st.body = .inclusion "qelib1.inc" ∧
      List.Forall₂ (fun l st => l.2 st) (before ++ after) sts := by
  unfold Phrase at h
  choose! first forms hlexes hreads using h
  have hafter := lexes_lines (fun l hl => hlexes l (List.mem_append_right _ hl)) Lexes.done
  have hbody : Lexes (gap.toList ++ ((String.join (after.map Prod.fst)).toList ++ []))
      (after.flatMap (fun l => (.identifier, first l) :: forms l) ++ []) := by
    rcases List.mem_cons.mp hgap with rfl | hgap
    · exact hafter
    · rw [List.mem_singleton.mp hgap]
      exact Lexes.blank (b := '\n') rfl hafter
  have htext := (lexes_lines (fun l hl => hlexes l (List.mem_append_left _ hl)) hbody).heading
  have hwhole : Lexes (headingText ++ String.join (before.map Prod.fst) ++ gap ++
      String.join (after.map Prod.fst)).toList (versionForms ++ (inclusionForms ++
        (before ++ after).flatMap fun l => (.identifier, first l) :: forms l)) := by
    simpa using htext
  obtain ⟨p, hread, st, sts, hparts⟩ := read_of_lexes hwhole (reads_program (fun _ _ => List.cons_ne_nil _ _) hreads)
  exact ⟨p, st, sts, hread, hparts⟩

end Sequencer.Qasm
