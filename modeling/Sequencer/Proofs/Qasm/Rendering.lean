import Sequencer.Proofs.Qasm.Constructs

/-!
# Programs read back from their text

A program can be written with any blanks and comments between its tokens, and
with none where the first of two tokens ends in front of the second by itself. Its
text is then read as the program again. A comment cannot stand right behind a
slash: it would begin with the slash.
-/

namespace Sequencer.Qasm

open Decimal (StopsAt)

-- ---------------------------------------------------------------------------
-- Texts of a token sequence
-- ---------------------------------------------------------------------------

inductive WrittenAs : TokenForm → List Char → Prop
  | identifier {name : String} (named : IsIdentifier name) : WrittenAs (word name) name.toList
  | integer {digits : List Char} (nonempty : digits ≠ []) (digits_ok : ∀ c ∈ digits, c.isDigit = true) :
      WrittenAs (.integer, String.ofList digits) digits
  | decimal {cs : List Char} (decimal_ok : IsDecimal cs) : WrittenAs (.decimal, String.ofList cs) cs
  | single {c : Char} (mark_ok : c ∈ punctuationMarks) : WrittenAs (mark (String.singleton c)) [c]
  | arrow : WrittenAs (mark "->") ['-', '>']
  | equals : WrittenAs (mark "==") ['=', '=']
  | string {inner value : List Char} (inner_ok : '"' ∉ inner) (means : unquote? inner.length inner = some value) :
      WrittenAs (.string, String.ofList value) ('"' :: (inner ++ ['"']))

/-- Blanks, and comments with the ends of their lines. -/
inductive IsGap : List Char → Prop
  | nil : IsGap []
  | blank {b : Char} {cs : List Char} (blank_ok : isBlank b = true) (more : IsGap cs) : IsGap (b :: cs)
  | comment {text cs : List Char} (text_ok : '\n' ∉ text) (more : IsGap cs) :
      IsGap ('/' :: '/' :: (text ++ '\n' :: cs))

/-- Nothing, or a comment up to the end of the text. -/
def IsTail (cs : List Char) : Prop := cs = [] ∨ ∃ text, '\n' ∉ text ∧ cs = '/' :: '/' :: text

/-- A token as it is written, and what stands between it and the next one. -/
structure Piece where
  form : TokenForm
  text : List Char
  gap : List Char

def Piece.chars (p : Piece) : List Char := p.text ++ p.gap

def renderedText (lead : List Char) (pieces : List Piece) (last : List Char) : String :=
  String.ofList (lead ++ (pieces.flatMap Piece.chars ++ last))

def CutApart (first second : List Char) : Prop := (nextLexeme? (first ++ second)).map (fun x => x.2.1) = some first

instance (first second : List Char) : Decidable (CutApart first second) := inferInstanceAs (Decidable (_ = _))

/-- Tokens that would be one without a gap have a gap between them. -/
structure Rendering (pieces : List Piece) : Prop where
  written : ∀ p ∈ pieces, WrittenAs p.form p.text
  gaps : ∀ p ∈ pieces, IsGap p.gap
  apart : pieces.IsChain fun p q => p.gap = [] → CutApart p.text q.text

theorem Rendering.tail {p : Piece} {pieces : List Piece} (h : Rendering (p :: pieces)) : Rendering pieces :=
  ⟨(List.forall_mem_cons.mp h.written).2, (List.forall_mem_cons.mp h.gaps).2, h.apart.of_cons⟩

-- ---------------------------------------------------------------------------
-- Where a token ends
-- ---------------------------------------------------------------------------

def takesIn (f : TokenForm) (c : Char) : Bool :=
  match f.1 with
  | .identifier => isLetterOrDigit c
  | .integer | .decimal => prolongs c
  | .punctuation => (f.2 = "/" && c = '/') || (f.2 = "-" && c = '>')
  | .string | .endOfText => false

theorem takesIn_mark (c : Char) : takesIn (mark (String.singleton c)) = prolongsMark c := by
  have hsame (d : Char) : String.singleton c = String.singleton d ↔ c = d := by simp [← String.toList_inj]
  have hslash : String.singleton c = "/" ↔ c = '/' := hsame '/'
  have hminus : String.singleton c = "-" ↔ c = '-' := hsame '-'
  funext d
  simp [takesIn, prolongsMark, hslash, hminus, beq_eq_decide]

theorem takesIn_slash {f : TokenForm} (h : takesIn f '/' = true) : f = mark "/" := by
  obtain ⟨kind, value⟩ := f
  cases kind with
  | punctuation => simpa [takesIn] using h
  | _ => simp [takesIn, prolongs, isLetterOrDigit, isLetter] at h

theorem takesIn_blank {b : Char} (hb : isBlank b = true) (f : TokenForm) : takesIn f b = false := by
  have hall : blanks.all (fun d => prolongs d = false ∧ d ≠ '/' ∧ d ≠ '>') = true := by decide
  obtain ⟨hprolongs, hslash, hangle⟩ := of_decide_eq_true (List.all_eq_true.mp hall b (mem_blanks hb))
  obtain ⟨kind, value⟩ := f
  cases kind <;> simp_all [takesIn, prolongs]

theorem WrittenAs.lexes {f : TokenForm} {text rest : List Char} {fs : List TokenForm} (h : WrittenAs f text)
    (ends : StopsAt (takesIn f) rest) (hrest : Lexes rest fs) : Lexes (text ++ rest) (f :: fs) := by
  cases h with
  | identifier named => exact .identifier named ends hrest
  | integer nonempty digits_ok => exact .integer nonempty digits_ok ends hrest
  | decimal decimal_ok => exact .decimal decimal_ok ends hrest
  | single mark_ok => exact .mark mark_ok (takesIn_mark _ ▸ ends) hrest
  | arrow => exact .arrow hrest
  | equals => exact .equals hrest
  | string inner_ok means => exact .quoted inner_ok means hrest

theorem WrittenAs.ne_nil {f : TokenForm} {text : List Char} (h : WrittenAs f text) : text ≠ [] := by
  cases h with
  | identifier named =>
    obtain ⟨c, rest, heq, -⟩ := named
    simp [heq]
  | integer nonempty => exact nonempty
  | decimal decimal_ok =>
    obtain ⟨c, rest, heq, -⟩ := decimal_ok.first
    simp [heq]
  | _ => simp

theorem WrittenAs.stopsAt_mark {value : String} {text : List Char} (h : WrittenAs (mark value) text)
    (rest : List Char) : StopsAt prolongs (text ++ rest) := by
  cases h with
  | single mark_ok =>
    have hall : punctuationMarks.all (fun c => !prolongs c) = true := by decide
    exact .cons (by simpa using List.all_eq_true.mp hall _ mark_ok) _
  | arrow => exact .cons rfl _
  | equals => exact .cons rfl _

/-- A number is told from what follows by the mark behind it, other tokens by
being cut off there. -/
theorem WrittenAs.stopsAt {f : TokenForm} {text next : List Char} (h : WrittenAs f text) (apart : CutApart text next)
    (number : f.1 = .integer ∨ f.1 = .decimal → StopsAt prolongs next) : StopsAt (takesIn f) next := by
  cases h with
  | integer => exact number (.inl rfl)
  | decimal => exact number (.inr rfl)
  | identifier named =>
    obtain ⟨c, tail, heq, hc, htail⟩ := named
    rw [CutApart, heq, List.cons_append, Lexes.nextLexeme?_letter _ hc, List.takeWhile_append_of_pos htail] at apart
    have hnone : next.takeWhile isLetterOrDigit = [] := by simpa using apart
    intro d hd
    obtain ⟨more, rfl⟩ := List.head?_eq_some_iff.mp hd
    by_contra hletter
    simp [takesIn] at hletter
    simp [hletter] at hnone
  | @single c =>
    rw [takesIn_mark]
    intro d hd
    obtain ⟨more, rfl⟩ := List.head?_eq_some_iff.mp hd
    by_contra hprolongs
    simp only [prolongsMark, Bool.not_eq_false, Bool.or_eq_true, Bool.and_eq_true, beq_iff_eq] at hprolongs
    rcases hprolongs with ⟨rfl, rfl⟩ | ⟨rfl, rfl⟩
    · -- a comment
      have hnext : nextLexeme? ('/' :: '/' :: more) =
          some (.dropped, '/' :: '/' :: more.takeWhile (· ≠ '\n'), more.dropWhile (· ≠ '\n')) := rfl
      simp [CutApart, hnext] at apart
    · have hnext : nextLexeme? ('-' :: '>' :: more) = some (.token .punctuation, ['-', '>'], more) := rfl
      simp [CutApart, hnext] at apart
  | arrow | equals => exact fun c _ => by simp [takesIn]
  | string => exact fun c _ => rfl

-- ---------------------------------------------------------------------------
-- Behind a number
-- ---------------------------------------------------------------------------

/-- A mark stands behind each number, and something behind each slash. -/
def Delimited : List TokenForm → Prop
  | [] => True
  | f :: fs => (f.1 = .integer ∨ f.1 = .decimal → ∃ value more, fs = mark value :: more) ∧
      (f = mark "/" → fs ≠ []) ∧ Delimited fs

def DelimitedBefore (fs : List TokenForm) : Prop :=
  ∀ value more, Delimited (mark value :: more) → Delimited (fs ++ mark value :: more)

theorem Delimited.append {fs gs : List TokenForm} (hfs : Delimited fs) (hgs : Delimited gs) : Delimited (fs ++ gs) := by
  induction fs with
  | nil => exact hgs
  | cons f fs ih =>
    obtain ⟨hnumber, hslash, hrest⟩ := hfs
    refine ⟨fun h => ?_, fun h => ?_, ih hrest⟩
    · obtain ⟨value, more, rfl⟩ := hnumber h
      exact ⟨value, more ++ gs, rfl⟩
    · exact List.append_ne_nil_of_left_ne_nil (hslash h) gs

theorem Delimited.before {fs : List TokenForm} (h : Delimited fs) : DelimitedBefore fs := fun _ _ hmore => h.append hmore

theorem Delimited.flatten {α : Type} {R : α → List TokenForm → Prop} {items : List α} {parts : List (List TokenForm)}
    (h : List.Forall₂ R items parts) (hR : ∀ a gs, R a gs → Delimited gs) : Delimited parts.flatten := by
  induction h with
  | nil => trivial
  | cons hfirst _ ih => exact (hR _ _ hfirst).append ih

theorem delimited_word {name : String} {fs : List TokenForm} : Delimited (word name :: fs) ↔ Delimited fs := by
  simp [Delimited]

theorem delimited_mark {value : String} {fs : List TokenForm} (h : value ≠ "/") :
    Delimited (mark value :: fs) ↔ Delimited fs := by
  simp [Delimited, h]

theorem DelimitedBefore.operands {fs gs : List TokenForm} (hfs : DelimitedBefore fs) (hgs : DelimitedBefore gs)
    (sign : String) : DelimitedBefore (fs ++ mark sign :: gs) := by
  intro value more h
  have hright := hgs value more h
  have hsign : Delimited (mark sign :: (gs ++ mark value :: more)) := ⟨by simp, by simp, hright⟩
  simpa using hfs _ _ hsign

theorem DelimitedBefore.group {fs : List TokenForm} (h : DelimitedBefore fs) :
    Delimited (mark "(" :: (fs ++ [mark ")"])) :=
  (delimited_mark (by simp)).mpr (h _ _ ((delimited_mark (by simp)).mpr trivial))

theorem DelimitedBefore.close {fs : List TokenForm} (h : DelimitedBefore fs) : Delimited (fs ++ [mark ";"]) :=
  h _ _ ((delimited_mark (by simp)).mpr trivial)

mutual
theorem Expr.delimited : (e : Expr) → DelimitedBefore e.forms
  | .term t => t.delimited
  | .add e t => e.delimited.operands t.delimited "+"
  | .sub e t => e.delimited.operands t.delimited "-"
theorem Term.delimited : (t : Term) → DelimitedBefore t.forms
  | .factor f => f.delimited
  | .mul t f => t.delimited.operands f.delimited "*"
  | .div t f => t.delimited.operands f.delimited "/"
theorem Factor.delimited : (f : Factor) → DelimitedBefore f.forms
  | .neg f => fun value more h => (delimited_mark (by simp)).mpr (f.delimited value more h)
  | .power p => p.delimited
theorem Power.delimited : (p : Power) → DelimitedBefore p.forms
  | .base p => p.delimited
  | .pow p f => p.delimited.operands f.delimited "^"
theorem Primary.delimited : (p : Primary) → DelimitedBefore p.forms
  | .number _ => fun value more h => ⟨fun _ => ⟨value, more, rfl⟩, by simp, h⟩
  | .pi | .name _ => fun _ _ h => delimited_word.mpr h
  | .call _ e => (delimited_word.mpr e.delimited.group).before
  | .group e => e.delimited.group.before
end

theorem CommaSpelled.delimited {α : Type} {R : α → List TokenForm → Prop} {items : List α} {fs : List TokenForm}
    (h : CommaSpelled R items fs) (hR : ∀ a gs, R a gs → DelimitedBefore gs) : DelimitedBefore fs := by
  obtain ⟨hne, each⟩ := h
  induction each with
  | nil => exact absurd rfl hne
  | @cons a gs items parts hfirst hrest ih =>
    cases hrest with
    | nil => simpa [separated] using hR _ _ hfirst
    | cons hnext hlater => simpa [separated] using (hR _ _ hfirst).operands (ih (by simp)) ","

theorem ParametersSpelled.delimited {α : Type} {R : α → List TokenForm → Prop} {items : List α} {fs : List TokenForm}
    (h : ParametersSpelled R items fs) (hR : ∀ a gs, R a gs → DelimitedBefore gs) : Delimited fs := by
  cases h with
  | omitted => trivial
  | empty => simp [Delimited]
  | given list => exact (list.delimited hR).group

theorem IndexSpelled.delimited {index : Option Int} {fs : List TokenForm} (h : IndexSpelled index fs) : Delimited fs := by
  cases h <;> simp [Delimited]

theorem Argument.Spelled.delimited {a : Argument} {fs : List TokenForm} (h : a.Spelled fs) : Delimited fs := by
  obtain ⟨-, hindex⟩ := h
  exact delimited_word.mpr hindex.delimited

theorem NameSpelled.delimited {name : String} {fs : List TokenForm} (h : NameSpelled name fs) : Delimited fs := by
  obtain ⟨-, rfl⟩ := h
  exact delimited_word.mpr trivial

theorem Call.Spelled.delimited {c : Call} {fs : List TokenForm} (h : c.Spelled fs) : DelimitedBefore fs := by
  obtain ⟨-, hparams, hargs⟩ := h
  have hexprs := hparams.delimited fun e gs he => he.2 ▸ e.delimited
  intro value more hmore
  have hrest := (hargs.delimited fun a gs ha => ha.delimited.before) value more hmore
  simpa [delimited_word] using hexprs.append hrest

theorem Action.Spelled.delimited {a : Action} {fs : List TokenForm} (h : a.Spelled fs) : Delimited fs := by
  cases h with
  | measure hsource htarget =>
    have hrest : Delimited (mark "->" :: _) := (delimited_mark (by simp)).mpr htarget.delimited.before.close
    exact delimited_word.mpr (hsource.delimited.append hrest)
  | reset harg => exact delimited_word.mpr harg.delimited.before.close
  | barrier hargs => exact delimited_word.mpr (hargs.delimited fun a gs ha => ha.delimited.before).close
  | call _ hcall => exact hcall.delimited.close

theorem StatementBody.Spelled.delimited {body : StatementBody} {fs : List TokenForm} (h : body.Spelled fs) :
    Delimited fs := by
  have hnames {names : List String} {as : List TokenForm} (h : CommaSpelled NameSpelled names as) : DelimitedBefore as :=
    h.delimited fun a gs ha => ha.delimited.before
  cases h with
  | inclusion | quantumRegister | classicalRegister => simp [Delimited]
  | gate _ hparams hargs hbody =>
    have hcalls := Delimited.flatten hbody fun c gs hc => by
      obtain ⟨hc⟩ := hc
      exact hc.delimited.close
    have hclose : Delimited [mark "\x7d"] := by simp [Delimited]
    have hblock : Delimited (mark "\x7b" :: _) := (delimited_mark (by simp)).mpr (hcalls.append hclose)
    have hparams := hparams.delimited fun a gs ha => ha.delimited.before
    exact delimited_word.mpr (delimited_word.mpr (hparams.append (hnames hargs _ _ hblock)))
  | named _ hparams hargs =>
    have hparams := hparams.delimited fun a gs ha => ha.delimited.before
    exact delimited_word.mpr (delimited_word.mpr (hparams.append (hnames hargs).close))
  | guarded _ hindex _ ha =>
    have hrest := ha.delimited
    refine delimited_word.mpr ((delimited_mark (by simp)).mpr (delimited_word.mpr (hindex.delimited.append ?_)))
    simpa [Delimited] using hrest
  | action _ ha => exact ha.delimited

theorem Program.Spelled.delimited {p : Program} {fs : List TokenForm} (h : p.Spelled fs) : Delimited fs := by
  obtain @⟨version, statements, parts, each⟩ := h
  have hparts : Delimited parts.flatten := Delimited.flatten each fun st gs hst => hst.delimited
  simpa [Delimited] using hparts

-- ---------------------------------------------------------------------------
-- Texts of a program
-- ---------------------------------------------------------------------------

theorem IsGap.lexes {gap rest : List Char} {fs : List TokenForm} (h : IsGap gap) (hrest : Lexes rest fs) :
    Lexes (gap ++ rest) fs := by
  induction h with
  | nil => exact hrest
  | blank blank_ok _ ih => exact .blank blank_ok ih
  | comment text_ok _ ih => simpa using Lexes.comment text_ok (.cons (by simp) _) (Lexes.blank (b := '\n') rfl ih)

theorem IsTail.lexes {last : List Char} (h : IsTail last) : Lexes last [] := by
  rcases h with rfl | ⟨text, text_ok, rfl⟩
  · exact .done
  · simpa using Lexes.comment text_ok (.nil _) .done

theorem IsGap.stopsAt {f : TokenForm} {gap rest : List Char} (h : IsGap gap)
    (slash : f = mark "/" → gap.head? ≠ some '/') (ends : gap = [] → StopsAt (takesIn f) rest) :
    StopsAt (takesIn f) (gap ++ rest) := by
  cases h with
  | nil => exact ends rfl
  | blank blank_ok => exact .cons (takesIn_blank blank_ok f) _
  | comment =>
    refine .cons ?_ _
    by_contra htakes
    exact slash (takesIn_slash (by simpa using htakes)) rfl

theorem IsTail.stopsAt {f : TokenForm} {last : List Char} (h : IsTail last) (slash : f ≠ mark "/") :
    StopsAt (takesIn f) last := by
  rcases h with rfl | ⟨text, -, rfl⟩
  · exact .nil _
  · refine .cons ?_ _
    by_contra htakes
    exact slash (takesIn_slash (by simpa using htakes))

/-- The pieces are cut where they were put together. The induction goes from the
end of the text, since what stands behind a token decides where it ends. -/
theorem lexes_pieces {pieces : List Piece} {last : List Char} (rendering : Rendering pieces)
    (delimited : Delimited (pieces.map Piece.form)) (slashes : ∀ p ∈ pieces, p.form = mark "/" → p.gap.head? ≠ some '/')
    (hlast : IsTail last) : Lexes (pieces.flatMap Piece.chars ++ last) (pieces.map Piece.form) := by
  induction pieces with
  | nil => exact hlast.lexes
  | cons p pieces ih =>
    obtain ⟨number, slash, hrest⟩ := delimited
    obtain ⟨hslash, hslashes⟩ := List.forall_mem_cons.mp slashes
    have hwritten := rendering.written p List.mem_cons_self
    have hgap := rendering.gaps p List.mem_cons_self
    have hlexes := hgap.lexes (ih rendering.tail hrest hslashes)
    have hends : p.gap = [] → StopsAt (takesIn p.form) (pieces.flatMap Piece.chars ++ last) := by
      intro hnone
      cases pieces with
      | nil => exact hlast.stopsAt fun h => slash h rfl
      | cons q later =>
        have hnext := rendering.written q (by simp)
        have hcut := hwritten.stopsAt ((List.isChain_cons_cons.mp rendering.apart).1 hnone) fun h => by
          obtain ⟨value, more, hform⟩ := number h
          have hmark : WrittenAs (mark value) q.text := (List.cons.inj hform).1 ▸ hnext
          simpa using hmark.stopsAt_mark []
        obtain ⟨c, tail, heq⟩ := List.exists_cons_of_ne_nil hnext.ne_nil
        rw [List.flatMap_cons, Piece.chars, heq]
        exact .cons (hcut c (by simp [heq])) _
    simpa [Piece.chars] using hwritten.lexes (hgap.stopsAt hslash hends) hlexes

/-- A program is read back from each of its texts: any ways to write its tokens,
and any gaps between them that keep them apart. -/
theorem read_rendering {p : Program} {pieces : List Piece} {lead last : List Char}
    (spelled : p.Spelled (pieces.map Piece.form)) (rendering : Rendering pieces) (hlead : IsGap lead)
    (hlast : IsTail last) (slashes : ∀ x ∈ pieces, x.form = mark "/" → x.gap.head? ≠ some '/') :
    ∃ q, Grammar.read (renderedText lead pieces last) = .ok q ∧ q.bare = p.bare := by
  have hlexes := hlead.lexes (lexes_pieces rendering spelled.delimited slashes hlast)
  exact read_of_lexes (by rwa [renderedText, String.toList_ofList]) spelled.reads

/-- A negated power of a power, a quotient and two differences, in that order. -/
def nestedExpr : Expr :=
  let name (n : String) : Factor := .power (.base (.name n))
  let power : Power := .pow (.name "x") (.power (.pow (.number "2") (name "y")))
  .sub (.sub (.term (.div (.factor (.neg (.power power))) (name "c"))) (.factor (name "a"))) (.factor (name "b"))

def nestedCall : Program := ⟨"2", [⟨.start, .action (.call ⟨.start, "g", [nestedExpr], [⟨"q", none⟩]⟩)⟩]⟩

/-- The call without parentheses inside its parameter, and with a gap behind the slash. -/
def nestedPieces (gap : List Char) : List Piece :=
  [⟨word "OPENQASM", "OPENQASM".toList, [' ']⟩, ⟨(.integer, "2"), ['2'], []⟩, ⟨mark ";", [';'], []⟩,
    ⟨word "g", ['g'], []⟩, ⟨mark "(", ['('], []⟩, ⟨mark "-", ['-'], []⟩, ⟨word "x", ['x'], []⟩, ⟨mark "^", ['^'], []⟩,
    ⟨(.integer, "2"), ['2'], []⟩, ⟨mark "^", ['^'], []⟩, ⟨word "y", ['y'], []⟩, ⟨mark "/", ['/'], gap⟩,
    ⟨word "c", ['c'], []⟩, ⟨mark "-", ['-'], []⟩, ⟨word "a", ['a'], []⟩, ⟨mark "-", ['-'], []⟩,
    ⟨word "b", ['b'], []⟩, ⟨mark ")", [')'], []⟩, ⟨word "q", ['q'], []⟩, ⟨mark ";", [';'], []⟩]

theorem spelled_nestedCall (gap : List Char) : nestedCall.Spelled ((nestedPieces gap).map Piece.form) := by
  have hexpr : nestedExpr.Legible := by
    have hnumber : ∃ x, Decimal.readFloat "2" = .ok x := ⟨_, rfl⟩
    simp only [nestedExpr, Expr.Legible, Term.Legible, Factor.Legible, Power.Legible, Primary.Legible, hnumber]
    decide
  have hcall : Call.Spelled ⟨.start, "g", [nestedExpr], [⟨"q", none⟩]⟩ _ :=
    .mk (by decide) (.given (.mk (by simp) (.cons ⟨hexpr, rfl⟩ .nil)))
      (.mk (by simp) (.cons (.mk (by decide) .whole) .nil))
  have hstatement : StatementBody.Spelled (.action (.call ⟨.start, "g", [nestedExpr], [⟨"q", none⟩]⟩)) _ :=
    .action (by rintro _ ⟨⟩; decide) (.call (by decide) hcall)
  have hprogram : nestedCall.Spelled _ := .mk (.cons hstatement .nil)
  exact hprogram

theorem rendering_nestedPieces {gap : List Char} (h : IsGap gap) : Rendering (nestedPieces gap) := by
  have hword {name : String} (hname : IsIdentifier name) : WrittenAs (word name) name.toList := .identifier hname
  have hmark (c : Char) (hc : c ∈ punctuationMarks) : WrittenAs (mark (String.singleton c)) [c] := .single hc
  have htwo : WrittenAs (.integer, "2") ['2'] := .integer (by simp) (by simp)
  refine ⟨?_, ?_, ?_⟩
  · simp only [nestedPieces, List.forall_mem_cons]
    exact ⟨hword (by decide), htwo, hmark ';' (by decide), hword (by decide), hmark '(' (by decide),
      hmark '-' (by decide), hword (by decide), hmark '^' (by decide), htwo, hmark '^' (by decide), hword (by decide),
      hmark '/' (by decide),
      hword (by decide), hmark '-' (by decide), hword (by decide), hmark '-' (by decide), hword (by decide),
      hmark ')' (by decide), hword (by decide), hmark ';' (by decide), List.forall_mem_nil _⟩
  · simp [nestedPieces, h, IsGap.nil, IsGap.blank (b := ' ') rfl .nil]
  · simp only [nestedPieces, List.isChain_cons_cons]
    refine ⟨by simp, ?_⟩
    and_intros
    all_goals first | exact fun _ => by decide | exact .singleton _

theorem read_rendering_nested :
    nestedCall.Spelled ((nestedPieces " //\n".toList).map Piece.form) ∧ Rendering (nestedPieces " //\n".toList) ∧
      ∃ q, Grammar.read (renderedText ['\n'] (nestedPieces " //\n".toList) ['/', '/']) = .ok q ∧
        q.bare = nestedCall.bare := by
  have hgap : IsGap " //\n".toList := .blank rfl (@IsGap.comment [] [] (by simp) .nil)
  refine ⟨spelled_nestedCall _, rendering_nestedPieces hgap, ?_⟩
  exact read_rendering (spelled_nestedCall _) (rendering_nestedPieces hgap) (.blank rfl .nil) (.inr ⟨[], by simp, rfl⟩)
    (by decide)

/-- With a comment right behind it, the slash is lost. -/
theorem comment_behind_slash :
    nestedCall.Spelled ((nestedPieces "//\n".toList).map Piece.form) ∧ Rendering (nestedPieces "//\n".toList) ∧
      ¬ ∃ q, Grammar.read (renderedText [] (nestedPieces "//\n".toList) []) = .ok q ∧ q.bare = nestedCall.bare := by
  have hgap : IsGap "//\n".toList := @IsGap.comment [] [] (by simp) .nil
  have hfails : (Grammar.read (renderedText [] (nestedPieces "//\n".toList) [])).toOption.isNone = true := by
    decide +kernel
  refine ⟨spelled_nestedCall _, rendering_nestedPieces hgap, ?_⟩
  rintro ⟨q, hq, -⟩
  rw [hq] at hfails
  cases hfails

end Sequencer.Qasm
