import Sequencer.Proofs.Qasm.Expressions

/-!
# Programs read back from their tokens

The tokens of a program, construct by construct, and that each construct is read
back from them. A tree has several token sequences: an integer can be spelled in
several ways, and an empty list of parameters may be written or left out. A word
of the grammar is free as a name wherever it cannot be taken for itself.
-/

namespace Sequencer.Qasm

open Matcher

-- ---------------------------------------------------------------------------
-- Trees without places
-- ---------------------------------------------------------------------------

def Call.bare (c : Call) : Call := { c with pos := .start }

def Action.bare : Action → Action
  | .call c => .call c.bare
  | a => a

def GateDeclaration.bare (d : GateDeclaration) : GateDeclaration := { d with body := d.body.map Call.bare }

def StatementBody.bare : StatementBody → StatementBody
  | .gate d => .gate d.bare
  | .guarded guard a => .guarded guard a.bare
  | .action a => .action a.bare
  | body => body

def Statement.bare (st : Statement) : Statement := ⟨.start, st.body.bare⟩

def Program.bare (p : Program) : Program := { p with statements := p.statements.map Statement.bare }

-- ---------------------------------------------------------------------------
-- Tokens of a tree
-- ---------------------------------------------------------------------------

section
variable {α : Type} (R : α → List TokenForm → Prop)

inductive CommaSpelled : List α → List TokenForm → Prop
  | mk {items : List α} {parts : List (List TokenForm)} (nonempty : items ≠ []) (each : List.Forall₂ R items parts) :
      CommaSpelled items (separated parts)

/-- Items between parentheses; without items the parentheses may be left out. -/
inductive ParametersSpelled : List α → List TokenForm → Prop
  | omitted : ParametersSpelled [] []
  | empty : ParametersSpelled [] [mark "(", mark ")"]
  | given {items : List α} {fs : List TokenForm} (list : CommaSpelled R items fs) :
      ParametersSpelled items (mark "(" :: (fs ++ [mark ")"]))

end

inductive IndexSpelled : Option Int → List TokenForm → Prop
  | whole : IndexSpelled none []
  | element {i : Int} {digits : String} (value : Decimal.readIntAnyBase digits = .ok i) :
      IndexSpelled (some i) [mark "[", (.integer, digits), mark "]"]

inductive Argument.Spelled : Argument → List TokenForm → Prop
  | mk {register : String} {index : Option Int} {fs : List TokenForm} (named : IsIdentifier register)
      (index_spelled : IndexSpelled index fs) : Spelled ⟨register, index⟩ (word register :: fs)

def NameSpelled (name : String) (fs : List TokenForm) : Prop := IsIdentifier name ∧ fs = [word name]

def ExprSpelled (e : Expr) (fs : List TokenForm) : Prop := e.Legible ∧ fs = e.forms

inductive Call.Spelled : Call → List TokenForm → Prop
  | mk {pos : Position} {name : String} {params : List Expr} {args : List Argument} {ps as : List TokenForm}
      (named : IsIdentifier name) (params_spelled : ParametersSpelled ExprSpelled params ps)
      (args_spelled : CommaSpelled Argument.Spelled args as) : Spelled ⟨pos, name, params, args⟩ (word name :: (ps ++ as))

inductive Action.Spelled : Action → List TokenForm → Prop
  | measure {source target : Argument} {fs gs : List TokenForm} (source_spelled : source.Spelled fs)
      (target_spelled : target.Spelled gs) :
      Spelled (.measure source target) (word "measure" :: (fs ++ mark "->" :: (gs ++ [mark ";"])))
  | reset {arg : Argument} {fs : List TokenForm} (arg_spelled : arg.Spelled fs) :
      Spelled (.reset arg) (word "reset" :: (fs ++ [mark ";"]))
  | barrier {args : List Argument} {fs : List TokenForm} (args_spelled : CommaSpelled Argument.Spelled args fs) :
      Spelled (.barrier args) (word "barrier" :: (fs ++ [mark ";"]))
  | call {c : Call} {fs : List TokenForm} (free : c.name ∉ ["measure", "reset", "barrier"])
      (call_spelled : c.Spelled fs) : Spelled (.call c) (fs ++ [mark ";"])

inductive BodyCallSpelled : Call → List TokenForm → Prop
  | mk {c : Call} {fs : List TokenForm} (call_spelled : c.Spelled fs) : BodyCallSpelled c (fs ++ [mark ";"])

def statementWords : List String := ["include", "qreg", "creg", "gate", "opaque", "if"]

inductive StatementBody.Spelled : StatementBody → List TokenForm → Prop
  | inclusion {file : String} : Spelled (.inclusion file) [word "include", (.string, file), mark ";"]
  | quantumRegister {name : String} {size : Int} {digits : String} (named : IsIdentifier name)
      (value : Decimal.readIntAnyBase digits = .ok size) :
      Spelled (.quantumRegister name size) [word "qreg", word name, mark "[", (.integer, digits), mark "]", mark ";"]
  | classicalRegister {name : String} {size : Int} {digits : String} (named : IsIdentifier name)
      (value : Decimal.readIntAnyBase digits = .ok size) :
      Spelled (.classicalRegister name size) [word "creg", word name, mark "[", (.integer, digits), mark "]", mark ";"]
  | gate {name : String} {params args : List String} {body : List Call} {ps as : List TokenForm}
      {calls : List (List TokenForm)} (named : IsIdentifier name)
      (params_spelled : ParametersSpelled NameSpelled params ps) (args_spelled : CommaSpelled NameSpelled args as)
      (body_spelled : List.Forall₂ BodyCallSpelled body calls) :
      Spelled (.gate ⟨name, params, args, body⟩)
        (word "gate" :: word name :: (ps ++ (as ++ mark "\x7b" :: (calls.flatten ++ [mark "\x7d"]))))
  | named {name : String} {params args : List String} {ps as : List TokenForm} (named : IsIdentifier name)
      (params_spelled : ParametersSpelled NameSpelled params ps) (args_spelled : CommaSpelled NameSpelled args as) :
      Spelled (.named ⟨name, params, args⟩) (word "opaque" :: word name :: (ps ++ (as ++ [mark ";"])))
  | guarded {register : String} {index : Option Int} {value : Int} {digits : String} {a : Action} {fs gs : List TokenForm}
      (named : IsIdentifier register) (index_spelled : IndexSpelled index fs)
      (value_ok : Decimal.readIntAnyBase digits = .ok value) (action_spelled : a.Spelled gs) :
      Spelled (.guarded ⟨register, index, value⟩ a)
        (word "if" :: mark "(" :: word register :: (fs ++ mark "==" :: (.integer, digits) :: mark ")" :: gs))
  | action {a : Action} {fs : List TokenForm} (free : ∀ c, a = .call c → c.name ∉ statementWords)
      (action_spelled : a.Spelled fs) : Spelled (.action a) fs

inductive Program.Spelled : Program → List TokenForm → Prop
  | mk {version : String} {statements : List Statement} {parts : List (List TokenForm)}
      (each : List.Forall₂ (fun st fs => st.body.Spelled fs) statements parts) :
      Spelled ⟨version, statements⟩ (word "OPENQASM" :: (numeralKind version, version) :: mark ";" :: parts.flatten)

-- ---------------------------------------------------------------------------
-- Lists
-- ---------------------------------------------------------------------------

theorem exists_pairs_of_forall₂ {R : α → β → Prop} {as : List α} {bs : List β} (h : List.Forall₂ R as bs) :
    ∃ pairs : List (α × β), pairs.map Prod.fst = as ∧ pairs.map Prod.snd = bs ∧ ∀ p ∈ pairs, R p.1 p.2 := by
  induction h with
  | nil => exact ⟨[], rfl, rfl, List.forall_mem_nil _⟩
  | @cons a b _ _ hab _ ih =>
    obtain ⟨pairs, rfl, rfl, hall⟩ := ih
    exact ⟨(a, b) :: pairs, rfl, rfl, List.forall_mem_cons.mpr ⟨hab, hall⟩⟩

section
variable {α : Type} {p : Matcher α} {R : α → List TokenForm → Prop} {P : α → α → Prop} {F G : List TokenForm → Prop}
  {items : List α} (hp : ∀ a fs, R a fs → p.Reads fs F (P a))
include hp

theorem CommaSpelled.reads {fs : List TokenForm} (h : CommaSpelled R items fs) (comma : ∀ more, F (mark "," :: more))
    (last : ∀ more, G more → F more ∧ NextNot [","] more) : (commaList p).Reads fs G (List.Forall₂ P items) := by
  obtain ⟨hne, each⟩ := h
  obtain ⟨pairs, rfl, rfl, hall⟩ := exists_pairs_of_forall₂ each
  refine (Reads.commaList (P := fun i => P i.1) (by simpa using hne) (fun i hi => hp _ _ (hall i hi)) comma last).mono ?_
  exact fun l hl => List.forall₂_map_left_iff.mpr hl

theorem ParametersSpelled.reads {fs : List TokenForm} (h : ParametersSpelled R items fs)
    (comma : ∀ more, F (mark "," :: more)) (close : ∀ more, F (mark ")" :: more))
    (none : ∀ more, p.Misses (mark ")" :: more)) :
    (Grammar.parameterList p).Reads fs (NextNot ["("]) (List.Forall₂ P items) := by
  -- between the parentheses the list is read up to the closing one
  have hgiven {fs : List TokenForm} (hlist : (optional (commaList p)).Reads fs
      (fun more => ∃ later, more = mark ")" :: later) fun o => List.Forall₂ P items (Grammar.orEmpty o)) :
      (Grammar.parameterList p).Reads (mark "(" :: (fs ++ [mark ")"])) (NextNot ["("]) (List.Forall₂ P items) := by
    have hinner : (literal "(" >>= fun _ => optional (commaList p) >>= fun o => required (literal ")") >>= fun _ =>
        pure (Grammar.orEmpty o)).Reads (mark "(" :: (fs ++ [mark ")"])) (fun _ => True) (List.Forall₂ P items) := by
      refine reads_literal.seq fun _ _ => hlist.bind (fun o ho => ?_) fun more _ => ⟨more, rfl⟩
      exact reads_literal.required.then_pure fun _ _ => ho
    refine (hinner.follow fun _ _ => trivial).optional.then_pure ?_
    rintro _ ⟨l, rfl, hl⟩
    exact hl
  cases h with
  | omitted =>
    refine (reads_optional_none fun more hmore => (misses_literal hmore).bind).then_pure ?_
    rintro _ rfl
    exact .nil
  | empty =>
    refine hgiven ((reads_optional_none ?_).mono ?_)
    · rintro _ ⟨more, rfl⟩
      exact (none more).bind
    · rintro _ rfl
      exact .nil
  | given list =>
    refine hgiven ((list.reads hp comma ?_).optional.mono ?_)
    · rintro _ ⟨more, rfl⟩
      exact ⟨close more, .cons (by decide) _⟩
    · rintro _ ⟨l, rfl, hl⟩
      exact hl

theorem reads_many {parts : List (List TokenForm)} (each : List.Forall₂ R items parts)
    (next : ∀ a fs, R a fs → ∀ more, F (fs ++ more)) (nonempty : ∀ a fs, R a fs → fs ≠ [])
    (last : ∀ more, G more → F more ∧ p.Misses more) : p.many.Reads parts.flatten G (List.Forall₂ P items) := by
  obtain ⟨pairs, rfl, rfl, hall⟩ := exists_pairs_of_forall₂ each
  have hmany := Reads.many (P := fun i => P i.1) (fun i hi => hp _ _ (hall i hi)) (fun i hi => next _ _ (hall i hi))
    (fun i hi => nonempty _ _ (hall i hi)) last
  rw [← List.flatMap_def]
  exact hmany.mono fun l hl => List.forall₂_map_left_iff.mpr hl

end

-- ---------------------------------------------------------------------------
-- Arguments and calls
-- ---------------------------------------------------------------------------

theorem integerOf_of_form {t : Token} {digits : String} {n : Int} (ht : t.form = (.integer, digits))
    (hn : Decimal.readIntAnyBase digits = .ok n) : Grammar.integerOf t = .ok n := by
  have hvalue : t.value = digits := congrArg Prod.snd ht
  rw [Grammar.integerOf, hvalue, hn]

theorem IndexSpelled.reads {index : Option Int} {fs : List TokenForm} (h : IndexSpelled index fs) :
    (optional Grammar.index).Reads fs (NextNot ["["]) fun o => Grammar.indexValue o = .ok index := by
  cases h with
  | whole =>
    refine (reads_optional_none fun more hmore => (misses_literal hmore).bind).mono ?_
    rintro _ rfl
    rfl
  | @element i digits value =>
    have hindex : Grammar.index.Reads [mark "[", (.integer, digits), mark "]"] (NextNot ["["])
        fun t => t.form = (.integer, digits) := by
      refine reads_literal.seq fun _ _ => reads_ofKind.required.seq fun t ht => ?_
      exact reads_literal.required.then_pure fun _ _ => ht
    refine hindex.optional.mono ?_
    rintro _ ⟨t, rfl, ht⟩
    simp [Grammar.indexValue, integerOf_of_form ht value, Except.map]

theorem Argument.Spelled.reads {a : Argument} {fs : List TokenForm} (h : a.Spelled fs) :
    Grammar.argument.Reads fs (NextNot ["["]) fun x => x = a := by
  obtain @⟨register, index, fs, _, hindex⟩ := h
  refine Reads.construct (P := fun x => x.1 = register ∧ Grammar.indexValue x.2 = .ok index) ?_ ?_
  · exact reads_identifier.seq fun name hname => hindex.reads.then_pure fun o ho => ⟨hname, ho⟩
  · rintro ⟨name, o⟩ ⟨rfl, ho⟩
    exact ⟨⟨name, index⟩, by simp [ho, bind, Except.bind, pure, Except.pure], rfl⟩

theorem nextNot_of_identifier {name : String} (hname : IsIdentifier name) {values : List String}
    (hvalues : ∀ v ∈ values, ¬ IsIdentifier v) (fs : List TokenForm) : NextNot values (word name :: fs) :=
  .cons (fun hmem => hvalues name hmem hname) fs

theorem CommaSpelled.nextNot {α : Type} {R : α → List TokenForm → Prop} {items : List α} {fs : List TokenForm}
    {values : List String} (h : CommaSpelled R items fs) (hR : ∀ a gs, R a gs → ∀ more, NextNot values (gs ++ more))
    (more : List TokenForm) : NextNot values (fs ++ more) := by
  obtain ⟨hne, each⟩ := h
  cases each with
  | nil => exact absurd rfl hne
  | cons hfirst _ =>
    rw [separated, List.append_assoc]
    exact hR _ _ hfirst _

theorem reads_arguments {args : List Argument} {fs : List TokenForm} (h : CommaSpelled Argument.Spelled args fs) :
    (commaList Grammar.argument).Reads fs (NextNot ["[", ","]) fun l => l = args := by
  refine (h.reads (P := fun a x => x = a) (fun a gs ha => ha.reads) (fun _ => .cons (by decide) _)
    fun more hmore => ⟨hmore.mono (by simp), hmore.mono (by simp)⟩).mono fun l hl => ?_
  simpa using eq_map_of_forall₂ (f := id) hl

theorem reads_names {names : List String} {fs : List TokenForm} (h : CommaSpelled NameSpelled names fs) :
    (commaList Grammar.identifier).Reads fs (NextNot [","]) fun l => l = names := by
  refine (h.reads (P := fun a x => x = a) (F := fun _ => True) ?_ (fun _ => trivial)
    fun more hmore => ⟨trivial, hmore⟩).mono fun l hl => ?_
  · rintro a _ ⟨-, rfl⟩
    exact reads_identifier
  · simpa using eq_map_of_forall₂ (f := id) hl

theorem Call.Spelled.reads {c : Call} {fs : List TokenForm} (h : c.Spelled fs) :
    Grammar.call.Reads fs (NextNot ["[", ","]) fun x => x.bare = c.bare := by
  obtain @⟨pos, name, params, args, ps, as, named, hparams, hargs⟩ := h
  refine Reads.located (P := fun x => x = (name, params, args)) ?_ ?_
  · refine reads_identifier.seq fun n hn => ?_
    have hlist : (Grammar.parameterList Grammar.expr).Reads ps (NextNot ["("]) fun l => l = params := by
      refine (hparams.reads (P := fun e x => x = e) (F := ExprEnd) ?_ (fun _ => .cons (by decide) _)
        (fun _ => .cons (by decide) _) misses_expr).mono fun l hl => by simpa using eq_map_of_forall₂ (f := id) hl
      rintro e _ ⟨he, rfl⟩
      exact reads_expr he
    refine hlist.bind (fun l hl => ?_) fun more _ => hargs.nextNot ?_ more
    · exact (reads_arguments hargs).required.then_pure fun as has => by rw [hn, hl, has]
    · rintro a _ ⟨ha, -⟩ more
      exact nextNot_of_identifier ha (by decide) _
  · rintro place _ rfl
    exact ⟨_, rfl, rfl⟩

theorem reads_end {α : Type} {a : α} {P : α → Prop} (h : P a) :
    (required (literal ";") >>= fun _ => pure a).Reads [mark ";"] (fun _ => True) P :=
  reads_literal.required.then_pure fun _ _ => h

/-- The first word of an action decides which one it is. -/
theorem Action.Spelled.reads {a : Action} {fs : List TokenForm} (h : a.Spelled fs) :
    Grammar.action.Reads fs (fun _ => True) fun x => x.bare = a.bare := by
  refine Reads.construct (P := fun x => x.bare = a.bare) ?_ fun x hx => ⟨x, rfl, hx⟩
  cases h with
  | @measure source target fs gs hsource htarget =>
    refine Reads.firstOf (Reads.construct (P := fun x => x.bare = (Action.measure source target).bare) ?_
      fun x hx => ⟨x, rfl, hx⟩)
    refine reads_literal.seq fun _ _ => hsource.reads.required.bind (fun x hx => ?_) fun more _ => .cons (by decide) _
    refine reads_literal.required.seq fun _ _ => htarget.reads.required.bind (fun y hy => ?_)
      fun more _ => .cons (by decide) _
    exact reads_end (by rw [hx, hy])
  | @reset arg fs harg =>
    refine Reads.firstOf_next (fun more _ => (misses_literal (.cons (by decide) _)).bind.construct) (Reads.firstOf ?_)
    refine reads_literal.seq fun _ _ => harg.reads.required.bind (fun x hx => ?_) fun more _ => .cons (by decide) _
    exact reads_end (by rw [hx])
  | @barrier args fs hargs =>
    refine Reads.firstOf_next (fun more _ => (misses_literal (.cons (by decide) _)).bind.construct) ?_
    refine Reads.firstOf_next (fun more _ => (misses_literal (.cons (by decide) _)).bind) (Reads.firstOf ?_)
    refine reads_literal.seq fun _ _ => (reads_arguments hargs).required.bind (fun l hl => ?_)
      fun more _ => .cons (by decide) _
    exact reads_end (by rw [hl])
  | @call c fs free hcall =>
    have hreads := hcall.reads
    obtain @⟨pos, name, params, args, ps, as⟩ := hcall
    have hmiss {values : List String} (hsub : values ⊆ ["measure", "reset", "barrier"]) (more : List TokenForm) :
        NextNot values (word name :: more) := .cons (fun hmem => free (hsub hmem)) _
    refine Reads.firstOf_next (fun more _ => (misses_literal (hmiss (by simp) _)).bind.construct) ?_
    refine Reads.firstOf_next (fun more _ => (misses_literal (hmiss (by simp) _)).bind) ?_
    refine Reads.firstOf_next (fun more _ => (misses_literal (hmiss (by simp) _)).bind) (Reads.firstOf ?_)
    exact hreads.bind (fun x hx => reads_end (congrArg Action.call hx)) fun more _ => .cons (by decide) _

-- ---------------------------------------------------------------------------
-- Statements and programs
-- ---------------------------------------------------------------------------

theorem reads_parameterNames {names : List String} {fs : List TokenForm} (h : ParametersSpelled NameSpelled names fs) :
    (Grammar.parameterList Grammar.identifier).Reads fs (NextNot ["("]) fun l => l = names := by
  refine (h.reads (P := fun a x => x = a) (F := fun _ => True) ?_ (fun _ => trivial) (fun _ => trivial)
    (misses_identifier (by simp))).mono fun l hl => by simpa using eq_map_of_forall₂ (f := id) hl
  rintro a _ ⟨-, rfl⟩
  exact reads_identifier

theorem nextNot_of_names {names : List String} {fs : List TokenForm} (h : CommaSpelled NameSpelled names fs)
    (more : List TokenForm) : NextNot ["("] (fs ++ more) := by
  refine h.nextNot ?_ more
  rintro a _ ⟨ha, rfl⟩ more
  exact nextNot_of_identifier ha (by decide) _

section
variable {F : List TokenForm → Prop}

theorem reads_inclusion {file : String} :
    Grammar.statement.Reads [word "include", (.string, file), mark ";"] F fun st => st.body = .inclusion file := by
  refine Reads.located (P := fun body => body = .inclusion file) (Reads.firstOf ?_) fun pos body hbody => ⟨_, rfl, hbody⟩
  refine reads_literal.seq fun _ _ => reads_ofKind.required.seq fun t ht => reads_literal.required.then_pure fun _ _ => ?_
  exact congrArg StatementBody.inclusion (congrArg Prod.snd ht)

theorem reads_register {keyword name digits : String} {size : Int} (hkeyword : keyword ∈ ["qreg", "creg"])
    (hsize : Decimal.readIntAnyBase digits = .ok size) :
    Grammar.statement.Reads [word keyword, word name, mark "[", (.integer, digits), mark "]", mark ";"] F
      fun st => st.body = if keyword = "qreg" then .quantumRegister name size else .classicalRegister name size := by
  have hinclude : keyword ∉ ["include"] := by
    have hall : ∀ k ∈ ["qreg", "creg"], k ∉ ["include"] := by decide
    exact hall keyword hkeyword
  refine Reads.located (P := fun body => body =
    if keyword = "qreg" then .quantumRegister name size else .classicalRegister name size) ?_
    fun pos body hbody => ⟨_, rfl, hbody⟩
  refine Reads.firstOf_next (fun more _ => (misses_literal (.cons hinclude _)).bind) (Reads.firstOf ?_)
  refine Reads.construct (P := fun x => x.1 = keyword ∧ x.2.1 = name ∧ Grammar.integerOf x.2.2 = .ok size) ?_ ?_
  · refine (reads_oneOf hkeyword).seq fun k hk => reads_identifier.required.seq fun n hn => ?_
    refine reads_literal.required.seq fun _ _ => reads_ofKind.required.seq fun t ht => ?_
    refine reads_literal.required.seq fun _ _ => reads_literal.required.then_pure fun _ _ => ?_
    exact ⟨congrArg Prod.snd hk, hn, integerOf_of_form ht hsize⟩
  · rintro ⟨k, n, t⟩ ⟨rfl, rfl, ht⟩
    exact ⟨_, by simp [ht, bind, Except.bind, pure, Except.pure], rfl⟩

theorem reads_body {body : List Call} {calls : List (List TokenForm)} (h : List.Forall₂ BodyCallSpelled body calls) :
    (many do
      let c ← Grammar.call
      let _ ← required (literal ";")
      return c).Reads calls.flatten (fun more => ∃ later, more = mark "\x7d" :: later)
        fun l => l.map Call.bare = body.map Call.bare := by
  refine (reads_many (P := fun c x => x.bare = c.bare) (F := fun _ => True) ?_ h (fun _ _ _ _ => trivial) ?_ ?_).mono
    fun l hl => eq_map_of_forall₂ (List.forall₂_map_right_iff.mpr hl)
  · rintro c _ ⟨hc⟩
    exact hc.reads.bind (fun x hx => reads_end hx) fun more _ => .cons (by decide) _
  · rintro c _ ⟨hc⟩
    simp
  · rintro _ ⟨more, rfl⟩
    exact ⟨trivial, (Misses.located (misses_identifier (by simp) _).bind).bind⟩

section
variable {name : String} {params args : List String} {ps as : List TokenForm}
  (hparams : ParametersSpelled NameSpelled params ps) (hargs : CommaSpelled NameSpelled args as)
include hparams hargs

theorem reads_gate {body : List Call} {calls : List (List TokenForm)} (hbody : List.Forall₂ BodyCallSpelled body calls) :
    Grammar.statement.Reads
      (word "gate" :: word name :: (ps ++ (as ++ mark "\x7b" :: (calls.flatten ++ [mark "\x7d"])))) F
      fun st => st.body.bare = .gate (GateDeclaration.bare ⟨name, params, args, body⟩) := by
  refine Reads.located (P := fun x => x.bare = .gate (GateDeclaration.bare ⟨name, params, args, body⟩)) ?_
    fun pos body hbody => ⟨_, rfl, hbody⟩
  refine Reads.firstOf_next (fun more _ => (misses_literal (.cons (by decide) _)).bind) ?_
  refine Reads.firstOf_next (fun more _ => (misses_oneOf (.cons (by decide) _)).bind.construct) (Reads.firstOf ?_)
  refine Reads.then_pure (P := fun d => d.bare = GateDeclaration.bare ⟨name, params, args, body⟩) ?_
    fun d hd => congrArg StatementBody.gate hd
  refine Reads.construct (P := fun d => d.bare = GateDeclaration.bare ⟨name, params, args, body⟩) ?_
    fun d hd => ⟨d, rfl, hd⟩
  refine reads_literal.seq fun _ _ => reads_identifier.required.seq fun n hn => ?_
  refine (reads_parameterNames hparams).bind (fun l hl => ?_) fun more _ => ?_
  · refine (reads_names hargs).required.bind (fun m hm => ?_) fun more _ => .cons (by decide) _
    refine reads_literal.required.seq fun _ _ => (reads_body hbody).bind (fun cs hcs => ?_) fun more _ => ⟨more, rfl⟩
    refine reads_literal.required.then_pure fun _ _ => ?_
    rw [GateDeclaration.bare, GateDeclaration.bare, hn, hl, hm, hcs]
  · rw [List.append_assoc]
    exact nextNot_of_names hargs _

theorem reads_named :
    Grammar.statement.Reads (word "opaque" :: word name :: (ps ++ (as ++ [mark ";"]))) F
      fun st => st.body = .named ⟨name, params, args⟩ := by
  refine Reads.located (P := fun body => body = .named ⟨name, params, args⟩) ?_ fun pos body hbody => ⟨_, rfl, hbody⟩
  refine Reads.firstOf_next (fun more _ => (misses_literal (.cons (by decide) _)).bind) ?_
  refine Reads.firstOf_next (fun more _ => (misses_oneOf (.cons (by decide) _)).bind.construct) ?_
  refine Reads.firstOf_next (fun more _ => (misses_literal (.cons (by decide) _)).bind.construct.bind) (Reads.firstOf ?_)
  refine Reads.then_pure (P := fun d => d = ⟨name, params, args⟩) ?_ fun d hd => congrArg StatementBody.named hd
  refine Reads.construct (P := fun d => d = ⟨name, params, args⟩) ?_ fun d hd => ⟨d, rfl, hd⟩
  refine reads_literal.seq fun _ _ => reads_identifier.required.seq fun n hn => ?_
  refine (reads_parameterNames hparams).bind (fun l hl => ?_) fun more _ => ?_
  · refine (reads_names hargs).required.bind (fun m hm => ?_) fun more _ => .cons (by decide) _
    exact reads_literal.required.then_pure fun _ _ => by rw [hn, hl, hm]
  · rw [List.append_assoc]
    exact nextNot_of_names hargs _

end

section
variable {P : Action → Prop} {fs gs : List TokenForm} (ha : Grammar.action.Reads gs F P)
include ha

theorem reads_guarded {register digits : String} {index : Option Int} {value : Int} (hindex : IndexSpelled index fs)
    (hvalue : Decimal.readIntAnyBase digits = .ok value) :
    Grammar.statement.Reads
      (word "if" :: mark "(" :: word register :: (fs ++ mark "==" :: (.integer, digits) :: mark ")" :: gs)) F
      fun st => ∃ a, st.body = .guarded ⟨register, index, value⟩ a ∧ P a := by
  refine Reads.located (P := fun body => ∃ a, body = .guarded ⟨register, index, value⟩ a ∧ P a) ?_
    fun pos body hbody => ⟨_, rfl, hbody⟩
  refine Reads.firstOf_next (fun more _ => (misses_literal (.cons (by decide) _)).bind) ?_
  refine Reads.firstOf_next (fun more _ => (misses_oneOf (.cons (by decide) _)).bind.construct) ?_
  refine Reads.firstOf_next (fun more _ => (misses_literal (.cons (by decide) _)).bind.construct.bind) ?_
  refine Reads.firstOf_next (fun more _ => (misses_literal (.cons (by decide) _)).bind.construct.bind) (Reads.firstOf ?_)
  refine Reads.construct (P := fun x => x.1 = register ∧ Grammar.indexValue x.2.1 = .ok index ∧
    Grammar.integerOf x.2.2.1 = .ok value ∧ P x.2.2.2) ?_ ?_
  · refine reads_literal.seq fun _ _ => reads_literal.required.seq fun _ _ => ?_
    refine reads_identifier.required.seq fun name hname => ?_
    refine hindex.reads.bind (fun o ho => ?_) fun more _ => .cons (by decide) _
    refine reads_literal.required.seq fun _ _ => reads_ofKind.required.seq fun t ht => ?_
    refine reads_literal.required.seq fun _ _ => ha.required.then_pure fun x hx => ?_
    exact ⟨hname, ho, integerOf_of_form ht hvalue, hx⟩
  · rintro ⟨name, o, t, x⟩ ⟨rfl, ho, ht, hx⟩
    exact ⟨_, by simp [ho, ht, bind, Except.bind, pure, Except.pure], x, rfl, hx⟩

theorem reads_unguarded (free : ∀ more, NextNot statementWords (gs ++ more)) :
    Grammar.statement.Reads gs F fun st => ∃ a, st.body = .action a ∧ P a := by
  refine Reads.located (P := fun body => ∃ a, body = .action a ∧ P a) ?_ fun pos body hbody => ⟨_, rfl, hbody⟩
  have hmiss {values : List String} (hsub : values ⊆ statementWords) (more : List TokenForm) :
      NextNot values (gs ++ more) := (free more).mono hsub
  refine Reads.firstOf_next (fun more _ => (misses_literal (hmiss (by simp [statementWords]) _)).bind) ?_
  refine Reads.firstOf_next (fun more _ => (misses_oneOf (hmiss (by simp [statementWords]) _)).bind.construct) ?_
  refine Reads.firstOf_next (fun more _ => (misses_literal (hmiss (by simp [statementWords]) _)).bind.construct.bind) ?_
  refine Reads.firstOf_next (fun more _ => (misses_literal (hmiss (by simp [statementWords]) _)).bind.construct.bind) ?_
  refine Reads.firstOf_next (fun more _ => (misses_literal (hmiss (by simp [statementWords]) _)).bind.construct)
    (Reads.firstOf ?_)
  exact ha.then_pure fun x hx => ⟨x, rfl, hx⟩

end

end

theorem Action.Spelled.nextNot {a : Action} {fs : List TokenForm} (h : a.Spelled fs)
    (free : ∀ c, a = .call c → c.name ∉ statementWords) (more : List TokenForm) :
    NextNot statementWords (fs ++ more) := by
  cases h with
  | measure | reset | barrier => exact .cons (by decide) _
  | call _ hcall =>
    obtain @⟨pos, name, params, args, ps, as⟩ := hcall
    exact .cons (free _ rfl) _

theorem StatementBody.Spelled.reads {body : StatementBody} {fs : List TokenForm} (h : body.Spelled fs) :
    Grammar.statement.Reads fs (fun _ => True) fun st => st.body.bare = body.bare := by
  cases h with
  | inclusion => exact reads_inclusion.mono fun st hst => congrArg bare hst
  | quantumRegister _ value | classicalRegister _ value =>
    exact (reads_register (by simp) value).mono fun st hst => congrArg bare hst
  | gate _ hparams hargs hbody => exact reads_gate hparams hargs hbody
  | named _ hparams hargs => exact (reads_named hparams hargs).mono fun st hst => congrArg bare hst
  | guarded _ hindex hvalue ha =>
    refine (reads_guarded ha.reads hindex hvalue).mono ?_
    rintro st ⟨x, hst, hx⟩
    rw [hst, bare, bare, hx]
  | action free ha =>
    refine (reads_unguarded ha.reads (ha.nextNot free)).mono ?_
    rintro st ⟨x, hst, hx⟩
    rw [hst, bare, bare, hx]

theorem StatementBody.Spelled.ne_nil {body : StatementBody} {fs : List TokenForm} (h : body.Spelled fs) : fs ≠ [] := by
  cases h with
  | action _ ha => cases ha <;> simp
  | _ => simp

theorem misses_statement : Grammar.statement.Misses [] := by
  have hnext (values : List String) : NextNot values [] := by simp [NextNot]
  have hword : Grammar.identifier.Misses [] := (misses_token (by simp)).bind
  have haction : Grammar.action.Misses [] := by
    refine Misses.construct (Misses.firstOf ?_)
    simp only [List.forall_mem_cons]
    exact ⟨(misses_literal (hnext _)).bind.construct, (misses_literal (hnext _)).bind, (misses_literal (hnext _)).bind,
      (Misses.located hword.bind).bind, List.forall_mem_nil _⟩
  refine Misses.located (Misses.firstOf ?_)
  simp only [List.forall_mem_cons]
  exact ⟨(misses_literal (hnext _)).bind, (misses_oneOf (hnext _)).bind.construct,
    (misses_literal (hnext _)).bind.construct.bind, (misses_literal (hnext _)).bind.construct.bind,
    (misses_literal (hnext _)).bind.construct, haction.bind, List.forall_mem_nil _⟩

theorem Program.Spelled.reads {p : Program} {fs : List TokenForm} (h : p.Spelled fs) :
    Grammar.program.Reads fs (fun more => more = []) fun q => q.bare = p.bare := by
  obtain @⟨version, statements, parts, each⟩ := h
  have hstatements : (many Grammar.statement).Reads parts.flatten (fun more => more = [])
      (List.Forall₂ (fun st x => x.bare = st.bare) statements) := by
    refine reads_many (F := fun _ => True) (fun st gs hst => ?_) each (fun _ _ _ _ => trivial)
      (fun st gs hst => hst.ne_nil) ?_
    · exact hst.reads.mono fun x hx => congrArg (Statement.mk .start) hx
    · rintro _ rfl
      exact ⟨trivial, misses_statement⟩
  refine Reads.construct (P := fun q => q.bare = Program.bare ⟨version, statements⟩) ?_ fun q hq => ⟨q, rfl, hq⟩
  refine reads_literal.seq fun _ _ => (reads_isNumber (numeralKind_cases version)).required.seq fun v hv => ?_
  refine reads_literal.required.seq fun _ _ => hstatements.then_pure fun sts hsts => ?_
  have hbare : sts.map Statement.bare = statements.map Statement.bare :=
    eq_map_of_forall₂ (List.forall₂_map_right_iff.mpr hsts)
  rw [Program.bare, Program.bare, hv, hbare]

theorem read_of_lexes {text : String} {fs : List TokenForm} {P : Program → Prop} (hlexes : Lexes text.toList fs)
    (hreads : Grammar.program.Reads fs (fun more => more = []) P) : ∃ p, Grammar.read text = .ok p ∧ P p := by
  obtain ⟨ts, finish, htokens, hforms⟩ := hlexes.tokenize
  obtain ⟨p, c, hp, hP, hrest⟩ := hreads { rest := ts, finish := finish } [] (by simpa [Cursor.forms] using hforms) rfl
  have hempty : c.rest.isEmpty = true := by simpa [Cursor.forms] using hrest
  exact ⟨p, by simp only [Grammar.read, htokens, hp, hempty, ↓reduceIte], hP⟩

end Sequencer.Qasm
