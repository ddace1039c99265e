import Mathlib.Data.List.Forall2
import Sequencer.Proofs.Associations
import Sequencer.Proofs.Qasm.Elaborated

/-!
# User-defined gates come down to primitive calls

A gate name stands for what it is declared as where it is called. A call of a
user-defined gate stands for the calls of its body, and so on, until only gates
are left that the builder has calls for. This ends for every program: bodies
call known names only, a gate is declared once, and a channel that is declared
later takes the place of a gate, but no gate takes the place of a channel.
-/

namespace Sequencer.Qasm

inductive Callee where
  | single (name : String)
  | controlled (base : String) (controls : Nat)
  | channel (d : NamedDeclaration)
  | user (d : GateDeclaration)

/-- A name stands for a built-in gate, else for one with repeated control
letters, else for a declared channel, else for a user-defined gate. -/
def Scope.resolve (s : Scope) (gate : String) : Option Callee :=
  let name := builtinName gate
  if (Gate.single? name).isSome then some (.single name)
  else match Gate.splitControls name with
  | some (base, n) => some (.controlled base n)
  | none =>
    match s.channels.get? name with
    | some d => some (.channel d)
    | none => (s.gates.find? fun d => d.name = name).map .user

section
variable (resolve : String → Option Callee)

inductive PrimitiveCall (i : Instance) : BuildCall → Prop
  | single {name qubit : String} (resolved : resolve i.gate = some (.single name)) (qubits : i.qubits = [qubit])
      (params : i.params.length = Gate.arity name) : PrimitiveCall i (.gate name qubit i.params i.cond)
  | controlled {base target : String} {controls : List String}
      (resolved : resolve i.gate = some (.controlled base controls.length))
      (qubits : i.qubits = controls ++ [target]) (params : i.params.length = Gate.arity base) :
      PrimitiveCall i (.controlled base controls target i.params i.cond)
  | channel {d : NamedDeclaration} (resolved : resolve i.gate = some (.channel d))
      (qubits : i.qubits.length = d.args.length) (params : i.params.length = Gate.arity (builtinName i.gate))
      (free : i.cond = none) : PrimitiveCall i (.named (builtinName i.gate) i.qubits i.params none)

/-- A call of a body as an instance: its parameters have values under those of
the formal parameters, its arguments are qubits in place of formal ones, and it
has the condition of the gate. -/
structure Inlined (d : GateDeclaration) (i : Instance) (call : Call) (inner : Instance) : Prop where
  gate : inner.gate = call.name
  params : evalAll (Assoc.ofList (d.params.zip i.params)) call.params = .ok inner.params
  qubits : List.Forall₂ (fun a q => (Assoc.ofList (d.args.zip i.qubits)).get? a.register = some q)
    call.args inner.qubits
  cond : inner.cond = i.cond

/-- The calls of the builder that instances come down to, one after the other. -/
inductive Expands : List Instance → List BuildCall → Prop
  | nil : Expands [] []
  | primitive {i : Instance} {call : BuildCall} {more : List Instance} {back : List BuildCall}
      (first : PrimitiveCall resolve i call) (rest : Expands more back) : Expands (i :: more) (call :: back)
  | inline {i : Instance} {d : GateDeclaration} {inner more : List Instance} {front back : List BuildCall}
      (resolved : resolve i.gate = some (.user d)) (params : i.params.length = d.params.length)
      (qubits : i.qubits.length = d.args.length) (body : List.Forall₂ (Inlined d i) d.body inner)
      (first : Expands inner front) (rest : Expands more back) : Expands (i :: more) (front ++ back)

def CalledBy (callee caller : String) : Prop :=
  ∃ d, resolve caller = some (.user d) ∧ ∃ call ∈ d.body, call.name = callee

end

-- ---------------------------------------------------------------------------
-- One expansion
-- ---------------------------------------------------------------------------

section
variable {resolve : String → Option Callee}

section
variable {i : Instance} {call : BuildCall}

theorem primitiveCall_single {name : String} (h : resolve i.gate = some (.single name)) :
    PrimitiveCall resolve i call ↔ ∃ qubit, i.qubits = [qubit] ∧ i.params.length = Gate.arity name ∧
      call = .gate name qubit i.params i.cond := by
  constructor
  · intro hcall
    cases hcall with
    | single resolved qubits params =>
      cases h.symm.trans resolved
      exact ⟨_, qubits, params, rfl⟩
    | controlled resolved | channel resolved => cases h.symm.trans resolved
  · rintro ⟨qubit, qubits, params, rfl⟩
    exact .single h qubits params

theorem primitiveCall_controlled {base : String} {n : Nat} (h : resolve i.gate = some (.controlled base n)) :
    PrimitiveCall resolve i call ↔ ∃ controls target, controls.length = n ∧ i.qubits = controls ++ [target] ∧
      i.params.length = Gate.arity base ∧ call = .controlled base controls target i.params i.cond := by
  constructor
  · intro hcall
    cases hcall with
    | controlled resolved qubits params =>
      cases h.symm.trans resolved
      exact ⟨_, _, rfl, qubits, params, rfl⟩
    | single resolved | channel resolved => cases h.symm.trans resolved
  · rintro ⟨controls, target, rfl, qubits, params, rfl⟩
    exact .controlled h qubits params

theorem primitiveCall_channel {d : NamedDeclaration} (h : resolve i.gate = some (.channel d)) :
    PrimitiveCall resolve i call ↔ i.qubits.length = d.args.length ∧
      i.params.length = Gate.arity (builtinName i.gate) ∧ i.cond = none ∧
      call = .named (builtinName i.gate) i.qubits i.params none := by
  constructor
  · intro hcall
    cases hcall with
    | channel resolved qubits params free =>
      cases h.symm.trans resolved
      exact ⟨qubits, params, free, rfl⟩
    | single resolved | controlled resolved => cases h.symm.trans resolved
  · rintro ⟨qubits, params, free, rfl⟩
    exact .channel h qubits params free

end

theorem PrimitiveCall.unique {i : Instance} {a b : BuildCall} (ha : PrimitiveCall resolve i a)
    (hb : PrimitiveCall resolve i b) : a = b := by
  cases ha with
  | single resolved qubits _ =>
    obtain ⟨qubit, qubits', -, rfl⟩ := (primitiveCall_single resolved).mp hb
    cases qubits.symm.trans qubits'
    rfl
  | controlled resolved qubits _ =>
    obtain ⟨controls, target, hlen, qubits', -, rfl⟩ := (primitiveCall_controlled resolved).mp hb
    obtain ⟨rfl, htarget⟩ := List.append_inj' (qubits.symm.trans qubits') rfl
    cases htarget
    rfl
  | channel resolved =>
    obtain ⟨-, -, -, rfl⟩ := (primitiveCall_channel resolved).mp hb
    rfl

theorem rightUnique_inlined (d : GateDeclaration) (i : Instance) : Relator.RightUnique (Inlined d i) := by
  intro call a b ha hb
  have hparams := Except.ok.inj (ha.params.symm.trans hb.params)
  have hqubits := List.right_unique_forall₂' (fun _ _ _ h h' => Option.some.inj (h.symm.trans h'))
    ha.qubits hb.qubits
  have hgate := ha.gate.trans hb.gate.symm
  have hcond := ha.cond.trans hb.cond.symm
  cases a
  cases b
  simp_all

theorem PrimitiveCall.not_user {i : Instance} {call : BuildCall} (h : PrimitiveCall resolve i call)
    (d : GateDeclaration) : resolve i.gate ≠ some (.user d) := by
  intro hd
  cases h with
  | single resolved | controlled resolved | channel resolved =>
    rw [resolved] at hd
    cases hd

theorem Expands.unique {is : List Instance} {a b : List BuildCall} (ha : Expands resolve is a)
    (hb : Expands resolve is b) : a = b := by
  induction ha generalizing b with
  | nil =>
    cases hb
    rfl
  | primitive first _ ih =>
    cases hb with
    | primitive first' rest' => rw [first.unique first', ih rest']
    | inline resolved' => exact absurd resolved' (first.not_user _)
  | inline resolved _ _ body _ _ ihfirst ihrest =>
    cases hb with
    | primitive first' => exact absurd resolved (first'.not_user _)
    | inline resolved' _ _ body' first' rest' =>
      rw [resolved] at resolved'
      cases resolved'
      obtain rfl := List.right_unique_forall₂' (rightUnique_inlined _ _) body body'
      rw [ihfirst first', ihrest rest']

theorem expands_singleton {i : Instance} {calls : List BuildCall} :
    Expands resolve [i] calls ↔
      (∃ call, PrimitiveCall resolve i call ∧ calls = [call]) ∨
        ∃ d, resolve i.gate = some (.user d) ∧ i.params.length = d.params.length ∧ i.qubits.length = d.args.length ∧
          ∃ inner, List.Forall₂ (Inlined d i) d.body inner ∧ Expands resolve inner calls := by
  constructor
  · intro h
    cases h with
    | primitive first rest =>
      cases rest
      exact .inl ⟨_, first, rfl⟩
    | inline resolved params qubits body first rest =>
      cases rest
      rw [List.append_nil]
      exact .inr ⟨_, resolved, params, qubits, _, body, first⟩
  · rintro (⟨call, hcall, rfl⟩ | ⟨d, resolved, params, qubits, inner, body, first⟩)
    · exact .primitive hcall .nil
    · simpa using Expands.inline resolved params qubits body first .nil

theorem expands_cons {i : Instance} {more : List Instance} {calls : List BuildCall} :
    Expands resolve (i :: more) calls ↔
      ∃ front back, Expands resolve [i] front ∧ Expands resolve more back ∧ calls = front ++ back := by
  constructor
  · intro h
    cases h with
    | primitive first rest => exact ⟨[_], _, .primitive first .nil, rest, rfl⟩
    | inline resolved params qubits body first rest =>
      exact ⟨_, _, expands_singleton.mpr (.inr ⟨_, resolved, params, qubits, _, body, first⟩), rest, rfl⟩
  · rintro ⟨front, back, hfront, hback, rfl⟩
    rcases expands_singleton.mp hfront with ⟨call, hcall, rfl⟩ | ⟨d, resolved, params, qubits, inner, body, first⟩
    · exact .primitive hcall hback
    · exact .inline resolved params qubits body first hback

end

-- ---------------------------------------------------------------------------
-- Gates over older gates
-- ---------------------------------------------------------------------------

namespace Scope

def isPrimitive (s : Scope) (gate : String) : Bool :=
  let name := builtinName gate
  (Gate.single? name).isSome || (Gate.splitControls name).isSome || s.channels.contains name

/-- Every gate is declared once, and its body calls gates that were declared
before it, on its own arguments. -/
structure Layered (s : Scope) : Prop where
  distinct : (s.gates.map GateDeclaration.name).Nodup
  bodies : ∀ {newer d older}, s.gates = newer ++ d :: older → ∀ call ∈ d.body,
    (s.isPrimitive call.name = true ∨ ∃ e ∈ older, e.name = builtinName call.name) ∧
      ∀ a ∈ call.args, a.register ∈ d.args

variable {s : Scope}

theorem resolve_of_not_primitive {gate : String} (h : s.isPrimitive gate = false) :
    s.resolve gate = (s.gates.find? fun d => d.name = builtinName gate).map .user := by
  simp only [isPrimitive, Assoc.contains, Bool.or_eq_false_iff, Option.isSome_eq_false_iff,
    Option.isNone_iff_eq_none] at h
  simp [resolve, h.1.1, h.1.2, h.2]

theorem resolve_user {gate : String} {d : GateDeclaration} :
    s.resolve gate = some (.user d) ↔
      s.isPrimitive gate = false ∧ s.gates.find? (fun d => d.name = builtinName gate) = some d := by
  simp only [resolve, isPrimitive, Assoc.contains]
  by_cases hsingle : (Gate.single? (builtinName gate)).isSome = true
  · simp [hsingle]
  · cases hsplit : Gate.splitControls (builtinName gate) with
    | some split => simp [hsingle]
    | none =>
      cases hchannel : s.channels.get? (builtinName gate) with
      | some channel => simp [hsingle]
      | none => simp [hsingle]

theorem name_of_resolve_user {gate : String} {d : GateDeclaration} (h : s.resolve gate = some (.user d)) :
    d.name = builtinName gate := by
  simpa using List.find?_some (resolve_user.mp h).2

theorem Layered.resolve_of_mem (hs : s.Layered) {gate : String} {d : GateDeclaration}
    (hprimitive : s.isPrimitive gate = false) (hd : d ∈ s.gates) (hname : d.name = builtinName gate) :
    s.resolve gate = some (.user d) := by
  obtain ⟨e, he⟩ : ∃ e, s.gates.find? (fun d => d.name = builtinName gate) = some e := by
    rw [← Option.isSome_iff_exists, List.find?_isSome]
    exact ⟨d, hd, by simpa using hname⟩
  have hresolve := resolve_user.mpr ⟨hprimitive, he⟩
  rwa [List.inj_on_of_nodup_map hs.distinct hd (List.mem_of_find?_eq_some he)
    (hname.trans (name_of_resolve_user hresolve).symm)]

theorem Layered.mem_older (hs : s.Layered) {newer older : List GateDeclaration} {d e : GateDeclaration}
    (hsplit : s.gates = newer ++ d :: older) {call : Call} (hcall : call ∈ d.body)
    (he : s.resolve call.name = some (.user e)) : e ∈ older := by
  obtain ⟨hprimitive, -⟩ := resolve_user.mp he
  obtain ⟨f, hf, hname⟩ := (hs.bodies hsplit call hcall).1.resolve_left (by simp [hprimitive])
  have hresolve := hs.resolve_of_mem hprimitive (by simp [hsplit, hf]) hname
  cases he.symm.trans hresolve
  exact hf

/-- No gate is called by way of itself, so expansions end. -/
theorem Layered.wellFounded (hs : s.Layered) : WellFounded (CalledBy s.resolve) := by
  -- a gate calls gates behind it in the list, newest first
  suffices ∀ gates newer, s.gates = newer ++ gates → ∀ name,
      (∀ d, s.resolve name = some (.user d) → d ∈ gates) → Acc (CalledBy s.resolve) name from
    ⟨fun name => this s.gates [] rfl name fun d hd => List.mem_of_find?_eq_some (resolve_user.mp hd).2⟩
  intro gates
  induction gates with
  | nil =>
    intro newer _ name hreach
    refine .intro name fun callee hcallee => ?_
    obtain ⟨d, hd, -⟩ := hcallee
    cases hreach d hd
  | cons d older ih =>
    intro newer hsplit name hreach
    have hrest : s.gates = (newer ++ [d]) ++ older := by simpa using hsplit
    refine .intro name fun callee hcallee => ?_
    obtain ⟨e, he, call, hcall, rfl⟩ := hcallee
    refine ih _ hrest _ fun f hf => ?_
    rcases List.mem_cons.mp (hreach e he) with rfl | hmem
    · exact hs.mem_older hsplit hcall hf
    · obtain ⟨before, after, rfl⟩ := List.append_of_mem hmem
      have hsplit' : s.gates = (newer ++ d :: before) ++ e :: after := by simpa using hsplit
      have hafter := hs.mem_older hsplit' hcall hf
      exact List.mem_append_right _ (List.mem_cons_of_mem _ hafter)

end Scope

-- ---------------------------------------------------------------------------
-- Inlining
-- ---------------------------------------------------------------------------

def performAll (calls : List BuildCall) (c : Circuit) : Except BuildError Circuit := calls.foldlM Circuit.perform c

theorem performAll_append {front back : List BuildCall} {c d : Circuit} :
    performAll (front ++ back) c = .ok d ↔ ∃ m, performAll front c = .ok m ∧ performAll back m = .ok d := by
  rw [performAll, List.foldlM_append, bind_eq_ok]
  rfl

theorem performAll_singleton {call : BuildCall} {c d : Circuit} :
    performAll [call] c = .ok d ↔ c.perform call = .ok d := by
  rw [performAll, List.foldlM_cons, bind_eq_ok]
  simp [pure_eq_ok]

section
variable {s : Scope} {i : Instance} {c d : Circuit}

theorem applyBuiltin?_eq_none : applyBuiltin? s.channels i c = none ↔ s.isPrimitive i.gate = false := by
  simp only [applyBuiltin?, Scope.isPrimitive, Assoc.contains]
  by_cases hsingle : (Gate.single? (builtinName i.gate)).isSome = true
  · simp [hsingle]
  · cases hsplit : Gate.splitControls (builtinName i.gate) with
    | some split => simp [hsingle]
    | none => simp [hsingle]

theorem applyBuiltin?_iff :
    applyBuiltin? s.channels i c = some (.ok d) ↔
      ∃ call, PrimitiveCall s.resolve i call ∧ c.perform call = .ok d := by
  by_cases hsingle : (Gate.single? (builtinName i.gate)).isSome = true
  · have hresolve : s.resolve i.gate = some (.single (builtinName i.gate)) := by simp [Scope.resolve, hsingle]
    simp only [applyBuiltin?, if_pos hsingle, Option.some.injEq, bind_eq_ok, built, mapError_eq_ok,
      primitiveCall_single hresolve]
    constructor
    · rintro ⟨_, hcounts, hd⟩
      obtain ⟨hqubits, hparams⟩ := checkCounts_eq_ok.mp hcounts
      obtain ⟨q, hq⟩ := List.length_eq_one_iff.mp hqubits
      rw [hq] at hd
      exact ⟨_, ⟨q, hq, hparams, rfl⟩, hd⟩
    · rintro ⟨_, ⟨q, hq, hparams, rfl⟩, hd⟩
      exact ⟨(), checkCounts_eq_ok.mpr ⟨by simp [hq], hparams⟩, by simpa [hq, Circuit.perform] using hd⟩
  cases hsplit : Gate.splitControls (builtinName i.gate) with
  | some split =>
    obtain ⟨base, n⟩ := split
    have hresolve : s.resolve i.gate = some (.controlled base n) := by simp [Scope.resolve, hsingle, hsplit]
    simp only [applyBuiltin?, if_neg hsingle, hsplit, Option.some.injEq, bind_eq_ok, built, mapError_eq_ok,
      primitiveCall_controlled hresolve]
    constructor
    · rintro ⟨_, hcounts, hd⟩
      obtain ⟨hqubits, hparams⟩ := checkCounts_eq_ok.mp hcounts
      have hlast : n < i.qubits.length := by omega
      have hq : i.qubits = i.qubits.take n ++ [i.qubits.getD n ""] := by
        simp [hlast, List.take_of_length_le (Nat.le_of_eq hqubits)]
      exact ⟨_, ⟨_, _, by simp [hqubits], hq, hparams, rfl⟩, hd⟩
    · rintro ⟨_, ⟨controls, target, rfl, hq, hparams, rfl⟩, hd⟩
      exact ⟨(), checkCounts_eq_ok.mpr ⟨by simp [hq], hparams⟩, by simpa [hq, Circuit.perform] using hd⟩
  | none =>
    cases hchannel : s.channels.get? (builtinName i.gate) with
    | some decl =>
      have hresolve : s.resolve i.gate = some (.channel decl) := by
        simp [Scope.resolve, hsingle, hsplit, hchannel]
      simp only [applyBuiltin?, if_neg hsingle, hsplit, hchannel, Option.map_some, Option.some.injEq, bind_eq_ok,
        check_eq_ok, built, mapError_eq_ok, primitiveCall_channel hresolve]
      constructor
      · rintro ⟨_, hcounts, hfree, hd⟩
        obtain ⟨hqubits, hparams⟩ := checkCounts_eq_ok.mp hcounts
        exact ⟨_, ⟨hqubits, hparams, by simpa using hfree, rfl⟩, hd⟩
      · rintro ⟨_, ⟨hqubits, hparams, hfree, rfl⟩, hd⟩
        exact ⟨(), checkCounts_eq_ok.mpr ⟨hqubits, hparams⟩, by simp [hfree], hd⟩
    | none =>
      refine iff_of_false (by simp [applyBuiltin?, hsingle, hsplit, hchannel]) ?_
      rintro ⟨call, hcall, -⟩
      cases hcall with
      | single resolved | controlled resolved | channel resolved =>
        simp [Scope.resolve, hsingle, hsplit, hchannel] at resolved

end

theorem exists_mem_of_forall₂ {R : α → β → Prop} {as : List α} {bs : List β} (h : List.Forall₂ R as bs) :
    ∀ b ∈ bs, ∃ a ∈ as, R a b := by
  induction h with
  | nil => simp
  | cons hab _ ih =>
    refine List.forall_mem_cons.mpr ⟨⟨_, List.mem_cons_self, hab⟩, fun b hb => ?_⟩
    obtain ⟨a, ha, hr⟩ := ih b hb
    exact ⟨a, List.mem_cons_of_mem _ ha, hr⟩

theorem forall₂_eq_some_iff {f : α → Option β} {default : β} {as : List α} {bs : List β}
    (h : ∀ a ∈ as, (f a).isSome = true) :
    List.Forall₂ (fun a b => f a = some b) as bs ↔ bs = as.map fun a => (f a).getD default := by
  induction as generalizing bs with
  | nil => simp
  | cons a rest ih =>
    obtain ⟨ha, hrest⟩ := List.forall_mem_cons.mp h
    obtain ⟨b, hb⟩ := Option.isSome_iff_exists.mp ha
    cases bs with
    | nil => simp
    | cons b' more => simp [ih hrest, hb, eq_comm]

theorem inlined_iff {d : GateDeclaration} {i inner : Instance} {call : Call} (hlen : i.qubits.length = d.args.length)
    (hargs : ∀ a ∈ call.args, a.register ∈ d.args) :
    Inlined d i call inner ↔
      ∃ params, evalAll (Assoc.ofList (d.params.zip i.params)) call.params = .ok params ∧
        inner = ⟨call.name, params,
          call.args.map fun a => ((Assoc.ofList (d.args.zip i.qubits)).get? a.register).getD "", i.cond⟩ := by
  have hbound : ∀ a ∈ call.args, ((Assoc.ofList (d.args.zip i.qubits)).get? a.register).isSome = true := by
    intro a ha
    rw [Assoc.isSome_get?_ofList, List.map_fst_zip (Nat.le_of_eq hlen.symm)]
    exact hargs a ha
  constructor
  · intro h
    refine ⟨inner.params, h.params, ?_⟩
    rw [← (forall₂_eq_some_iff hbound).mp h.qubits, ← h.gate, ← h.cond]
  · rintro ⟨params, hparams, rfl⟩
    exact ⟨rfl, hparams, (forall₂_eq_some_iff hbound).mpr rfl, rfl⟩

theorem inline_iff {apply : Instance → Circuit → Except Problem Circuit} {d : GateDeclaration} {i : Instance}
    {c c' : Circuit} (hargs : ∀ call ∈ d.body, ∀ a ∈ call.args, a.register ∈ d.args) :
    inline apply d i c = .ok c' ↔
      i.params.length = d.params.length ∧ i.qubits.length = d.args.length ∧
        ∃ inner, List.Forall₂ (Inlined d i) d.body inner ∧ inner.foldlM (fun c j => apply j c) c = .ok c' := by
  simp only [inline, check_eq_ok, not_not]
  refine and_congr_right fun _ => and_congr_right fun hlen => ?_
  generalize d.body = body at hargs
  induction body generalizing c with
  | nil => simp [pure_eq_ok]
  | cons call rest ih =>
    obtain ⟨hcall, hrest⟩ := List.forall_mem_cons.mp hargs
    simp only [List.foldlM_cons, bind_eq_ok, mapError_eq_ok, List.forall₂_cons_left_iff]
    constructor
    · rintro ⟨m, ⟨params, hparams, hm⟩, hc'⟩
      obtain ⟨inner, hinner, hrun⟩ := (ih hrest).mp hc'
      refine ⟨_, ⟨_, _, (inlined_iff hlen hcall).mpr ⟨params, hparams, rfl⟩, hinner, rfl⟩, ?_⟩
      rw [List.foldlM_cons, bind_eq_ok]
      exact ⟨m, hm, hrun⟩
    · rintro ⟨_, ⟨j, inner, hj, hinner, rfl⟩, hrun⟩
      obtain ⟨params, hparams, rfl⟩ := (inlined_iff hlen hcall).mp hj
      rw [List.foldlM_cons, bind_eq_ok] at hrun
      obtain ⟨m, hm, hrun⟩ := hrun
      exact ⟨m, ⟨params, hparams, hm⟩, (ih hrest).mpr ⟨inner, hinner, hrun⟩⟩

theorem foldlM_iff_expands {resolve : String → Option Callee} {apply : Instance → Circuit → Except Problem Circuit}
    {is : List Instance} {c d : Circuit}
    (happly : ∀ i ∈ is, ∀ c d, apply i c = .ok d ↔
      ∃ calls, Expands resolve [i] calls ∧ performAll calls c = .ok d) :
    is.foldlM (fun c j => apply j c) c = .ok d ↔ ∃ calls, Expands resolve is calls ∧ performAll calls c = .ok d := by
  induction is generalizing c with
  | nil =>
    constructor
    · rintro ⟨⟩
      exact ⟨[], .nil, rfl⟩
    · rintro ⟨calls, hcalls, h⟩
      cases hcalls
      cases h
      rfl
  | cons i more ih =>
    obtain ⟨hi, hmore⟩ := List.forall_mem_cons.mp happly
    simp only [List.foldlM_cons, bind_eq_ok, hi, ih hmore]
    constructor
    · rintro ⟨m, ⟨front, hfront, hm⟩, back, hback, hd⟩
      exact ⟨_, expands_cons.mpr ⟨front, back, hfront, hback, rfl⟩, performAll_append.mpr ⟨m, hm, hd⟩⟩
    · rintro ⟨calls, hcalls, hd⟩
      obtain ⟨front, back, hfront, hback, rfl⟩ := expands_cons.mp hcalls
      obtain ⟨m, hm, hd⟩ := performAll_append.mp hd
      exact ⟨m, ⟨front, hfront, hm⟩, back, hback, hd⟩

section
variable {s : Scope} {i : Instance} {c d : Circuit}

theorem PrimitiveCall.isPrimitive {call : BuildCall} (h : PrimitiveCall s.resolve i call) :
    s.isPrimitive i.gate = true := by
  by_contra hprimitive
  rw [Bool.not_eq_true] at hprimitive
  cases h with
  | single resolved | controlled resolved | channel resolved =>
    simp [Scope.resolve_of_not_primitive hprimitive] at resolved

theorem applyInstance_of_primitive {gates : List GateDeclaration} (h : s.isPrimitive i.gate = true) :
    applyInstance s.channels gates i c = .ok d ↔
      ∃ calls, Expands s.resolve [i] calls ∧ performAll calls c = .ok d := by
  have hnone : applyBuiltin? s.channels i c ≠ none := by simp [applyBuiltin?_eq_none, h]
  obtain ⟨r, hr⟩ := Option.ne_none_iff_exists'.mp hnone
  have happly : applyInstance s.channels gates i c = .ok d ↔ applyBuiltin? s.channels i c = some (.ok d) := by
    cases gates with
    | nil => simp [applyInstance, hr]
    | cons g older => simp [applyInstance, hr]
  rw [happly, applyBuiltin?_iff]
  constructor
  · rintro ⟨call, hcall, hd⟩
    exact ⟨[call], .primitive hcall .nil, performAll_singleton.mpr hd⟩
  · rintro ⟨calls, hcalls, hd⟩
    rcases expands_singleton.mp hcalls with ⟨call, hcall, rfl⟩ | ⟨e, he, -⟩
    · exact ⟨call, hcall, performAll_singleton.mp hd⟩
    · simp [h, Scope.resolve_user] at he

/-- An instance is applied by the calls that it comes down to. The gates are
those among which the gate of the instance is found. -/
theorem applyInstance_iff (hs : s.Layered) {gates newer : List GateDeclaration} (hsplit : s.gates = newer ++ gates)
    (hreach : ∀ e, s.resolve i.gate = some (.user e) → e ∈ gates) :
    applyInstance s.channels gates i c = .ok d ↔
      ∃ calls, Expands s.resolve [i] calls ∧ performAll calls c = .ok d := by
  induction gates generalizing i c d newer with
  | nil =>
    cases hprimitive : s.isPrimitive i.gate with
    | true => exact applyInstance_of_primitive hprimitive
    | false =>
      refine iff_of_false (by simp [applyInstance, applyBuiltin?_eq_none.mpr hprimitive]) ?_
      rintro ⟨calls, hcalls, -⟩
      rcases expands_singleton.mp hcalls with ⟨call, hcall, -⟩ | ⟨e, he, -⟩
      · simp [hcall.isPrimitive] at hprimitive
      · cases hreach e he
  | cons g older ih =>
    cases hprimitive : s.isPrimitive i.gate with
    | true => exact applyInstance_of_primitive hprimitive
    | false =>
      have hg : g ∈ s.gates := by simp [hsplit]
      have hrest : s.gates = (newer ++ [g]) ++ older := by simpa using hsplit
      rw [applyInstance, applyBuiltin?_eq_none.mpr hprimitive]
      by_cases hname : g.name = builtinName i.gate
      · have hresolve : s.resolve i.gate = some (.user g) := hs.resolve_of_mem hprimitive hg hname
        have hinner {inner} (hbody : List.Forall₂ (Inlined g i) g.body inner) {c d} :
            inner.foldlM (fun c j => applyInstance s.channels older j c) c = .ok d ↔
              ∃ calls, Expands s.resolve inner calls ∧ performAll calls c = .ok d := by
          refine foldlM_iff_expands fun j hj c d => ih hrest fun e he => ?_
          obtain ⟨call, hcall, hinlined⟩ := exists_mem_of_forall₂ hbody j hj
          exact hs.mem_older hsplit hcall (hinlined.gate ▸ he)
        rw [if_pos hname, inline_iff fun call hcall => (hs.bodies hsplit call hcall).2]
        constructor
        · rintro ⟨params, qubits, inner, body, hd⟩
          obtain ⟨calls, first, hd⟩ := (hinner body).mp hd
          exact ⟨calls, expands_singleton.mpr (.inr ⟨g, hresolve, params, qubits, inner, body, first⟩), hd⟩
        · rintro ⟨calls, hcalls, hd⟩
          rcases expands_singleton.mp hcalls with ⟨call, hcall, -⟩ | ⟨e, he, params, qubits, inner, body, first⟩
          · exact absurd hresolve (hcall.not_user g)
          · cases he.symm.trans hresolve
            exact ⟨params, qubits, inner, body, (hinner body).mpr ⟨calls, first, hd⟩⟩
      · rw [if_neg hname]
        refine ih hrest fun e he => (List.mem_cons.mp (hreach e he)).resolve_left ?_
        rintro rfl
        exact hname (Scope.name_of_resolve_user he)

end

end Sequencer.Qasm
