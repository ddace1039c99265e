import Sequencer.Proofs.Qasm.Expansion

/-!
# Programs as lists of builder steps

A program stands for one list of steps of the builder: the registers that it
declares, and for every operation the calls it comes down to, under the names
that are declared where it stands. The program has a circuit when the steps go
through one after the other, and then the circuit is theirs.
-/

namespace Sequencer

def BuildStep.run (c : Circuit) : BuildStep → Except BuildError Circuit
  | .quantum r => .ok (c.declareQubits r.name r.size)
  | .classical r => .ok (c.declareBits r.name r.size)
  | .call k => c.perform k

def runAll (steps : List BuildStep) (c : Circuit) : Except BuildError Circuit := steps.foldlM BuildStep.run c

theorem runAll_append {front back : List BuildStep} {c d : Circuit} :
    runAll (front ++ back) c = .ok d ↔ ∃ m, runAll front c = .ok m ∧ runAll back m = .ok d := by
  rw [runAll, List.foldlM_append, bind_eq_ok]
  rfl

theorem runAll_calls (calls : List BuildCall) (c : Circuit) :
    runAll (calls.map .call) c = Qasm.performAll calls c := by
  rw [runAll, List.foldlM_map]
  rfl

namespace Qasm

-- ---------------------------------------------------------------------------
-- What statements stand for
-- ---------------------------------------------------------------------------

inductive Scope.Acts (s : Scope) (cond : Option Condition) : Action → List BuildCall → Prop
  | measure {source target : Argument} {qubits bits : List String} (source_ok : qubitsOf s.circuit source = .ok qubits)
      (target_ok : bitsOf s.circuit target = .ok bits) :
      Acts s cond (.measure source target) [.measure qubits bits cond]
  | reset {arg : Argument} {qubits : List String} (arg_ok : qubitsOf s.circuit arg = .ok qubits) :
      Acts s cond (.reset arg) [.reset qubits cond]
  | barrier {args : List Argument} {qubits : List (List String)}
      (args_ok : args.mapM (qubitsOf s.circuit) = .ok qubits) : Acts s cond (.barrier args) [.barrier qubits.flatten]
  | call {call : Call} {params : List Float} {width : Nat} {args : List (List String)} {calls : List BuildCall}
      (params_ok : evalAll {} call.params = .ok params)
      (args_ok : resolveArguments s.circuit call.name 1 call.args = .ok (width, args))
      (expands : Expands s.resolve
        ((List.range width).map fun k => ⟨call.name, params, args.map (pick k), cond⟩) calls) :
      Acts s cond (.call call) calls

/-- The steps that a statement stands for, and the scope behind it. The circuit
of a scope has the declared registers only; nothing is placed in it. -/
inductive Scope.Yields (s : Scope) : StatementBody → List BuildStep → Scope → Prop
  | inclusion {file : String} : Yields s (.inclusion file) [] s
  | quantumRegister {name : String} {size : Int} (new : s.checkRegister name size = .ok ()) :
      Yields s (.quantumRegister name size) [.quantum ⟨name, size⟩]
        (s.withCircuit (s.circuit.declareQubits name size))
  | classicalRegister {name : String} {size : Int} (new : s.checkRegister name size = .ok ()) :
      Yields s (.classicalRegister name size) [.classical ⟨name, size⟩]
        (s.withCircuit (s.circuit.declareBits name size))
  | gate {d : GateDeclaration} {s' : Scope} (declared : s.declareGate d = .ok s') : Yields s (.gate d) [] s'
  | named {d : NamedDeclaration} (channel : Gate.isChannel d.name = true) :
      Yields s (.named d) [] { s with channels := s.channels.insert d.name d }
  | action {a : Action} {calls : List BuildCall} (acts : s.Acts none a calls) :
      Yields s (.action a) (calls.map .call) s
  | guarded {guard : Guard} {cond : Condition} {call : Call} {calls : List BuildCall}
      (cond_ok : s.circuit.condition guard.register guard.index guard.value = .ok cond)
      (acts : s.Acts (some cond) (.call call) calls) :
      Yields s (.guarded guard (.call call)) (calls.map .call) s

inductive Scope.Flattens : Scope → List StatementBody → List BuildStep → Prop
  | nil {s : Scope} : Flattens s [] []
  | cons {s s' : Scope} {body : StatementBody} {bodies : List StatementBody} {front back : List BuildStep}
      (first : s.Yields body front s') (rest : Flattens s' bodies back) :
      Flattens s (body :: bodies) (front ++ back)

theorem Scope.Acts.unique {s : Scope} {cond : Option Condition} {a : Action} {calls calls' : List BuildCall}
    (h : s.Acts cond a calls) (h' : s.Acts cond a calls') : calls = calls' := by
  cases h with
  | measure source target =>
    cases h' with
    | measure source' target' =>
      cases source.symm.trans source'
      cases target.symm.trans target'
      rfl
  | reset arg =>
    cases h' with
    | reset arg' =>
      cases arg.symm.trans arg'
      rfl
  | barrier args =>
    cases h' with
    | barrier args' =>
      cases args.symm.trans args'
      rfl
  | call params args expands =>
    cases h' with
    | call params' args' expands' =>
      cases params.symm.trans params'
      cases args.symm.trans args'
      exact expands.unique expands'

theorem Scope.Yields.unique {s t t' : Scope} {body : StatementBody} {steps steps' : List BuildStep}
    (h : s.Yields body steps t) (h' : s.Yields body steps' t') : steps = steps' ∧ t = t' := by
  cases h with
  | inclusion | quantumRegister | classicalRegister | named =>
    cases h'
    exact ⟨rfl, rfl⟩
  | gate declared =>
    cases h' with
    | gate declared' => exact ⟨rfl, Except.ok.inj (declared.symm.trans declared')⟩
  | action acts =>
    cases h' with
    | action acts' => exact ⟨congrArg _ (acts.unique acts'), rfl⟩
  | guarded cond acts =>
    cases h' with
    | guarded cond' acts' =>
      cases cond.symm.trans cond'
      exact ⟨congrArg _ (acts.unique acts'), rfl⟩

theorem Scope.Flattens.unique {s : Scope} {bodies : List StatementBody} {steps steps' : List BuildStep}
    (h : s.Flattens bodies steps) (h' : s.Flattens bodies steps') : steps = steps' := by
  induction h generalizing steps' with
  | nil =>
    cases h'
    rfl
  | cons first _ ih =>
    cases h' with
    | cons first' rest' =>
      obtain ⟨rfl, rfl⟩ := first.unique first'
      rw [ih rest']

-- ---------------------------------------------------------------------------
-- Bodies call older gates
-- ---------------------------------------------------------------------------

namespace Scope
variable {s s' : Scope}

theorem checkBodyCall_ok {d : GateDeclaration} {call : Call} (h : s.checkBodyCall d call = .ok ()) :
    s.knows call.name = true ∧ ∀ a ∈ call.args, a.register ∈ d.args := by
  simp only [checkBodyCall, mapError_eq_ok, check_eq_ok, bind_eq_ok, pure_eq_ok] at h
  obtain ⟨hknown, _, hargs, -⟩ := h
  refine ⟨by simpa using hknown, fun a ha => ?_⟩
  have hpass := forIn_ok (fun a hdone => by simp only [check_eq_ok, pure_eq_ok, reduceCtorEq, and_false] at hdone)
    hargs a ha
  simp only [check_eq_ok] at hpass
  simpa using hpass.2.1

theorem declareGate_ok {d : GateDeclaration} (h : s.declareGate d = .ok s') :
    (∀ e ∈ s.gates, e.name ≠ d.name) ∧ (∀ call ∈ d.body, s.checkBodyCall d call = .ok ()) ∧
      s' = { s with gates := d :: s.gates } := by
  simp only [declareGate, check_eq_ok, bind_eq_ok, pure_eq_ok] at h
  obtain ⟨hnew, _, hbody, hs'⟩ := h
  refine ⟨by simpa using hnew, fun call hcall => ?_, hs'.symm⟩
  have hpass := forIn_ok
    (fun a hdone => by simp only [bind_eq_ok, pure_eq_ok, reduceCtorEq, and_false, exists_false] at hdone)
    hbody call hcall
  obtain ⟨_, hpass, -⟩ := bind_eq_ok.mp hpass
  exact hpass

theorem layered_start (c : Circuit) : Layered { circuit := c } :=
  ⟨List.nodup_nil, fun h => by simp at h⟩

theorem knows_iff {gate : String} :
    s.knows gate = true ↔ s.isPrimitive gate = true ∨ ∃ d ∈ s.gates, d.name = builtinName gate := by
  simp only [knows, isPrimitive, Bool.or_eq_true, List.any_eq_true, beq_iff_eq, or_assoc]
  rw [or_comm (a := ∃ d ∈ s.gates, d.name = builtinName gate)]

namespace Layered
variable (hs : s.Layered)
include hs

theorem withCircuit (c : Circuit) : (s.withCircuit c).Layered := ⟨hs.distinct, hs.bodies⟩

theorem declareGate {d : GateDeclaration} (h : s.declareGate d = .ok s') : s'.Layered := by
  obtain ⟨hnew, hbody, rfl⟩ := declareGate_ok h
  constructor
  · refine List.nodup_cons.mpr ⟨fun hmem => ?_, hs.distinct⟩
    obtain ⟨e, he, hname⟩ := List.mem_map.mp hmem
    exact hnew e he hname
  · intro newer e older hsplit call hcall
    cases newer with
    | nil =>
      obtain ⟨rfl, rfl⟩ := List.cons.inj hsplit
      obtain ⟨hknown, hargs⟩ := checkBodyCall_ok (hbody call hcall)
      exact ⟨knows_iff.mp hknown, hargs⟩
    | cons f newer =>
      exact hs.bodies (List.cons.inj hsplit).2 call hcall

/-- A channel takes the place of gates of its name, also in bodies. -/
theorem insertChannel (name : String) (d : NamedDeclaration) :
    ({ s with channels := s.channels.insert name d } : Scope).Layered := by
  refine ⟨hs.distinct, fun hsplit call hcall => ?_⟩
  obtain ⟨hcallee, hargs⟩ := hs.bodies hsplit call hcall
  refine ⟨hcallee.imp_left fun hprimitive => ?_, hargs⟩
  simp only [isPrimitive, Assoc.contains, Assoc.get?_insert, Bool.or_eq_true] at hprimitive ⊢
  refine hprimitive.imp_right fun hchannel => ?_
  split
  · rfl
  · exact hchannel

theorem yields {body : StatementBody} {steps : List BuildStep} (h : s.Yields body steps s') : s'.Layered := by
  cases h with
  | inclusion => exact hs
  | quantumRegister | classicalRegister => exact hs.withCircuit _
  | gate declared => exact hs.declareGate declared
  | named => exact hs.insertChannel _ _
  | action | guarded => exact hs

end Layered

end Scope

-- ---------------------------------------------------------------------------
-- Steps of the scope
-- ---------------------------------------------------------------------------

section
variable {c d : Circuit}

theorem qubitsOf_congr (h : c.quantum = d.quantum) (a : Argument) : qubitsOf c a = qubitsOf d a := by
  rw [qubitsOf, qubitsOf, Circuit.quantumSize, Circuit.quantumSize, h]

theorem bitsOf_congr (h : c.classical = d.classical) (a : Argument) : bitsOf c a = bitsOf d a := by
  rw [bitsOf, bitsOf, Circuit.classicalSize, Circuit.classicalSize, h]

theorem resolveArguments_congr (h : c.quantum = d.quantum) (gate : String) (width : Nat) (args : List Argument) :
    resolveArguments c gate width args = resolveArguments d gate width args := by
  induction args generalizing width with
  | nil => rfl
  | cons a rest ih => simp only [resolveArguments, qubitsOf_congr h, ih]

theorem condition_congr (h : c.classical = d.classical) (register : String) (index : Option Int) (value : Int) :
    c.condition register index value = d.condition register index value := by
  rw [Circuit.condition, Circuit.condition, Circuit.classicalSize, Circuit.classicalSize, h]

theorem performAll_registers {calls : List BuildCall} (h : performAll calls c = .ok d) :
    d.quantum = c.quantum ∧ d.classical = c.classical := by
  refine foldlM_keeps (P := fun _ d => d.quantum = c.quantum ∧ d.classical = c.classical) ⟨rfl, rfl⟩ ?_ h
  rintro done call rest b b' - ⟨hquantum, hclassical⟩ hcall
  obtain ⟨hq, hc⟩ := Circuit.perform_registers hcall
  exact ⟨hq.trans hquantum, hc.trans hclassical⟩

end

namespace Scope
variable {s : Scope} {c d : Circuit}

@[simp] theorem circuit_withCircuit : (s.withCircuit c).circuit = c := rfl

@[simp] theorem gates_withCircuit : (s.withCircuit c).gates = s.gates := rfl

@[simp] theorem channels_withCircuit : (s.withCircuit c).channels = s.channels := rfl

theorem checkRegister_congr (hq : c.quantum = s.circuit.quantum) (hc : c.classical = s.circuit.classical)
    (name : String) (size : Int) : (s.withCircuit c).checkRegister name size = s.checkRegister name size := by
  rw [checkRegister, checkRegister, withCircuit, Circuit.quantumSize, Circuit.quantumSize, Circuit.classicalSize,
    Circuit.classicalSize, hq, hc]

theorem act_iff (hs : s.Layered) (hq : c.quantum = s.circuit.quantum) (hc : c.classical = s.circuit.classical)
    {a : Action} {cond : Option Condition} :
    (s.withCircuit c).act a cond = .ok d ↔ ∃ calls, s.Acts cond a calls ∧ performAll calls c = .ok d := by
  cases a with
  | measure source target =>
    simp only [act, circuit_withCircuit, qubitsOf_congr hq, bitsOf_congr hc, bind_eq_ok, built, mapError_eq_ok]
    constructor
    · rintro ⟨qubits, hqubits, bits, hbits, hd⟩
      exact ⟨_, .measure hqubits hbits, performAll_singleton.mpr hd⟩
    · rintro ⟨calls, hcalls, hd⟩
      cases hcalls with
      | measure hqubits hbits => exact ⟨_, hqubits, _, hbits, performAll_singleton.mp hd⟩
  | reset arg =>
    simp only [act, circuit_withCircuit, qubitsOf_congr hq, bind_eq_ok, built, mapError_eq_ok]
    constructor
    · rintro ⟨qubits, hqubits, hd⟩
      exact ⟨_, .reset hqubits, performAll_singleton.mpr hd⟩
    · rintro ⟨calls, hcalls, hd⟩
      cases hcalls with
      | reset hqubits => exact ⟨_, hqubits, performAll_singleton.mp hd⟩
  | barrier args =>
    simp only [act, circuit_withCircuit, funext (qubitsOf_congr hq), bind_eq_ok, built, mapError_eq_ok]
    constructor
    · rintro ⟨qubits, hqubits, hd⟩
      exact ⟨_, .barrier hqubits, performAll_singleton.mpr hd⟩
    · rintro ⟨calls, hcalls, hd⟩
      cases hcalls with
      | barrier hqubits => exact ⟨_, hqubits, performAll_singleton.mp hd⟩
  | call call =>
    have happly (width : Nat) (instances : Nat → Instance) :
        (List.range width).foldlM (fun c k => applyInstance s.channels s.gates (instances k) c) c = .ok d ↔
          ∃ calls, Expands s.resolve ((List.range width).map instances) calls ∧ performAll calls c = .ok d := by
      rw [← foldlM_iff_expands, List.foldlM_map]
      intro i _ c d
      exact applyInstance_iff hs (List.nil_append _).symm fun e he =>
        List.mem_of_find?_eq_some (resolve_user.mp he).2
    simp only [act, Scope.call, circuit_withCircuit, gates_withCircuit, channels_withCircuit,
      resolveArguments_congr hq, bind_eq_ok, mapError_eq_ok, happly]
    constructor
    · rintro ⟨params, hparams, ⟨width, args⟩, hargs, calls, hcalls, hd⟩
      exact ⟨calls, .call hparams hargs hcalls, hd⟩
    · rintro ⟨calls, hcalls, hd⟩
      cases hcalls with
      | call hparams hargs hexpands => exact ⟨_, hparams, _, hargs, calls, hexpands, hd⟩

theorem declareGate_withCircuit {g : GateDeclaration} {t : Scope} :
    (s.withCircuit c).declareGate g = .ok t ↔ ∃ s', s.declareGate g = .ok s' ∧ t = s'.withCircuit c := by
  have hcheck : (s.withCircuit c).checkBodyCall g = s.checkBodyCall g := rfl
  simp only [declareGate, hcheck, gates_withCircuit, check_eq_ok, bind_eq_ok, pure_eq_ok]
  constructor
  · rintro ⟨hnew, u, hbody, rfl⟩
    exact ⟨_, ⟨hnew, u, hbody, rfl⟩, rfl⟩
  · rintro ⟨_, ⟨hnew, u, hbody, rfl⟩, rfl⟩
    exact ⟨hnew, u, hbody, rfl⟩

theorem step_iff (hs : s.Layered) (hq : c.quantum = s.circuit.quantum) (hc : c.classical = s.circuit.classical)
    {body : StatementBody} {t : Scope} :
    (s.withCircuit c).step body = .ok t ↔
      ∃ steps s' d, s.Yields body steps s' ∧ runAll steps c = .ok d ∧ t = s'.withCircuit d := by
  constructor
  · intro h
    cases body with
    | inclusion file =>
      cases h
      exact ⟨_, _, c, .inclusion, rfl, rfl⟩
    | quantumRegister name size =>
      simp only [step, bind_eq_ok, pure_eq_ok, checkRegister_congr hq hc] at h
      obtain ⟨_, hnew, rfl⟩ := h
      exact ⟨_, _, _, .quantumRegister hnew, rfl, rfl⟩
    | classicalRegister name size =>
      simp only [step, bind_eq_ok, pure_eq_ok, checkRegister_congr hq hc] at h
      obtain ⟨_, hnew, rfl⟩ := h
      exact ⟨_, _, _, .classicalRegister hnew, rfl, rfl⟩
    | gate g =>
      obtain ⟨s', hs', rfl⟩ := declareGate_withCircuit.mp h
      exact ⟨_, _, c, .gate hs', rfl, rfl⟩
    | named g =>
      simp only [step] at h
      split at h
      · rename_i hchannel
        cases h
        exact ⟨_, _, c, .named hchannel, rfl, rfl⟩
      · cases h
    | action a =>
      simp only [step, bind_eq_ok, pure_eq_ok, act_iff hs hq hc] at h
      obtain ⟨d, ⟨calls, hcalls, hd⟩, rfl⟩ := h
      exact ⟨_, _, d, .action hcalls, by rwa [runAll_calls], rfl⟩
    | guarded guard a =>
      simp only [step, bind_eq_ok, pure_eq_ok, mapError_eq_ok, circuit_withCircuit, condition_congr hc,
        act_iff hs hq hc] at h
      obtain ⟨cond, hcond, _, hguarded, d, ⟨calls, hcalls, hd⟩, rfl⟩ := h
      cases a with
      | call call => exact ⟨_, _, d, .guarded hcond hcalls, by rwa [runAll_calls], rfl⟩
      | measure | reset | barrier => cases hguarded
  · rintro ⟨steps, s', d, hyields, hd, rfl⟩
    cases hyields with
    | inclusion =>
      cases hd
      rfl
    | quantumRegister hnew | classicalRegister hnew =>
      cases hd
      simp only [step, bind_eq_ok, pure_eq_ok, checkRegister_congr hq hc]
      exact ⟨_, hnew, rfl⟩
    | gate hs' =>
      cases hd
      exact declareGate_withCircuit.mpr ⟨s', hs', rfl⟩
    | named hchannel =>
      cases hd
      rw [step, if_pos hchannel]
      rfl
    | action hcalls =>
      rw [runAll_calls] at hd
      simp only [step, bind_eq_ok, pure_eq_ok, act_iff hs hq hc]
      exact ⟨d, ⟨_, hcalls, hd⟩, rfl⟩
    | guarded hcond hcalls =>
      rw [runAll_calls] at hd
      simp only [step, bind_eq_ok, pure_eq_ok, mapError_eq_ok, circuit_withCircuit, condition_congr hc,
        act_iff hs hq hc]
      exact ⟨_, hcond, (), rfl, d, ⟨_, hcalls, hd⟩, rfl⟩

theorem Yields.registers {s' : Scope} {body : StatementBody} {steps : List BuildStep} (h : s.Yields body steps s')
    (hq : c.quantum = s.circuit.quantum) (hc : c.classical = s.circuit.classical) (hd : runAll steps c = .ok d) :
    d.quantum = s'.circuit.quantum ∧ d.classical = s'.circuit.classical := by
  cases h with
  | inclusion | named =>
    cases hd
    exact ⟨hq, hc⟩
  | gate declared =>
    cases hd
    obtain ⟨-, -, rfl⟩ := declareGate_ok declared
    exact ⟨hq, hc⟩
  | quantumRegister | classicalRegister =>
    cases hd
    simp [Circuit.declareQubits, Circuit.declareBits, hq, hc]
  | action | guarded =>
    rw [runAll_calls] at hd
    obtain ⟨hquantum, hclassical⟩ := performAll_registers hd
    exact ⟨hquantum.trans hq, hclassical.trans hc⟩

theorem foldlM_step_iff (hs : s.Layered) (hq : c.quantum = s.circuit.quantum) (hc : c.classical = s.circuit.classical)
    {bodies : List StatementBody} :
    (∃ t, bodies.foldlM Scope.step (s.withCircuit c) = .ok t ∧ t.circuit = d) ↔
      ∃ steps, s.Flattens bodies steps ∧ runAll steps c = .ok d := by
  induction bodies generalizing s c with
  | nil =>
    constructor
    · rintro ⟨t, ht, rfl⟩
      cases ht
      exact ⟨[], .nil, rfl⟩
    · rintro ⟨steps, hsteps, hd⟩
      cases hsteps
      cases hd
      exact ⟨_, rfl, rfl⟩
  | cons body bodies ih =>
    simp only [List.foldlM_cons, bind_eq_ok, step_iff hs hq hc]
    constructor
    · rintro ⟨t, ⟨_, ⟨front, s', m, hfront, hm, rfl⟩, ht⟩, hd⟩
      obtain ⟨hq', hc'⟩ := hfront.registers hq hc hm
      obtain ⟨back, hback, hd⟩ := (ih (hs.yields hfront) hq' hc').mp ⟨t, ht, hd⟩
      exact ⟨front ++ back, .cons hfront hback, runAll_append.mpr ⟨m, hm, hd⟩⟩
    · rintro ⟨steps, hsteps, hd⟩
      cases hsteps with
      | cons hfront hback =>
        obtain ⟨m, hm, hd⟩ := runAll_append.mp hd
        obtain ⟨hq', hc'⟩ := hfront.registers hq hc hm
        obtain ⟨t, ht, hd⟩ := (ih (hs.yields hfront) hq' hc').mpr ⟨_, hback, hd⟩
        exact ⟨t, ⟨_, ⟨_, _, m, hfront, hm, rfl⟩, ht⟩, hd⟩

theorem Layered.foldlM_step (hs : s.Layered) {bodies : List StatementBody} {t : Scope}
    (h : bodies.foldlM Scope.step s = .ok t) : t.Layered := by
  refine foldlM_keeps (P := fun _ t => t.Layered) hs ?_ h
  rintro done body rest b b' - hb hstep
  obtain ⟨steps, s', d, hyields, -, rfl⟩ := (step_iff hb rfl rfl).mp hstep
  exact (hb.yields hyields).withCircuit d

end Scope

-- ---------------------------------------------------------------------------
-- Programs
-- ---------------------------------------------------------------------------

theorem foldlM_statements {statements : List Statement} {s t : Scope} :
    statements.foldlM (fun (s : Scope) st => (s.step st.body).mapError fun e => (st.pos, e)) s = .ok t ↔
      (statements.map Statement.body).foldlM Scope.step s = .ok t := by
  induction statements generalizing s with
  | nil =>
    constructor
    · rintro ⟨⟩
      rfl
    · rintro ⟨⟩
      rfl
  | cons st rest ih => simp only [List.foldlM_cons, List.map_cons, bind_eq_ok, mapError_eq_ok, ih]

/-- Wherever a program has come to, no gate is called by way of itself, so the
expansion of every call ends. The program has a circuit exactly when the steps
that it stands for go through, and the circuit is the one they build. -/
theorem toCircuit_iff_flattens (p : Program) (name : String) :
    (∀ done rest s, p.statements = done ++ rest →
      (done.map Statement.body).foldlM Scope.step { circuit := { name := name } } = .ok s →
        WellFounded (CalledBy s.resolve)) ∧
    (∀ steps steps', Scope.Flattens { circuit := { name := name } } (p.statements.map Statement.body) steps →
      Scope.Flattens { circuit := { name := name } } (p.statements.map Statement.body) steps' → steps = steps') ∧
    ∀ c, p.toCircuit name = .ok c ↔
      ∃ steps, Scope.Flattens { circuit := { name := name } } (p.statements.map Statement.body) steps ∧
        runAll steps { name := name } = .ok c := by
  have hstart : Scope.Layered { circuit := { name := name } } := Scope.layered_start _
  refine ⟨fun done rest s _ hs => (hstart.foldlM_step hs).wellFounded, fun _ _ h h' => h.unique h', fun c => ?_⟩
  rw [← Scope.foldlM_step_iff hstart rfl rfl]
  simp only [Program.toCircuit, bind_eq_ok, pure_eq_ok, foldlM_statements]
  rfl

/-- A gate under the name of a channel that is declared after gates call it. -/
def overtakenGate : String :=
  "OPENQASM 2.0;\nqreg q[2];\ncreg c[2];\ngate mixphase(p) a\x7brz(p) a;\x7d\n" ++
  "gate g(x) a,b\x7bmixphase(x/2) a;CX a,b;\x7d\nif(c==1) g(1) q[0],q[1];\nopaque mixphase(p) a;\ng(1) q[1],q[0];\n"

theorem toCircuit_iff_flattens_overtaken :
    ∃ p c steps, Grammar.read overtakenGate = .ok p ∧ p.toCircuit "main" = .ok c ∧
      (c.at? "q[0]" 1).any (fun n => n.gate == "rz") ∧ (c.at? "q[1]" 3).any (fun n => n.gate == "mixphase") ∧
      Scope.Flattens { circuit := { name := "main" } } (p.statements.map Statement.body) steps ∧
      runAll steps { name := "main" } = .ok c := by
  have hread : (Grammar.read overtakenGate).toOption.any (fun p => (p.toCircuit "main").toOption.any fun c =>
      (c.at? "q[0]" 1).any (fun n => n.gate == "rz") && (c.at? "q[1]" 3).any fun n => n.gate == "mixphase") = true := by
    decide +kernel
  obtain ⟨p, hp, hread⟩ := (Option.any_eq_true _ _).mp hread
  obtain ⟨c, hc, hread⟩ := (Option.any_eq_true _ _).mp hread
  rw [toOption_eq_some] at hp hc
  rw [Bool.and_eq_true] at hread
  obtain ⟨steps, hsteps, hrun⟩ := ((toCircuit_iff_flattens p "main").2.2 c).mp hc
  exact ⟨p, c, steps, hp, hc, hread.1, hread.2, hsteps, hrun⟩

end Qasm

end Sequencer
