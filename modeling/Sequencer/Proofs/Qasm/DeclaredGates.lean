import Sequencer.Proofs.Qasm.Flattening

/-!
# What a declared gate stands for

A gate can be declared under any name that no other gate has, also under that
of a built-in gate, under one with repeated control letters and under that of a
channel. A call is looked up among those first. So a declaration counts exactly
where its name is none of them; there every call places the operations of the
body, and elsewhere the body plays no part.
-/

namespace Sequencer.Qasm

/-- The upper-case primitives stand for built-in gates, so every other name is
looked up as it is written. -/
theorem Scope.builtinName_of_not_primitive {s : Scope} {gate : String} (h : s.isPrimitive gate = false) :
    builtinName gate = gate := by
  have hupper (name : String) (hname : (Gate.single? (builtinName name)).isSome = true ∨
      (Gate.splitControls (builtinName name)).isSome = true) : gate ≠ name := by
    rintro rfl
    rcases hname with hname | hname <;> simp [isPrimitive, hname] at h
  rw [builtinName, if_neg (hupper "U" (.inl (by decide))), if_neg (hupper "CX" (.inr (by decide)))]

theorem Scope.mem_gates_iff {name : String} {bodies : List StatementBody} {s : Scope}
    (h : bodies.foldlM Scope.step { circuit := { name := name } } = .ok s) {d : GateDeclaration} :
    d ∈ s.gates ↔ StatementBody.gate d ∈ bodies := by
  refine (foldlM_keeps (P := fun done s => s.Layered ∧ (d ∈ s.gates ↔ StatementBody.gate d ∈ done))
    ⟨layered_start _, by simp⟩ ?_ h).2
  rintro done body rest b b' - ⟨hlayered, hgates⟩ hstep
  obtain ⟨steps, s', c, hyields, -, rfl⟩ := (step_iff hlayered rfl rfl).mp hstep
  refine ⟨(hlayered.yields hyields).withCircuit c, ?_⟩
  rw [gates_withCircuit, List.mem_append, List.mem_singleton]
  cases hyields with
  | gate declared =>
    obtain ⟨-, -, rfl⟩ := declareGate_ok declared
    rw [List.mem_cons, hgates, StatementBody.gate.injEq, or_comm]
  | inclusion | quantumRegister | classicalRegister | named | action | guarded =>
    rw [or_iff_left (by simp)]
    exact hgates

section
variable {s : Scope} {newer gates : List GateDeclaration} {d : GateDeclaration} {i : Instance} {c c' : Circuit}

theorem applyInstance_of_declared (hs : s.Layered) (hsplit : s.gates = newer ++ gates) (hd : d ∈ gates)
    (hi : i.gate = d.name) (hprimitive : s.isPrimitive d.name = false) :
    applyInstance s.channels gates i c = .ok c' ↔
      i.params.length = d.params.length ∧ i.qubits.length = d.args.length ∧
        ∃ inner calls, List.Forall₂ (Inlined d i) d.body inner ∧ Expands s.resolve inner calls ∧
          performAll calls c = .ok c' := by
  have hresolve : s.resolve i.gate = some (.user d) := by
    rw [hi]
    exact hs.resolve_of_mem hprimitive (by simp [hsplit, hd]) (Scope.builtinName_of_not_primitive hprimitive).symm
  have hreach : ∀ e, s.resolve i.gate = some (.user e) → e ∈ gates := by
    intro e he
    cases he.symm.trans hresolve
    exact hd
  rw [applyInstance_iff hs hsplit hreach]
  constructor
  · rintro ⟨calls, hcalls, hc'⟩
    rcases expands_singleton.mp hcalls with ⟨call, hcall, -⟩ | ⟨e, he, params, qubits, inner, body, first⟩
    · exact absurd hresolve (hcall.not_user d)
    · cases he.symm.trans hresolve
      exact ⟨params, qubits, inner, calls, body, first, hc'⟩
  · rintro ⟨params, qubits, inner, calls, body, first, hc'⟩
    exact ⟨calls, expands_singleton.mpr (.inr ⟨d, hresolve, params, qubits, inner, body, first⟩), hc'⟩

/-- A call under a name that comes first is one builder call, whatever is
declared under the name. -/
theorem applyInstance_of_overruled (hprimitive : s.isPrimitive i.gate = true) :
    applyInstance s.channels gates i c = .ok c' ↔
      ∃ call, PrimitiveCall s.resolve i call ∧ c.perform call = .ok c' := by
  rw [applyInstance_of_primitive hprimitive]
  constructor
  · rintro ⟨calls, hcalls, hc'⟩
    rcases expands_singleton.mp hcalls with ⟨call, hcall, rfl⟩ | ⟨e, he, -⟩
    · exact ⟨call, hcall, performAll_singleton.mp hc'⟩
    · simp [Scope.resolve_user, hprimitive] at he
  · rintro ⟨call, hcall, hc'⟩
    exact ⟨[call], .primitive hcall .nil, performAll_singleton.mpr hc'⟩

end

/-- Wherever a program has come to, a gate that it declared stands for its name
exactly when the name is no built-in gate, none with repeated control letters
and no channel. Calls of the name are looked up among `gates`: all of them at
the top level, and those before a gate in its body. They place the operations of
the body where the gate stands for the name, and else one builder call in which
the body plays no part. -/
theorem declared_gate_calls {name : String} {bodies : List StatementBody} {s : Scope}
    (reached : bodies.foldlM Scope.step { circuit := { name := name } } = .ok s) {d : GateDeclaration}
    (declared : StatementBody.gate d ∈ bodies) :
    (s.resolve d.name = some (.user d) ↔ s.isPrimitive d.name = false) ∧
    ∀ {newer gates : List GateDeclaration}, s.gates = newer ++ gates → d ∈ gates →
      ∀ {i : Instance}, i.gate = d.name → ∀ {c c' : Circuit},
        (s.isPrimitive d.name = false →
          (applyInstance s.channels gates i c = .ok c' ↔
            i.params.length = d.params.length ∧ i.qubits.length = d.args.length ∧
              ∃ inner calls, List.Forall₂ (Inlined d i) d.body inner ∧ Expands s.resolve inner calls ∧
                performAll calls c = .ok c')) ∧
        (s.isPrimitive d.name = true →
          (applyInstance s.channels gates i c = .ok c' ↔
            ∃ call, PrimitiveCall s.resolve i call ∧ c.perform call = .ok c')) := by
  have hs : s.Layered := (Scope.layered_start _).foldlM_step reached
  have hmem := (Scope.mem_gates_iff reached).mpr declared
  refine ⟨⟨fun h => (Scope.resolve_user.mp h).1, fun hprimitive => ?_⟩, fun hsplit hd i hi c c' =>
    ⟨fun hprimitive => applyInstance_of_declared hs hsplit hd hi hprimitive,
      fun hprimitive => applyInstance_of_overruled (hi ▸ hprimitive)⟩⟩
  exact hs.resolve_of_mem hprimitive hmem (Scope.builtinName_of_not_primitive hprimitive).symm

/-- A gate under the name of a built-in one, which another gate calls. -/
def overruledGate : List StatementBody :=
  [.quantumRegister "q" 1, .gate ⟨"h", [], ["a"], [⟨⟨3, 12⟩, "x", [], [⟨"a", none⟩]⟩]⟩,
    .gate ⟨"g", [], ["a"], [⟨⟨4, 12⟩, "x", [], [⟨"a", none⟩]⟩, ⟨⟨4, 17⟩, "h", [], [⟨"a", none⟩]⟩]⟩]

theorem declared_gate_calls_overruled :
    ∃ s c c', overruledGate.foldlM Scope.step { circuit := { name := "overruled" } } = .ok s ∧
      (∃ d, StatementBody.gate d ∈ overruledGate ∧ d.name = "h" ∧ s.resolve "h" ≠ some (.user d)) ∧
      (∃ d, StatementBody.gate d ∈ overruledGate ∧ d.name = "g" ∧ s.resolve "g" = some (.user d)) ∧
      applyInstance s.channels s.gates ⟨"h", [], ["q[0]"], none⟩ s.circuit = .ok c ∧
      s.circuit.perform (.gate "h" "q[0]" [] none) = .ok c ∧
      applyInstance s.channels s.gates ⟨"g", [], ["q[0]"], none⟩ s.circuit = .ok c' ∧
      performAll [.gate "x" "q[0]" [] none, .gate "h" "q[0]" [] none] s.circuit = .ok c' := by
  obtain ⟨s, hs⟩ : ∃ s, overruledGate.foldlM Scope.step { circuit := { name := "overruled" } } = .ok s := ⟨_, rfl⟩
  have hmem : StatementBody.gate ⟨"h", [], ["a"], [⟨⟨3, 12⟩, "x", [], [⟨"a", none⟩]⟩]⟩ ∈ overruledGate := by
    simp [overruledGate]
  have hmem' : StatementBody.gate ⟨"g", [], ["a"], [⟨⟨4, 12⟩, "x", [], [⟨"a", none⟩]⟩,
      ⟨⟨4, 17⟩, "h", [], [⟨"a", none⟩]⟩]⟩ ∈ overruledGate := by
    simp [overruledGate]
  obtain ⟨-, hcalls⟩ := declared_gate_calls hs hmem
  obtain ⟨hresolve', hcalls'⟩ := declared_gate_calls hs hmem'
  have hprimitive : s.isPrimitive "h" = true := by
    cases hs
    rfl
  have hprimitive' : s.isPrimitive "g" = false := by
    cases hs
    rfl
  have hsingle : s.resolve "h" = some (.single "h") ∧ s.resolve "x" = some (.single "x") := by
    cases hs
    exact ⟨rfl, rfl⟩
  obtain ⟨c, hc⟩ : ∃ c, s.circuit.perform (.gate "h" "q[0]" [] none) = .ok c := by
    cases hs
    exact ⟨_, rfl⟩
  obtain ⟨c', hc'⟩ : ∃ c', performAll [.gate "x" "q[0]" [] none, .gate "h" "q[0]" [] none] s.circuit = .ok c' := by
    cases hs
    exact ⟨_, rfl⟩
  refine ⟨s, c, c', hs, ⟨_, hmem, rfl, by simp [hsingle.1]⟩, ⟨_, hmem', rfl, hresolve'.mpr hprimitive'⟩,
    ?_, hc, ?_, hc'⟩
  · refine ((hcalls (List.nil_append _).symm ((Scope.mem_gates_iff hs).mpr hmem) rfl).2 hprimitive).mpr ?_
    exact ⟨_, .single hsingle.1 rfl rfl, hc⟩
  · refine ((hcalls' (List.nil_append _).symm ((Scope.mem_gates_iff hs).mpr hmem') rfl).1 hprimitive').mpr ?_
    exact ⟨rfl, rfl, [⟨"x", [], ["q[0]"], none⟩, ⟨"h", [], ["q[0]"], none⟩], _,
      .cons ⟨rfl, rfl, .cons rfl .nil, rfl⟩ (.cons ⟨rfl, rfl, .cons rfl .nil, rfl⟩ .nil),
      .primitive (.single hsingle.2 rfl rfl) (.primitive (.single hsingle.1 rfl rfl) .nil), hc'⟩

end Sequencer.Qasm
