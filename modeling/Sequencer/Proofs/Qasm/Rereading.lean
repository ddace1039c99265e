import Sequencer.Proofs.Qasm.Emission

/-!
# Calls read back

A call that a circuit writes is read as a statement that performs the call
again, wherever the registers and the channels of the circuit are declared.
-/

namespace Sequencer.Qasm

open Matcher

-- ---------------------------------------------------------------------------
-- Arguments
-- ---------------------------------------------------------------------------

structure Declarable (registers : List Register) : Prop where
  names : (registers.map Register.name).Nodup
  each : ∀ r ∈ registers, IsIdentifier r.name ∧ 0 < r.size
  counted : (registers.flatMap Register.elements).length < Integer.bound

/-- The argument is written as the element, and names it alone. -/
structure Argument.Names (registers : List Register) (a : Argument) (element : String) : Prop where
  plain : a.Plain
  text : a.text = element
  indexed : a.index.isSome = true
  declared : Circuit.sizeOf registers a.register ≠ 0
  resolves : elements a (Circuit.sizeOf registers a.register) = .ok [element]

section
variable {registers : List Register} {a : Argument} {element : String} (h : a.Names registers element) {c : Circuit}
include h

theorem Argument.Names.qubitsOf (hc : c.quantum = registers) : qubitsOf c a = .ok [element] := by
  subst hc
  exact (if_neg h.declared).trans h.resolves

theorem Argument.Names.bitsOf (hc : c.classical = registers) : bitsOf c a = .ok [element] := by
  subst hc
  exact (if_neg h.declared).trans h.resolves

end

theorem Declarable.exists_argument {registers : List Register} (h : Declarable registers) {element : String}
    (hmem : element ∈ registers.flatMap Register.elements) : ∃ a : Argument, a.Names registers element := by
  obtain ⟨r, hr, hmem⟩ := List.mem_flatMap.mp hmem
  obtain ⟨i, hi, rfl⟩ := mem_elements.mp hmem
  obtain ⟨named, positive⟩ := h.each r hr
  have hsize := sizeOf_eq h.names hr
  have hcount := size_le_of_mem hr
  have hbound := h.counted
  refine ⟨⟨r.name, some i⟩, ⟨named, ?_⟩, rfl, rfl, ?_, ?_⟩
  · rintro _ ⟨⟩
    exact ⟨i, rfl, by omega⟩
  · rw [hsize]
    omega
  · rw [hsize]
    exact if_neg (by omega)

theorem Declarable.exists_arguments {registers : List Register} (h : Declarable registers) {names : List String}
    (hmem : ∀ q ∈ names, q ∈ registers.flatMap Register.elements) :
    ∃ args, List.Forall₂ (Argument.Names registers) args names := by
  induction names with
  | nil => exact ⟨[], .nil⟩
  | cons q rest ih =>
    obtain ⟨hq, hrest⟩ := List.forall_mem_cons.mp hmem
    obtain ⟨a, ha⟩ := h.exists_argument hq
    obtain ⟨args, hargs⟩ := ih hrest
    exact ⟨a :: args, .cons ha hargs⟩

section
variable {registers : List Register} {args : List Argument} {names : List String}
  (h : List.Forall₂ (Argument.Names registers) args names)
include h

theorem plain_of_names : ∀ a ∈ args, a.Plain := by
  induction h with
  | nil => simp
  | cons ha _ ih => exact List.forall_mem_cons.mpr ⟨ha.plain, ih⟩

theorem ne_nil_of_names (hne : names ≠ []) : args ≠ [] := by
  rintro rfl
  cases h
  exact hne rfl

theorem text_of_names : args.map Argument.text = names := by
  induction h with
  | nil => rfl
  | cons ha _ ih => rw [List.map_cons, ha.text, ih]

theorem mapM_qubitsOf {c : Circuit} (hc : c.quantum = registers) : args.mapM (qubitsOf c) = .ok (names.map ([·])) := by
  induction h with
  | nil => rfl
  | cons ha _ ih => simp [List.mapM_cons, ha.qubitsOf hc, ih, bind, Except.bind, pure, Except.pure]

theorem resolveArguments_eq {c : Circuit} (hc : c.quantum = registers) (gate : String) :
    resolveArguments c gate 1 args = .ok (1, names.map ([·])) := by
  induction h with
  | nil => rfl
  | cons ha _ ih =>
    simp [resolveArguments, broadcastWidth, ha.qubitsOf hc, ha.indexed, ih, bind, Except.bind, pure, Except.pure]

end

-- ---------------------------------------------------------------------------
-- Gates by their names
-- ---------------------------------------------------------------------------

section
variable {channels : Assoc String NamedDeclaration} {params : List Float} {cond : Option Condition} {c : Circuit}

theorem applyBuiltin?_gate {name qubit : String} (known : (Gate.single? name).isSome = true)
    (count : params.length = Gate.arity name) :
    applyBuiltin? channels ⟨name, params, [qubit], cond⟩ c = some (built (c.applyGate name qubit params cond)) := by
  have hname : builtinName name = name := by
    obtain ⟨p, hp⟩ := Option.isSome_iff_exists.mp known
    rw [← Gate.name_of_single? hp]
    cases p <;> decide
  simp only [applyBuiltin?, hname, if_pos known]
  rw [checkCounts_eq_ok.mpr ⟨by rfl, count⟩]
  rfl

theorem applyBuiltin?_controlled {base target : String} {controls : List String}
    (known : (Gate.controlled? base).isSome = true) (count : params.length = Gate.arity base) (hne : controls ≠ []) :
    applyBuiltin? channels ⟨Gate.controlledName base controls.length, params, controls ++ [target], cond⟩ c =
      some (built (c.applyControlled base controls target params cond)) := by
  obtain ⟨rest, hrest⟩ := Gate.toList_of_controlled? known
  obtain ⟨more, hmore⟩ : ∃ more, (Gate.controlledName base controls.length).toList = 'c' :: more := by
    rw [Gate.toList_controlledName, hrest]
    cases controls.length - 1 with
    | zero => exact ⟨rest, rfl⟩
    | succ n => exact ⟨_, rfl⟩
  have hsplit := Gate.splitControls_controlledName known (List.length_pos_iff.mpr hne)
  generalize Gate.controlledName base controls.length = name at hmore hsplit ⊢
  have hname : builtinName name = name := by
    unfold builtinName
    split
    · rename_i heq
      simp [heq] at hmore
    · split
      · rename_i heq
        simp [heq] at hmore
      · rfl
  simp only [applyBuiltin?, hname, Gate.single?_of_toList hmore, hsplit, Option.isSome_none, Bool.false_eq_true,
    ↓reduceIte]
  rw [checkCounts_eq_ok.mpr ⟨by simp, count⟩]
  simp [bind, Except.bind]

theorem applyBuiltin?_channel {name : String} {qubits : List String} {decl : NamedDeclaration}
    (known : Gate.isChannel name = true) (count : params.length = Gate.arity name)
    (hdecl : channels.get? name = some decl) (hlen : decl.args.length = qubits.length) :
    applyBuiltin? channels ⟨name, params, qubits, none⟩ c = some (built (c.applyNamed name qubits params none)) := by
  have hname : builtinName name = name := by
    obtain ⟨ch, hch⟩ := Option.isSome_iff_exists.mp known
    rw [← Gate.name_of_channel? hch]
    cases ch <;> decide
  simp only [applyBuiltin?, hname, Gate.single?_of_channel? known, Gate.splitControls_of_channel? known, hdecl,
    Option.isSome_none, Bool.false_eq_true, ↓reduceIte, Option.map_some]
  rw [checkCounts_eq_ok.mpr ⟨hlen.symm, count⟩]
  rfl

end

-- ---------------------------------------------------------------------------
-- Statements
-- ---------------------------------------------------------------------------

/-- The registers of the circuit and its channels are declared, and no gates. -/
structure Scope.Ready (s : Scope) (c : Circuit) : Prop where
  quantum : s.circuit.quantum = c.quantum
  classical : s.circuit.classical = c.classical
  gates : s.gates = []
  channels : ∀ {name arity}, Gate.isChannel name = true → c.channelArity? name = some arity →
    ∃ decl, s.channels.get? name = some decl ∧ decl.args.length = arity

def Performs (c : Circuit) (k : BuildCall) (st : Statement) : Prop :=
  ∀ s : Scope, s.Ready c → ∀ d, s.circuit.perform k = .ok d → s.step st.body = .ok (s.withCircuit d)

theorem Scope.call_eq {s : Scope} {call : Call} {cond : Option Condition} {values : List Float} {qubits : List String}
    {r : Except Problem Circuit} (gates : s.gates = []) (heval : evalAll {} call.params = .ok values)
    (hargs : List.Forall₂ (Argument.Names s.circuit.quantum) call.args qubits)
    (hr : applyBuiltin? s.channels ⟨call.name, values, qubits, cond⟩ s.circuit = some r) : s.call call cond = r := by
  have hpick : (qubits.map ([·])).map (pick 0) = qubits := by simp [pick, Function.comp_def]
  simp only [Scope.call, heval, resolveArguments_eq hargs rfl]
  change List.foldlM (fun c k => applyInstance s.channels s.gates
    ⟨call.name, values, (qubits.map ([·])).map (pick k), cond⟩ c) s.circuit [0] = r
  simp only [List.foldlM_cons, List.foldlM_nil, bind_pure, hpick, gates, applyInstance, hr, Option.getD_some]

theorem exists_guard {classical : List Register} (hc : Declarable classical) {k : Condition}
    (h : k.Resolved classical) : ∃ (guard : Argument) (value : Nat), guard.Plain ∧ value < Integer.bound ∧
      Circuit.guardText (some k) = "if(" ++ guard.text ++ "==" ++ toString value ++ ") " ∧
      ∀ c : Circuit, c.classical = classical → c.condition guard.register guard.index value = .ok k := by
  cases h with
  | @register r value declared several low high =>
    obtain ⟨value, rfl⟩ := Int.eq_ofNat_of_zero_le low
    refine ⟨⟨r.name, none⟩, value, ⟨(hc.each r declared).1, by simp⟩, by omega, rfl, fun c hclassical => ?_⟩
    have hsize : c.classicalSize r.name = r.size := by rw [Circuit.classicalSize, hclassical, sizeOf_eq hc.names declared]
    simp only [Circuit.condition, hsize]
    rw [if_neg (by omega), if_pos ⟨rfl, several⟩]
  | @bit r i value declared inside low high =>
    obtain ⟨value, rfl⟩ := Int.eq_ofNat_of_zero_le low
    have hcount := size_le_of_mem declared
    have hbound := hc.counted
    refine ⟨⟨r.name, some i⟩, value, ⟨(hc.each r declared).1, ?_⟩, by omega, rfl, fun c hclassical => ?_⟩
    · rintro _ ⟨⟩
      exact ⟨i, rfl, by omega⟩
    · have hsize : c.classicalSize r.name = r.size := by
        rw [Circuit.classicalSize, hclassical, sizeOf_eq hc.names declared]
      simp only [Circuit.condition, hsize]
      rw [if_neg (by omega), if_neg (by simp [Option.filter])]
      simp [Option.filter, inside]

theorem Phrase.mono {α : Type} {p : Matcher α} {text first : String} {P Q : α → Prop} (h : Phrase p text first P)
    (hPQ : ∀ a, P a → Q a) : Phrase p text first Q := by
  obtain ⟨fs, hlexes, hreads⟩ := h
  exact ⟨fs, hlexes, hreads.mono hPQ⟩

def keywords : List String := ["include", "qreg", "creg", "gate", "opaque", "if", "measure", "reset", "barrier"]

structure Callable (name : String) : Prop where
  identifier : IsIdentifier name
  other : name ∉ keywords

theorem callable_of_single? {name : String} (h : (Gate.single? name).isSome = true) : Callable name := by
  obtain ⟨p, hp⟩ := Option.isSome_iff_exists.mp h
  rw [← Gate.name_of_single? hp]
  cases p <;> exact ⟨by decide, by decide⟩

theorem callable_of_channel? {name : String} (h : Gate.isChannel name = true) : Callable name := by
  obtain ⟨ch, hch⟩ := Option.isSome_iff_exists.mp h
  rw [← Gate.name_of_channel? hch]
  cases ch <;> exact ⟨by decide, by decide⟩

theorem callable_controlledName {base : String} (h : (Gate.controlled? base).isSome = true) {n : Nat} (hn : 0 < n) :
    Callable (Gate.controlledName base n) := by
  refine ⟨?_, fun hmem => ?_⟩
  · obtain ⟨p, hp⟩ := Option.isSome_iff_exists.mp h
    obtain ⟨c, rest, hbase, hletter, hrest⟩ : IsIdentifier base := by
      rw [← Gate.name_of_controlled? hp]
      cases p <;> decide
    rw [IsIdentifier, Gate.toList_controlledName, hbase]
    cases n - 1 with
    | zero => exact ⟨c, rest, rfl, hletter, hrest⟩
    | succ n =>
      refine ⟨'c', List.replicate n 'c' ++ c :: rest, rfl, rfl, ?_⟩
      intro d hd
      rcases List.mem_append.mp hd with hd | hd
      · rw [List.eq_of_mem_replicate hd]
        rfl
      · rcases List.mem_cons.mp hd with rfl | hd
        · simp [isLetterOrDigit, hletter]
        · exact hrest d hd
  · -- no keyword has the form of a controlled gate
    have hnone : ∀ word ∈ keywords, Gate.splitControls word = none := by decide
    have hsome := Gate.splitControls_controlledName h hn
    rw [hnone _ hmem] at hsome
    cases hsome

section
variable {c : Circuit} {k : BuildCall} {cond : Option Condition} (hc : Declarable c.classical)
  (resolved : ∀ k ∈ cond, k.Resolved c.classical)
include hc resolved

theorem Phrase.performs {text first : String} {P : Action → Prop} (h : Phrase Grammar.action text first P)
    (hword : first ∉ ["include", "qreg", "creg", "gate", "opaque", "if"])
    (hP : ∀ a, P a → (cond.isSome = true → a.checkGuarded = .ok ()) ∧
      ∀ s : Scope, s.Ready c → ∀ d, s.circuit.perform k = .ok d → s.act a cond = .ok d) :
    ∃ first', Phrase Grammar.statement (Circuit.guardText cond ++ text) first' (Performs c k) := by
  cases cond with
  | none =>
    refine ⟨first, ?_⟩
    rw [Circuit.guardText, String.empty_append]
    refine (h.unguarded hword).mono ?_
    rintro st ⟨a, hbody, ha⟩ s ready d hd
    simp [hbody, Scope.step, (hP a ha).2 s ready d hd, bind, Except.bind, pure, Except.pure]
  | some condition =>
    obtain ⟨guard, value, plain, small, htext, hresolves⟩ := exists_guard hc (resolved condition rfl)
    refine ⟨"if", ?_⟩
    rw [htext]
    refine (h.guarded plain small).mono ?_
    rintro st ⟨a, hbody, ha⟩ s ready d hd
    obtain ⟨hguarded, hact⟩ := hP a ha
    simp [hbody, Scope.step, hresolves s.circuit ready.classical, hguarded rfl, hact s ready d hd, mapError_ok,
      bind, Except.bind, pure, Except.pure]

theorem phrase_performs (hq : Declarable c.quantum) {name : String} (callable : Callable name)
    {params values : List Float} (reads : ReadAs params values) {qubits : List String}
    (hmem : ∀ q ∈ qubits, q ∈ c.qubits) (hne : qubits ≠ [])
    (hk : ∀ s : Scope, s.Ready c → ∀ d, s.circuit.perform k = .ok d →
      applyBuiltin? s.channels ⟨name, values, qubits, cond⟩ s.circuit = some (.ok d)) :
    ∃ first, Phrase Grammar.statement
      (Circuit.guardText cond ++ (headText name params ++ " " ++ Circuit.joined qubits ++ ";\n")) first (Performs c k) := by
  obtain ⟨args, hargs⟩ := hq.exists_arguments hmem
  have hcall := phrase_call (plain_of_names hargs) (ne_nil_of_names hargs hne) callable.identifier
    (fun h => callable.other (List.mem_append_right ["include", "qreg", "creg", "gate", "opaque", "if"] h)) reads
  rw [text_of_names hargs] at hcall
  refine hcall.performs hc resolved
    (fun h => callable.other (List.mem_append_left ["measure", "reset", "barrier"] h)) ?_
  rintro _ ⟨call, rfl, rfl, rfl, heval⟩
  refine ⟨fun _ => rfl, fun s ready d hd => ?_⟩
  exact Scope.call_eq ready.gates heval (ready.quantum ▸ hargs) (hk s ready d hd)

end

-- ---------------------------------------------------------------------------
-- The calls of a circuit
-- ---------------------------------------------------------------------------

section
variable {c : Circuit} (wf : c.WellFormed)
include wf

theorem phrase_of_mem_calls (admits : ∀ {q t n}, c.at? q t = some n → n.Admitted c.classical)
    (hq : Declarable c.quantum) (hc : Declarable c.classical)
    (arity : ∀ {q t n}, c.at? q t = some n → Gate.isChannel n.gate = true →
      c.channelArity? n.gate = some (n.partners.length + 1)) {value : Float → Float}
    (reads : ∀ {q t n}, c.at? q t = some n → ∀ v ∈ n.params, Evaluates (Parameter.text v) (value v))
    {t : Int} {k : BuildCall} (h : (t, k) ∈ c.calls) :
    ∃ first, Phrase Grammar.statement k.text first (Performs c (k.mapParams value)) := by
  rcases (Circuit.mem_sliceCalls wf).mp ((Circuit.mem_calls wf).mp h) with ⟨q, n, hn, plain, -, rfl⟩ | ⟨hne, rfl⟩
  · have hown := wf.mem_qubits hn
    have hmem : ∀ p ∈ q :: n.partners, p ∈ c.qubits := by
      intro p hp
      obtain ⟨m, hm, -⟩ := wf.participant hn hp
      exact wf.mem_qubits hm
    have hreads : ReadAs n.params (n.params.map value) := by
      rw [ReadAs, List.forall₂_map_right_iff, List.forall₂_same]
      exact reads hn
    have hpartners := wf.controlled hn
    have hmeasured := wf.measured hn
    have harity := arity hn
    cases admits hn with
    | @gate name params cond _ known count resolved =>
      have hcall := phrase_performs (k := .gate name q (params.map value) cond) hc resolved hq
        (callable_of_single? known) hreads hmem (by simp) fun s _ d hd => by
          rw [applyBuiltin?_gate known (by simpa using count)]
          exact congrArg (fun r => some (built r)) hd
      simpa [Node.call, Gate.isChannel, Gate.channel?_of_single? known, BuildCall.text, BuildCall.mapParams] using hcall
    | @controlled name partners params target cond _ known count resolved =>
      have hcallable := callable_controlledName known (List.length_pos_iff.mpr (hpartners rfl))
      have hwritten : ∀ p ∈ partners ++ [q], p ∈ c.qubits := by
        intro p hp
        exact hmem p (by simpa [or_comm] using hp)
      exact phrase_performs hc resolved hq hcallable hreads hwritten (by simp) fun s _ d hd => by
        rw [applyBuiltin?_controlled known (by simpa using count) (hpartners rfl)]
        exact congrArg (fun r => some (built r)) hd
    | @measure bit =>
      obtain ⟨a, ha⟩ := hq.exists_argument hown
      obtain ⟨b, hb⟩ := hc.exists_argument ((hmeasured rfl).2.2.2 bit (by simp))
      have hphrase := phrase_measure ha.plain hb.plain
      rw [ha.text, hb.text] at hphrase
      refine Phrase.performs hc (by simp) hphrase (by decide) ?_
      rintro _ rfl
      refine ⟨by simp, fun s ready d hd => ?_⟩
      have hqubits : qubitsOf s.circuit a = .ok [q] := ha.qubitsOf ready.quantum
      have hbits : bitsOf s.circuit b = .ok [bit] := hb.bitsOf ready.classical
      simp only [Scope.act, hqubits, hbits]
      exact congrArg built hd
    | reset =>
      obtain ⟨a, ha⟩ := hq.exists_argument hown
      have hphrase := phrase_reset ha.plain
      rw [ha.text] at hphrase
      refine Phrase.performs hc (by simp) hphrase (by decide) ?_
      rintro _ rfl
      refine ⟨by simp, fun s ready d hd => ?_⟩
      simp only [Scope.act, ha.qubitsOf ready.quantum]
      exact congrArg built hd
    | barrier => cases plain
    | @channel name partners params _ known count =>
      have hfree : ∀ k ∈ (none : Option Condition), k.Resolved c.classical := by simp
      have hcall := phrase_performs (k := .named name (q :: partners) (params.map value) none) hc hfree
        hq (callable_of_channel? known) hreads hmem (by simp) fun s ready d hd => by
          obtain ⟨decl, hdecl, hlen⟩ := ready.channels known (harity known)
          rw [applyBuiltin?_channel known (by simpa using count) hdecl (by simpa using hlen)]
          exact congrArg (fun r => some (built r)) hd
      simpa [Node.call, known, BuildCall.text, BuildCall.mapParams] using hcall
  · have hmem : ∀ q ∈ c.barred t, q ∈ c.qubits := by
      intro q hq
      obtain ⟨n, hn, -⟩ := (Circuit.mem_barred wf).mp hq
      exact wf.mem_qubits hn
    obtain ⟨args, hargs⟩ := hq.exists_arguments hmem
    have hphrase := phrase_barrier (plain_of_names hargs) (ne_nil_of_names hargs hne)
    rw [text_of_names hargs] at hphrase
    have hact (s : Scope) (ready : s.Ready c) (d : Circuit) (hd : s.circuit.perform (.barrier (c.barred t)) = .ok d) :
        s.act (.barrier args) none = .ok d := by
      have hflatten : ((c.barred t).map ([·])).flatten = c.barred t := by
        rw [← List.flatMap_def, List.flatMap_singleton']
      simp only [Scope.act, mapM_qubitsOf hargs ready.quantum]
      change built (s.circuit.barrier ((c.barred t).map ([·])).flatten) = _
      rw [hflatten]
      exact congrArg built hd
    refine ⟨"barrier", (hphrase.unguarded (by decide)).mono ?_⟩
    rintro st ⟨_, hbody, rfl⟩ s ready d hd
    simp [hbody, Scope.step, hact s ready d hd, bind, Except.bind, pure, Except.pure]

end

end Sequencer.Qasm
