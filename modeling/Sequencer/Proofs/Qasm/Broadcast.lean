import Sequencer.Proofs.Qasm.Flattening

/-!
# Calls on whole registers

A call on whole registers stands for one instance per element. The width is
taken from left to right, and a register of one qubit, which leaves it at one,
counts as if none had been given yet. So a call is refused exactly when a
register of several qubits is followed by one of another size. A register of
one qubit in front of a larger one is let through, and gives its only qubit to
every instance; behind a larger one it is refused.
-/

namespace Sequencer.Qasm

def wholeSizes (c : Circuit) (args : List Argument) : List Nat :=
  (args.filter fun a => a.index.isNone).map fun a => (c.quantumSize a.register).toNat

/-- A register of this size can be followed by one of the later size. -/
def Joins (size later : Nat) : Prop := 1 < size → later = size

instance (size later : Nat) : Decidable (Joins size later) := inferInstanceAs (Decidable (_ → _))

/-- The qubit that an argument gives to instance `k`: its own if it is indexed,
the only one of a register of one qubit, and else element `k`. -/
def Argument.element (c : Circuit) (k : Nat) (a : Argument) : String :=
  match a.index with
  | some i => elementName a.register i
  | none => elementName a.register (if c.quantumSize a.register = 1 then 0 else k)

-- ---------------------------------------------------------------------------
-- Sizes
-- ---------------------------------------------------------------------------

theorem Joins.max_eq {m n : Nat} (h : Joins m n) (hn : 1 ≤ n) : max m n = n := by
  unfold Joins at h
  omega

/-- It is enough that each register joins the next one. -/
theorem pairwise_joins_cons {m n : Nat} {sizes : List Nat} :
    (m :: n :: sizes).Pairwise Joins ↔ Joins m n ∧ (n :: sizes).Pairwise Joins := by
  constructor
  · intro h
    obtain ⟨hm, hn⟩ := List.pairwise_cons.mp h
    exact ⟨hm n List.mem_cons_self, hn⟩
  · rintro ⟨hmn, hn⟩
    refine List.pairwise_cons.mpr ⟨List.forall_mem_cons.mpr ⟨hmn, fun x hx hm => ?_⟩, hn⟩
    obtain rfl := hmn hm
    exact (List.pairwise_cons.mp hn).1 x hx hm

theorem eq_width_of_joins {m : Nat} {sizes : List Nat} (h : (m :: sizes).Pairwise Joins)
    (hpos : ∀ n ∈ sizes, 1 ≤ n) : ∀ n ∈ m :: sizes, n ≤ 1 ∨ n = sizes.foldl max m := by
  induction sizes generalizing m with
  | nil => simp
  | cons n sizes ih =>
    obtain ⟨hn, hpos⟩ := List.forall_mem_cons.mp hpos
    obtain ⟨hmn, h⟩ := pairwise_joins_cons.mp h
    rw [List.foldl_cons, hmn.max_eq hn]
    refine List.forall_mem_cons.mpr ⟨?_, ih h hpos⟩
    by_cases hm : m ≤ 1
    · exact .inl hm
    · rw [← hmn (by omega)]
      exact ih h hpos n List.mem_cons_self

/-- Unless a register of one qubit comes before a larger one, accepted registers
have one size. -/
theorem pairwise_joins_iff_eq {sizes : List Nat} (hpos : ∀ n ∈ sizes, 1 ≤ n)
    (single : sizes.Pairwise fun m n => m = 1 → n = 1) : sizes.Pairwise Joins ↔ sizes.Pairwise (· = ·) := by
  constructor
  · intro h
    refine (h.and single).imp_of_mem fun {m n} hm _ hmn => ?_
    have := hpos m hm
    have hjoin : 1 < m → n = m := hmn.1
    have := hmn.2
    omega
  · exact fun h => h.imp fun hmn _ => hmn.symm

-- ---------------------------------------------------------------------------
-- Arguments
-- ---------------------------------------------------------------------------

section
variable {c : Circuit} {a : Argument} {qubits : List String}

theorem qubitsOf_indexed {i : Int} (hi : a.index = some i) (h : qubitsOf c a = .ok qubits) :
    qubits = [elementName a.register i] := by
  simp only [qubitsOf, elements, hi] at h
  split at h
  · cases h
  · split at h
    · cases h
    · cases h
      rfl

theorem qubitsOf_whole (hi : a.index = none) (h : qubitsOf c a = .ok qubits) :
    c.quantumSize a.register ≠ 0 ∧ qubits = Register.elements ⟨a.register, c.quantumSize a.register⟩ := by
  simp only [qubitsOf, elements, hi] at h
  split at h
  · cases h
  · rename_i hsize
    cases h
    exact ⟨hsize, rfl⟩

theorem wholeSizes_cons_indexed {i : Int} (hi : a.index = some i) (rest : List Argument) :
    wholeSizes c (a :: rest) = wholeSizes c rest := by
  simp [wholeSizes, hi]

theorem wholeSizes_cons_whole (hi : a.index = none) (rest : List Argument) :
    wholeSizes c (a :: rest) = (c.quantumSize a.register).toNat :: wholeSizes c rest := by
  simp [wholeSizes, hi]

end

section
variable {c : Circuit} (pos : ∀ r ∈ c.quantum, 0 < r.size)
include pos

theorem quantumSize_pos {register : String} (h : c.quantumSize register ≠ 0) : 0 < c.quantumSize register := by
  obtain ⟨r, hr, -, hsize⟩ := exists_of_sizeOf h
  rw [Circuit.quantumSize, hsize]
  exact pos r hr

theorem wholeSizes_pos {args : List Argument} (resolves : ∀ a ∈ args, ∃ qubits, qubitsOf c a = .ok qubits) :
    ∀ n ∈ wholeSizes c args, 1 ≤ n := by
  intro n hn
  obtain ⟨a, ha, rfl⟩ := List.mem_map.mp hn
  obtain ⟨ha, hindex⟩ := List.mem_filter.mp ha
  obtain ⟨qubits, hqubits⟩ := resolves a ha
  have := quantumSize_pos pos (qubitsOf_whole (Option.isNone_iff_eq_none.mp hindex) hqubits).1
  omega

/-- Going through the arguments ends with the largest size, or at the first
register that does not join. -/
theorem resolveArguments_cases (gate : String) {args : List Argument}
    (resolves : ∀ a ∈ args, ∃ qubits, qubitsOf c a = .ok qubits) (width : Nat) :
    (width :: wholeSizes c args).Pairwise Joins ∧
        resolveArguments c gate width args =
          .ok ((wholeSizes c args).foldl max width, args.map fun a => (qubitsOf c a).toOption.getD []) ∨
      ¬ (width :: wholeSizes c args).Pairwise Joins ∧
        resolveArguments c gate width args = .error (.differentSizes gate) := by
  induction args generalizing width with
  | nil => exact .inl ⟨List.pairwise_singleton .., rfl⟩
  | cons a rest ih =>
    obtain ⟨⟨qubits, hqubits⟩, hrest⟩ := List.forall_mem_cons.mp resolves
    have hstep (next : Nat) (hnext : broadcastWidth gate width a qubits = .ok next) :
        resolveArguments c gate width (a :: rest) =
          (resolveArguments c gate next rest).map fun r => (r.1, qubits :: r.2) := by
      simp only [resolveArguments, hqubits, bind, Except.bind, hnext]
      cases resolveArguments c gate next rest with
      | ok r => rfl
      | error e => rfl
    cases hi : a.index with
    | some i =>
      rw [wholeSizes_cons_indexed hi, hstep width (by simp [broadcastWidth, hi])]
      rcases ih hrest width with ⟨hjoins, hmore⟩ | ⟨hapart, herror⟩
      · exact .inl ⟨hjoins, by rw [hmore, List.map_cons, hqubits]; rfl⟩
      · exact .inr ⟨hapart, by rw [herror]; rfl⟩
    | none =>
      obtain ⟨hsize, hwhole⟩ := qubitsOf_whole hi hqubits
      have hpos := quantumSize_pos pos hsize
      have hlength : qubits.length = (c.quantumSize a.register).toNat := by simp [hwhole, Register.elements]
      rw [wholeSizes_cons_whole hi, pairwise_joins_cons, ← hlength]
      by_cases hjoin : Joins width qubits.length
      · have hnext : broadcastWidth gate width a qubits = .ok qubits.length := by
          have hsame : ¬ (1 < width ∧ qubits.length ≠ width) := fun h => h.2 (hjoin h.1)
          simp [broadcastWidth, hi, hsame]
        rw [hstep _ hnext, List.foldl_cons, hjoin.max_eq (by omega)]
        rcases ih hrest qubits.length with ⟨hjoins, hmore⟩ | ⟨hapart, herror⟩
        · exact .inl ⟨⟨hjoin, hjoins⟩, by rw [hmore, List.map_cons, hqubits]; rfl⟩
        · exact .inr ⟨fun h => hapart h.2, by rw [herror]; rfl⟩
      · refine .inr ⟨fun h => hjoin h.1, ?_⟩
        have hdiffer : 1 < width ∧ qubits.length ≠ width := by
          simpa [Joins] using hjoin
        simp [resolveArguments, hqubits, bind, Except.bind, broadcastWidth, hi, hdiffer]

theorem pick_eq_element {args : List Argument} (resolves : ∀ a ∈ args, ∃ qubits, qubitsOf c a = .ok qubits)
    (joins : (wholeSizes c args).Pairwise Joins) {k : Nat} (hk : k < (wholeSizes c args).foldl max 1)
    {a : Argument} (ha : a ∈ args) {qubits : List String} (hqubits : qubitsOf c a = .ok qubits) :
    pick k qubits = a.element c k ∧ (a.index = none → a.element c k ∈ c.qubits) := by
  cases hi : a.index with
  | some i =>
    rw [qubitsOf_indexed hi hqubits]
    simp [pick, Argument.element, hi]
  | none =>
    obtain ⟨hsize, rfl⟩ := qubitsOf_whole hi hqubits
    have hpos := quantumSize_pos pos hsize
    have hmem : (c.quantumSize a.register).toNat ∈ wholeSizes c args :=
      List.mem_map.mpr ⟨a, List.mem_filter.mpr ⟨ha, by simp [hi]⟩, rfl⟩
    have hwidth := eq_width_of_joins (m := 1)
      (List.pairwise_cons.mpr ⟨fun _ _ h => absurd h (Nat.lt_irrefl 1), joins⟩) (wholeSizes_pos pos resolves) _
      (List.mem_cons_of_mem _ hmem)
    have hqubit {j : Nat} (hj : j < (c.quantumSize a.register).toNat) :
        elementName a.register j ∈ c.qubits := by
      obtain ⟨r, hr, hname, hrsize⟩ := exists_of_sizeOf hsize
      refine List.mem_flatMap.mpr ⟨r, hr, mem_elements.mpr ⟨j, ?_, by rw [hname]⟩⟩
      rwa [← hrsize]
    by_cases hone : c.quantumSize a.register = 1
    · simp only [Argument.element, hi, hone, ↓reduceIte]
      exact ⟨rfl, fun _ => hqubit (j := 0) (by omega)⟩
    · have hlt : k < (c.quantumSize a.register).toNat := by omega
      have hlength : (Register.elements ⟨a.register, c.quantumSize a.register⟩).length =
          (c.quantumSize a.register).toNat := by simp [Register.elements]
      refine ⟨?_, fun _ => by simpa only [Argument.element, hi, hone, ↓reduceIte] using hqubit hlt⟩
      unfold pick
      split
      · rename_i q hq
        rw [hq, List.length_singleton] at hlength
        omega
      · simp [Argument.element, hi, hone, Register.elements, hlt]

end

-- ---------------------------------------------------------------------------
-- Instances
-- ---------------------------------------------------------------------------

section
variable {gate : String} {i : Instance} {c : Circuit}

theorem checkCounts_ne_differentSizes {name : String} {qubits params : Nat} :
    checkCounts name qubits params i ≠ .error (.differentSizes gate) := by
  intro h
  simp only [checkCounts, check_eq_error] at h
  rcases h with ⟨-, h⟩ | ⟨-, h⟩
  · cases h
  · split at h
    · cases h
    · cases h

theorem built_ne_differentSizes {r : Except BuildError Circuit} : built r ≠ .error (.differentSizes gate) := by
  intro h
  obtain ⟨e, -, he⟩ := mapError_eq_error.mp h
  cases he

theorem applyBuiltin?_ne_differentSizes {channels : Assoc String NamedDeclaration} :
    applyBuiltin? channels i c ≠ some (.error (.differentSizes gate)) := by
  intro h
  simp only [applyBuiltin?] at h
  split at h
  · simp only [Option.some.injEq, bind_eq_error, checkCounts_ne_differentSizes, built_ne_differentSizes, and_false,
      exists_false, or_self] at h
  · split at h
    · simp only [Option.some.injEq, bind_eq_error, checkCounts_ne_differentSizes, built_ne_differentSizes, and_false,
        exists_false, or_self] at h
    · obtain ⟨d, -, h⟩ := Option.map_eq_some_iff.mp h
      simp only [bind_eq_error, check_eq_error, checkCounts_ne_differentSizes, built_ne_differentSizes, reduceCtorEq,
        and_false, or_self, exists_false] at h

theorem inline_ne_differentSizes {apply : Instance → Circuit → Except Problem Circuit} {d : GateDeclaration} :
    inline apply d i c ≠ .error (.differentSizes gate) := by
  intro h
  simp only [inline, check_eq_error, reduceCtorEq, and_false, false_or] at h
  refine foldlM_ne_error (fun b call hcall => ?_) h.2.2
  obtain ⟨e, -, he⟩ := mapError_eq_error.mp hcall
  cases he

theorem applyInstance_ne_differentSizes {channels : Assoc String NamedDeclaration} {gates : List GateDeclaration} :
    applyInstance channels gates i c ≠ .error (.differentSizes gate) := by
  intro h
  cases hbuiltin : applyBuiltin? channels i c with
  | some r =>
    have hr : r = .error (.differentSizes gate) := by
      cases gates with
      | nil => simpa only [applyInstance, hbuiltin, Option.getD_some] using h
      | cons d older => simpa only [applyInstance, hbuiltin] using h
    exact applyBuiltin?_ne_differentSizes (hr ▸ hbuiltin)
  | none =>
    induction gates with
    | nil =>
      rw [applyInstance, hbuiltin] at h
      cases h
    | cons d older ih =>
      simp only [applyInstance, hbuiltin] at h
      split at h
      · exact inline_ne_differentSizes h
      · exact ih h

end

namespace Scope
variable {s : Scope} {call : Call} {params : List Float} {cond : Option Condition}

theorem call_eq_foldlM (hparams : evalAll {} call.params = .ok params) :
    s.call call cond = resolveArguments s.circuit call.name 1 call.args >>= fun r =>
      ((List.range r.1).map fun k => Instance.mk call.name params (r.2.map (pick k)) cond).foldlM
        (fun c i => applyInstance s.channels s.gates i c) s.circuit := by
  simp only [Scope.call, hparams, List.foldlM_map]
  rfl

theorem call_of_joins (pos : ∀ r ∈ s.circuit.quantum, 0 < r.size) (hparams : evalAll {} call.params = .ok params)
    (resolves : ∀ a ∈ call.args, ∃ qubits, qubitsOf s.circuit a = .ok qubits)
    (joins : (wholeSizes s.circuit call.args).Pairwise Joins) :
    s.call call cond = ((List.range ((wholeSizes s.circuit call.args).foldl max 1)).map fun k =>
      Instance.mk call.name params (call.args.map (Argument.element s.circuit k)) cond).foldlM
        (fun c i => applyInstance s.channels s.gates i c) s.circuit := by
  rcases resolveArguments_cases pos call.name resolves 1 with ⟨-, hresolve⟩ | ⟨hapart, -⟩
  · rw [call_eq_foldlM hparams, hresolve]
    refine congrArg (fun l => List.foldlM _ s.circuit l) (List.map_congr_left fun k hk => ?_)
    rw [List.map_map]
    refine congrArg (Instance.mk _ _ · _) (List.map_congr_left fun a ha => ?_)
    obtain ⟨qubits, hqubits⟩ := resolves a ha
    rw [Function.comp, hqubits]
    exact (pick_eq_element pos resolves joins (List.mem_range.mp hk) ha hqubits).1
  · exact absurd (List.pairwise_cons.mpr ⟨fun _ _ h => absurd h (Nat.lt_irrefl 1), joins⟩) hapart

theorem call_of_apart (pos : ∀ r ∈ s.circuit.quantum, 0 < r.size) (hparams : evalAll {} call.params = .ok params)
    (resolves : ∀ a ∈ call.args, ∃ qubits, qubitsOf s.circuit a = .ok qubits)
    (apart : ¬ (wholeSizes s.circuit call.args).Pairwise Joins) :
    s.call call cond = .error (.differentSizes call.name) := by
  rcases resolveArguments_cases pos call.name resolves 1 with ⟨hjoins, -⟩ | ⟨-, herror⟩
  · exact absurd (List.pairwise_cons.mp hjoins).2 apart
  · rw [call_eq_foldlM hparams, herror]
    rfl

theorem sizes_pos {name : String} {bodies : List StatementBody}
    (h : bodies.foldlM Scope.step { circuit := { name := name } } = .ok s) :
    ∀ r ∈ s.circuit.quantum, 0 < r.size := by
  refine (foldlM_keeps (P := fun _ s => s.Layered ∧ ∀ r ∈ s.circuit.quantum, 0 < r.size)
    ⟨layered_start _, by simp⟩ ?_ h).2
  rintro done body rest b b' - ⟨hlayered, hpos⟩ hstep
  obtain ⟨steps, s', d, hyields, hd, rfl⟩ := (step_iff hlayered rfl rfl).mp hstep
  refine ⟨(hlayered.yields hyields).withCircuit d, ?_⟩
  rw [circuit_withCircuit, (hyields.registers rfl rfl hd).1]
  cases hyields with
  | inclusion | classicalRegister | named | action | guarded => exact hpos
  | gate declared =>
    obtain ⟨-, -, rfl⟩ := declareGate_ok declared
    exact hpos
  | quantumRegister new =>
    simp only [checkRegister, check_eq_ok] at new
    refine List.forall_mem_append.mpr ⟨hpos, List.forall_mem_singleton.mpr ?_⟩
    exact Int.not_le.mp new.1

end Scope

/-- Wherever a program has come to, a call whose parameters have values and
whose arguments are declared is refused for the sizes of its registers exactly
when one of several qubits is followed by one of another size. Otherwise its
instances are applied in order, as many as the largest register has elements.
Where no register of one qubit comes before a larger one, this is to say that a
call is refused when two sizes differ. -/
theorem call_broadcasts {name : String} {bodies : List StatementBody} {s : Scope}
    (reached : bodies.foldlM Scope.step { circuit := { name := name } } = .ok s) (call : Call) {params : List Float}
    (hparams : evalAll {} call.params = .ok params)
    (resolves : ∀ a ∈ call.args, ∃ qubits, qubitsOf s.circuit a = .ok qubits) (cond : Option Condition) :
    (s.call call cond = .error (.differentSizes call.name) ↔ ¬ (wholeSizes s.circuit call.args).Pairwise Joins) ∧
    ((wholeSizes s.circuit call.args).Pairwise Joins →
      s.call call cond = ((List.range ((wholeSizes s.circuit call.args).foldl max 1)).map fun k =>
        Instance.mk call.name params (call.args.map (Argument.element s.circuit k)) cond).foldlM
          (fun c i => applyInstance s.channels s.gates i c) s.circuit ∧
      ∀ k < (wholeSizes s.circuit call.args).foldl max 1, ∀ a ∈ call.args, a.index = none →
        a.element s.circuit k ∈ s.circuit.qubits) ∧
    ((wholeSizes s.circuit call.args).Pairwise (fun m n => m = 1 → n = 1) →
      (s.call call cond = .error (.differentSizes call.name) ↔
        ¬ (wholeSizes s.circuit call.args).Pairwise (· = ·))) := by
  have pos := Scope.sizes_pos reached
  have refused : s.call call cond = .error (.differentSizes call.name) ↔
      ¬ (wholeSizes s.circuit call.args).Pairwise Joins := by
    refine ⟨fun herror joins => ?_, Scope.call_of_apart pos hparams resolves⟩
    rw [Scope.call_of_joins pos hparams resolves joins] at herror
    exact foldlM_ne_error (fun _ _ => applyInstance_ne_differentSizes) herror
  refine ⟨refused, fun joins => ⟨Scope.call_of_joins pos hparams resolves joins, fun k hk a ha hi => ?_⟩,
    fun single => ?_⟩
  · obtain ⟨qubits, hqubits⟩ := resolves a ha
    exact (pick_eq_element pos resolves joins hk ha hqubits).2 hi
  · rw [refused, pairwise_joins_iff_eq (wholeSizes_pos pos resolves) single]

/-- A register of one qubit and one of three. -/
def unevenRegisters : List StatementBody := [.quantumRegister "a" 1, .quantumRegister "b" 3]

/-- The gate on both registers is refused in one order only. -/
theorem call_broadcasts_uneven :
    ∃ s, unevenRegisters.foldlM Scope.step { circuit := { name := "uneven" } } = .ok s ∧
      s.call ⟨⟨4, 1⟩, "cx", [], [⟨"b", none⟩, ⟨"a", none⟩]⟩ none = .error (.differentSizes "cx") ∧
      s.call ⟨⟨4, 1⟩, "cx", [], [⟨"a", none⟩, ⟨"b", none⟩]⟩ none =
        [⟨"cx", [], ["a[0]", "b[0]"], none⟩, ⟨"cx", [], ["a[0]", "b[1]"], none⟩,
          ⟨"cx", [], ["a[0]", "b[2]"], none⟩].foldlM (fun c i => applyInstance s.channels s.gates i c) s.circuit := by
  obtain ⟨s, hs⟩ : ∃ s, unevenRegisters.foldlM Scope.step { circuit := { name := "uneven" } } = .ok s := ⟨_, rfl⟩
  have ha : s.circuit.quantumSize "a" = 1 := by
    cases hs
    rfl
  have hb : s.circuit.quantumSize "b" = 3 := by
    cases hs
    rfl
  have resolves {args : List Argument} (hargs : ∀ a ∈ args, a = ⟨"a", none⟩ ∨ a = ⟨"b", none⟩) :
      ∀ a ∈ args, ∃ qubits, qubitsOf s.circuit a = .ok qubits := by
    intro a hmem
    rcases hargs a hmem with rfl | rfl
    · exact ⟨_, by rw [qubitsOf, ha]; rfl⟩
    · exact ⟨_, by rw [qubitsOf, hb]; rfl⟩
  obtain ⟨hrefused, -⟩ := call_broadcasts hs ⟨⟨4, 1⟩, "cx", [], [⟨"b", none⟩, ⟨"a", none⟩]⟩ rfl
    (resolves (by simp)) none
  obtain ⟨-, haccepted, -⟩ := call_broadcasts hs ⟨⟨4, 1⟩, "cx", [], [⟨"a", none⟩, ⟨"b", none⟩]⟩ rfl
    (resolves (by simp)) none
  have hsizes : wholeSizes s.circuit [⟨"b", none⟩, ⟨"a", none⟩] = [3, 1] := by simp [wholeSizes, ha, hb]
  have hsizes' : wholeSizes s.circuit [⟨"a", none⟩, ⟨"b", none⟩] = [1, 3] := by simp [wholeSizes, ha, hb]
  refine ⟨s, hs, hrefused.mpr (hsizes ▸ by decide), ?_⟩
  rw [(haccepted (hsizes' ▸ by decide)).1, hsizes']
  simp only [List.map_cons, List.map_nil, Argument.element, ha, hb]
  rfl

end Sequencer.Qasm
