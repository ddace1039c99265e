import Sequencer.Proofs.Qasm.Rereading

/-!
# Writing a circuit and reading it back

The text of a circuit that was read declares its registers and channels, and
then performs its operations timeslice by timeslice. Reading it therefore
gives a circuit that repeats the first one.
-/

namespace Sequencer

namespace Qasm

namespace Elaborated
variable {c : Circuit} (h : Elaborated c)
include h

theorem names_apart {r s : Register} (hr : r ∈ c.quantum) (hs : s ∈ c.classical) : r.name ≠ s.name := by
  induction h with
  | start => cases hr
  | @quantum c x _ _ _ fresh ih =>
    rcases List.mem_append.mp hr with hr | hr
    · exact ih hr hs
    · rw [List.mem_singleton.mp hr]
      exact (fresh s (List.mem_append_right _ hs)).symm
  | @classical c x _ _ _ fresh ih =>
    rcases List.mem_append.mp hs with hs | hs
    · exact ih hr hs
    · rw [List.mem_singleton.mp hs]
      exact fresh r (List.mem_append_left _ hr)
  | call _ _ done ih =>
    obtain ⟨hq, hc⟩ := Circuit.perform_registers done
    exact ih (hq ▸ hr) (hc ▸ hs)

end Elaborated

-- ---------------------------------------------------------------------------
-- Runs
-- ---------------------------------------------------------------------------

def Runs (s : Scope) (sts : List Statement) (s' : Scope) : Prop :=
  sts.foldlM (fun (s : Scope) st => (s.step st.body).mapError fun e => (st.pos, e)) s = .ok s'

theorem Runs.nil (s : Scope) : Runs s [] s := rfl

theorem Runs.cons {s s' s'' : Scope} {st : Statement} {sts : List Statement} (h : s.step st.body = .ok s')
    (hrest : Runs s' sts s'') : Runs s (st :: sts) s'' := by
  simp only [Runs, List.foldlM_cons, h]
  exact hrest

theorem Runs.append {s s' s'' : Scope} {sts more : List Statement} (h : Runs s sts s') (hmore : Runs s' more s'') :
    Runs s (sts ++ more) s'' := by
  unfold Runs at h ⊢
  rw [List.foldlM_append, h]
  exact hmore

theorem sizeOf_eq_zero {registers : List Register} {name : String} (h : ∀ r ∈ registers, r.name ≠ name) :
    Circuit.sizeOf registers name = 0 := by
  by_contra hne
  obtain ⟨r, hr, hname, -⟩ := exists_of_sizeOf hne
  exact h r hr hname

theorem runs_registers (declare : Circuit → String → Int → Circuit) (body : String → Int → StatementBody)
    (hstep : ∀ (s : Scope) name size, s.checkRegister name size = .ok () →
      s.step (body name size) = .ok (s.withCircuit (declare s.circuit name size)))
    (hdeclared : ∀ (c : Circuit) name size, ∀ r ∈ (declare c name size).quantum ++ (declare c name size).classical,
      r ∈ c.quantum ++ c.classical ∨ r.name = name)
    {registers : List Register} {sts : List Statement}
    (h : List.Forall₂ (fun r st => st.body = body r.name r.size) registers sts) {s : Scope}
    (positive : ∀ r ∈ registers, 0 < r.size) (names : (registers.map Register.name).Nodup)
    (fresh : ∀ r ∈ registers, ∀ x ∈ s.circuit.quantum ++ s.circuit.classical, x.name ≠ r.name) :
    Runs s sts (s.withCircuit (registers.foldl (fun c r => declare c r.name r.size) s.circuit)) := by
  induction h generalizing s with
  | nil => exact Runs.nil s
  | @cons r st registers sts hst _ ih =>
    obtain ⟨hpositive, hrest⟩ := List.forall_mem_cons.mp positive
    obtain ⟨hnew, hnames⟩ := List.nodup_cons.mp names
    obtain ⟨hfresh, hlater⟩ := List.forall_mem_cons.mp fresh
    have hcheck : s.checkRegister r.name r.size = .ok () := by
      have hquantum : s.circuit.quantumSize r.name = 0 :=
        sizeOf_eq_zero fun x hx => hfresh x (List.mem_append_left _ hx)
      have hclassical : s.circuit.classicalSize r.name = 0 :=
        sizeOf_eq_zero fun x hx => hfresh x (List.mem_append_right _ hx)
      simp [Scope.checkRegister, hquantum, hclassical, Int.not_le.mpr hpositive, pure, Except.pure]
    refine .cons (by rw [hst]; exact hstep s r.name r.size hcheck) (ih hrest hnames fun x hx y hy => ?_)
    rcases hdeclared s.circuit r.name r.size y hy with hy | hy
    · exact hlater x hx y hy
    · intro heq
      exact hnew (List.mem_map.mpr ⟨x, hx, by rw [← heq, hy]⟩)

theorem runs_channels {uses : List NamedDeclaration} {sts : List Statement}
    (h : List.Forall₂ (fun d st => st.body = .named d) uses sts)
    (known : ∀ d ∈ uses, Gate.isChannel d.name = true) {s : Scope} :
    Runs s sts { s with channels := uses.foldl (fun m d => m.insert d.name d) s.channels } := by
  induction h generalizing s with
  | nil => exact Runs.nil s
  | @cons d st uses sts hst _ ih =>
    obtain ⟨hchannel, hrest⟩ := List.forall_mem_cons.mp known
    have hstep : s.step st.body = .ok { s with channels := s.channels.insert d.name d } := by
      rw [hst]
      exact if_pos hchannel
    exact .cons hstep (ih hrest)

theorem runs_calls {c : Circuit} {calls : List (Int × BuildCall)} {sts : List Statement}
    (h : List.Forall₂ (fun e st => Performs c e.2 st) calls sts) {s : Scope} (ready : s.Ready c) {d : Circuit}
    (hd : calls.foldlM (fun d e => d.perform e.2) s.circuit = .ok d) : Runs s sts (s.withCircuit d) := by
  induction h generalizing s with
  | nil =>
    obtain rfl := pure_eq_ok.mp hd
    exact Runs.nil s
  | @cons e st calls sts hst _ ih =>
    simp only [List.foldlM_cons, bind_eq_ok] at hd
    obtain ⟨next, hnext, hrest⟩ := hd
    obtain ⟨hquantum, hclassical⟩ := Circuit.perform_registers hnext
    refine .cons (hst s ready next hnext) (ih (s := s.withCircuit next) ?_ hrest)
    exact ⟨hquantum.trans ready.quantum, hclassical.trans ready.classical, ready.gates, ready.channels⟩

-- ---------------------------------------------------------------------------
-- Declarations
-- ---------------------------------------------------------------------------

def channelUses (c : Circuit) : List NamedDeclaration :=
  Channel.all.filterMap fun ch => (c.channelArity? ch.name).map fun arity =>
    ⟨ch.name, ["p"], channelArguments arity⟩

theorem mem_channelUses {c : Circuit} {d : NamedDeclaration} : d ∈ channelUses c ↔
    ∃ arity, Gate.isChannel d.name = true ∧ c.channelArity? d.name = some arity ∧
      d = ⟨d.name, ["p"], channelArguments arity⟩ := by
  simp only [channelUses, List.mem_filterMap, Option.map_eq_some_iff]
  constructor
  · rintro ⟨ch, -, arity, harity, rfl⟩
    have known : Gate.isChannel ch.name = true := by cases ch <;> decide
    exact ⟨arity, known, harity, rfl⟩
  · rintro ⟨arity, known, harity, hd⟩
    obtain ⟨ch, hch⟩ := Option.isSome_iff_exists.mp known
    have hname := Gate.name_of_channel? hch
    exact ⟨ch, by cases ch <;> decide, arity, by rw [hname, harity], by rw [hname, ← hd]⟩

theorem nodup_channelUses (c : Circuit) : ((channelUses c).map NamedDeclaration.name).Nodup := by
  have hinj : ∀ a b : Channel, a.name = b.name → a = b := by
    intro a b
    cases a <;> cases b <;> decide
  rw [channelUses, List.map_filterMap]
  refine List.Nodup.filterMap (fun a b name ha hb => hinj a b ?_) (by decide)
  simp only [Option.map_map, Option.mem_def, Option.map_eq_some_iff, Function.comp_apply] at ha hb
  obtain ⟨-, -, rfl⟩ := ha
  obtain ⟨-, -, hname⟩ := hb
  exact hname.symm

def declarationLines (c : Circuit) : List Line :=
  c.quantum.map (fun r => (r.declaration "qreg", fun st => st.body = .quantumRegister r.name r.size)) ++
    c.classical.map (fun r => (r.declaration "creg", fun st => st.body = .classicalRegister r.name r.size)) ++
    (channelUses c).map fun d =>
      ("opaque " ++ d.name ++ "(p) " ++ Circuit.joined d.args ++ ";\n", fun st => st.body = .named d)

theorem texts_declarationLines (c : Circuit) : (declarationLines c).map Prod.fst =
    c.quantum.map (Register.declaration "qreg") ++ c.classical.map (Register.declaration "creg") ++
      c.channelDeclarations := by
  simp only [declarationLines, List.map_append, List.map_map, Function.comp_def]
  congr 1
  simp [channelUses, Circuit.channelDeclarations, List.map_filterMap, Function.comp_def, channelArguments]

theorem Declarable.phrase_declaration {registers : List Register} (h : Declarable registers) {keyword : String}
    (hkeyword : keyword ∈ ["qreg", "creg"]) {r : Register} (hr : r ∈ registers) :
    Phrase Grammar.statement (r.declaration keyword) keyword fun st =>
      st.body = if keyword = "qreg" then .quantumRegister r.name r.size else .classicalRegister r.name r.size := by
  obtain ⟨named, positive⟩ := h.each r hr
  have hcount := size_le_of_mem hr
  have hbound := h.counted
  obtain ⟨n, hn⟩ := Int.eq_ofNat_of_zero_le (Int.le_of_lt positive)
  rw [Register.declaration, hn]
  exact phrase_register hkeyword named (by omega)

theorem phrase_of_mem_declarationLines {c : Circuit} (hq : Declarable c.quantum) (hc : Declarable c.classical)
    {l : Line} (hl : l ∈ declarationLines c) : ∃ first, Phrase Grammar.statement l.1 first l.2 := by
  simp only [declarationLines, List.mem_append, List.mem_map, or_assoc] at hl
  rcases hl with ⟨r, hr, rfl⟩ | ⟨r, hr, rfl⟩ | ⟨d, hd, rfl⟩
  · exact ⟨"qreg", hq.phrase_declaration (by decide) hr⟩
  · exact ⟨"creg", hc.phrase_declaration (by decide) hr⟩
  · obtain ⟨arity, known, harity, hd⟩ := mem_channelUses.mp hd
    have hpos : 0 < arity := by
      obtain ⟨n, -, rfl⟩ := Option.map_eq_some_iff.mp harity
      exact Nat.succ_pos _
    rw [hd]
    exact ⟨"opaque", phrase_channel (callable_of_channel? known).identifier hpos⟩

theorem get?_channelUses {c : Circuit} {d : NamedDeclaration} (hd : d ∈ channelUses c) :
    ((channelUses c).foldl (fun m d => m.insert d.name d) ({} : Assoc String NamedDeclaration)).get? d.name = some d := by
  have hnodup : (((channelUses c).map fun d => (d.name, d)).map Prod.fst).Nodup := by
    rw [List.map_map]
    exact nodup_channelUses c
  have hfind := (Assoc.mem_iff_find hnodup).mp (List.mem_map_of_mem hd)
  have hget := Assoc.get?_foldl_insert_of_nodup (m := {}) hnodup d.name
  rw [List.foldl_map, hfind] at hget
  exact hget

theorem runs_declarations {c : Circuit} (wf : c.WellFormed) (hq : Declarable c.quantum) (hc : Declarable c.classical)
    (apart : ∀ r ∈ c.quantum, ∀ s ∈ c.classical, r.name ≠ s.name) {sts : List Statement}
    (h : List.Forall₂ (fun l st => l.2 st) (declarationLines c) sts) :
    ∃ s : Scope, Runs { circuit := { name := c.name } } sts s ∧ s.circuit = c.skeleton ∧ s.Ready c := by
  obtain ⟨_, channelSts, rfl, hregisters, hchannels⟩ := exists_append_of_forall₂ h
  obtain ⟨quantumSts, classicalSts, rfl, hquantum, hclassical⟩ := exists_append_of_forall₂ hregisters
  rw [List.forall₂_map_left_iff] at hquantum hclassical hchannels
  have blank := (Circuit.blank_new c.name).declareQubits c.quantum (by simpa using wf.quantum_names)
  have hfirst : Runs { circuit := { name := c.name } } quantumSts
      { circuit := c.quantum.foldl (fun c r => c.declareQubits r.name r.size) { name := c.name } } := by
    refine runs_registers Circuit.declareQubits .quantumRegister (fun s name size hs => ?_) (fun c name size r hr => ?_)
      hquantum (fun r hr => (hq.each r hr).2) hq.names (by simp)
    · simp only [Scope.step, hs]
      rfl
    · simp only [Circuit.declareQubits, List.mem_append, List.mem_singleton] at hr ⊢
      rcases hr with (hr | rfl) | hr <;> simp_all
  have hsecond : Runs { circuit := c.quantum.foldl (fun c r => c.declareQubits r.name r.size) { name := c.name } }
      classicalSts { circuit := c.skeleton } := by
    refine runs_registers Circuit.declareBits .classicalRegister (fun s name size hs => ?_) (fun c name size r hr => ?_)
      hclassical (fun r hr => (hc.each r hr).2) hc.names fun r hr x hx => ?_
    · simp only [Scope.step, hs]
      rfl
    · simp only [Circuit.declareBits, List.mem_append, List.mem_singleton] at hr ⊢
      rcases hr with hr | hr | rfl <;> simp_all
    · rw [blank.quantum_eq, blank.classical_eq, List.nil_append, List.append_nil] at hx
      exact apart x hx r hr
  have hthird := runs_channels hchannels
    (fun d hd => by obtain ⟨arity, known, -⟩ := mem_channelUses.mp hd; exact known) (s := { circuit := c.skeleton })
  refine ⟨_, (hfirst.append hsecond).append hthird, rfl, wf.skeleton.quantum_eq, wf.skeleton.classical_eq, rfl, ?_⟩
  intro name arity known harity
  have hd : (⟨name, ["p"], channelArguments arity⟩ : NamedDeclaration) ∈ channelUses c :=
    mem_channelUses.mpr ⟨arity, known, harity, rfl⟩
  exact ⟨_, get?_channelUses hd, by simp [channelArguments]⟩

-- ---------------------------------------------------------------------------
-- Whole texts
-- ---------------------------------------------------------------------------

theorem readCircuit_of_runs {name text : String} {p : Program} {s : Scope} (hread : Grammar.read text = .ok p)
    (hrun : Runs { circuit := { name := name } } p.statements s) : readCircuit name text = .ok s.circuit := by
  simp only [readCircuit, Program.toCircuit, bind_eq_ok, mapError_eq_ok, pure_eq_ok]
  exact ⟨p, hread, s, hrun, rfl⟩

theorem Elaborated.declarable {c : Circuit} (h : Elaborated c) (size : c.Addressable) :
    Declarable c.quantum ∧ Declarable c.classical := by
  have wf := h.wellFormed size.slices
  have hqubits : (c.quantum.flatMap Register.elements).length < Integer.bound :=
    Nat.lt_of_le_of_lt size.qubits (by decide)
  exact ⟨⟨wf.quantum_names, fun r hr => h.register (List.mem_append_left _ hr), hqubits⟩,
    ⟨wf.classical_names, fun r hr => h.register (List.mem_append_right _ hr), size.bits⟩⟩

theorem Elaborated.unguarded {c : Circuit} (h : Elaborated c) {q : String} {t : Int} {n : Node}
    (hn : c.at? q t = some n) (measured : n.measurement = true) : n.cond = none := by
  cases h.admits hn with
  | measure => rfl
  | _ => cases measured

/-- The text of a circuit that was read is read again, and gives a circuit that
repeats it. Parameters come back as `same` ones if their texts evaluate so; it
is equality, or the comparison of numbers that does not tell zeros apart. -/
theorem readCircuit_source {name text : String} {c : Circuit} (h : readCircuit name text = .ok c)
    (size : c.Addressable) (room : 2 * c.lastSlice + 1 < Integer.bound) (single : c.SingleArity)
    {same : Float → Float → Prop}
    (values : ∀ {q t n}, c.at? q t = some n → ∀ v ∈ n.params, ∃ w, Evaluates (Parameter.text v) w ∧ same v w) :
    ∃ source, c.source = .ok source ∧
      ∃ d, readCircuit c.name source = .ok d ∧ ∃ slot, c.Repeats same d slot := by
  have he := elaborated_of_readCircuit h
  have wf := he.wellFormed size.slices
  obtain ⟨hquantum, hclassical⟩ := he.declarable size
  have hparams : ∀ v, (∃ q t n, c.at? q t = some n ∧ v ∈ n.params) → ∃ w, Evaluates (Parameter.text v) w ∧ same v w := by
    rintro v ⟨q, t, n, hn, hv⟩
    exact values hn v hv
  choose! value hvalue using hparams
  have script : c.Script same (c.calls.map fun e => (e.1, e.2.mapParams value)) :=
    Circuit.script wf he.admits (fun hn v hv => (hvalue v ⟨_, _, _, hn, hv⟩).2) (he.controls size.slices)
  -- the text, line by line
  obtain ⟨gap, hgap, hsource⟩ := Circuit.source_eq wf he.admits
  let callLines : List Line := c.calls.map fun e => (e.2.text, Performs c (e.2.mapParams value))
  have hlines : ∀ l ∈ declarationLines c ++ callLines, ∃ first, Phrase Grammar.statement l.1 first l.2 := by
    intro l hl
    rcases List.mem_append.mp hl with hl | hl
    · exact phrase_of_mem_declarationLines hquantum hclassical hl
    · obtain ⟨⟨t, k⟩, hk, rfl⟩ := List.mem_map.mp hl
      exact phrase_of_mem_calls wf he.admits hquantum hclassical
        (Circuit.channelArity?_eq wf (he.keyed size.slices) single) (fun hn v hv => (hvalue v ⟨_, _, _, hn, hv⟩).1) hk
  obtain ⟨p, first, sts, hread, hstatements, hfirst, hsts⟩ := read_lines hlines hgap
  obtain ⟨declSts, callSts, rfl, hdecls, hcalls⟩ := exists_append_of_forall₂ hsts
  -- the statements, performed one after the other
  obtain ⟨s, hdeclared, hskeleton, ready⟩ := runs_declarations wf hquantum hclassical
    (fun r hr x hx => he.names_apart hr hx) hdecls
  obtain ⟨d, hd, slot, hrepeats⟩ := script.repeats wf room he.unguarded wf.skeleton (Circuit.bookkept_skeleton wf)
  have hperformed : Runs s callSts (s.withCircuit d) := by
    have hcalls' : List.Forall₂ (fun e st => Performs c e.2 st)
        (c.calls.map fun e => (e.1, e.2.mapParams value)) callSts := by
      rw [List.forall₂_map_left_iff] at hcalls ⊢
      exact hcalls
    exact runs_calls hcalls' ready (by rw [hskeleton]; exact hd)
  have hrun : Runs { circuit := { name := c.name } } p.statements (s.withCircuit d) := by
    rw [hstatements]
    exact .cons (by rw [hfirst]; rfl) (hdeclared.append hperformed)
  refine ⟨_, hsource, d, ?_, slot, hrepeats⟩
  rw [← texts_declarationLines]
  refine readCircuit_of_runs ?_ hrun
  simpa [callLines, headingText, Function.comp_def] using hread

/-- A gate of its own, a rotation and a channel on two qubits with parameters, a
measurement of a whole register, and a conditioned gate with two controls behind
a barrier. -/
def entangled : String :=
  "OPENQASM 2.0;\nqreg q[3];\ncreg c[3];\ngate bell a, b \x7b h a; cx a, b; \x7d\nopaque mixphase(p) a, b;\n" ++
    "bell q[0], q[2];\nrx(0) q[1];\nmixphase(0) q[0], q[1];\n" ++
    "measure q -> c;\nbarrier q[1], q[2];\nif (c == 2) ccx q[0], q[1], q[2];\nreset q[1];\n"

theorem readCircuit_source_entangled :
    ∃ c source d slot, readCircuit "main" entangled = .ok c ∧
      ((c.at? "q[1]" 1).any fun n => n.gate == "rx" && decide (n.params = [0.0])) = true ∧
      ((c.at? "q[1]" 3).any fun n => n.gate == "mixphase" && decide (n.params = [0.0])) = true ∧
      c.source = .ok source ∧ readCircuit c.name source = .ok d ∧ c.Repeats (· = ·) d slot := by
  have hread : (readCircuit "main" entangled).toOption.any (fun c => decide c.Addressable &&
      decide (2 * c.lastSlice + 1 < (Integer.bound : Int)) &&
      (c.visits.all fun v => (v.2.2.params.all fun x => decide (x = 0.0)) &&
        (!Gate.isChannel v.2.2.gate || c.visits.all fun w =>
          decide (w.2.2.gate = v.2.2.gate → w.2.2.partners.length = v.2.2.partners.length))) &&
      ((c.at? "q[1]" 1).any fun n => n.gate == "rx" && decide (n.params = [0.0])) &&
      (c.at? "q[1]" 3).any fun n => n.gate == "mixphase" && decide (n.params = [0.0])) = true := by
    decide +kernel
  obtain ⟨c, hc, hread⟩ := (Option.any_eq_true _ _).mp hread
  rw [toOption_eq_some] at hc
  rw [Bool.and_eq_true, Bool.and_eq_true, Bool.and_eq_true, Bool.and_eq_true, decide_eq_true_eq, decide_eq_true_eq] at hread
  obtain ⟨⟨⟨⟨size, room⟩, hall⟩, hrotation⟩, hchannel⟩ := hread
  have wf := (elaborated_of_readCircuit hc).wellFormed size.slices
  simp only [List.all_eq_true, Bool.and_eq_true, Bool.or_eq_true, decide_eq_true_eq] at hall
  have single : c.SingleArity := by
    intro q t n p s m hn hm known
    rcases (hall (t, q, n) (wf.mem_visits.mpr hn)).2 with hplain | halike
    · rw [known] at hplain
      cases hplain
    · exact halike (s, p, m) (wf.mem_visits.mpr hm)
  have hzero : ((readExpr? (Parameter.text 0.0)).bind fun e => (e.eval {}).toOption) = some 0.0 := by decide +kernel
  have values : ∀ {q t n}, c.at? q t = some n → ∀ v ∈ n.params, ∃ w, Evaluates (Parameter.text v) w ∧ v = w := by
    intro q t n hn v hv
    obtain rfl := (hall (t, q, n) (wf.mem_visits.mpr hn)).1 v hv
    obtain ⟨e, he, heval⟩ := Option.bind_eq_some_iff.mp hzero
    exact ⟨_, ⟨e, he, toOption_eq_some.mp heval⟩, rfl⟩
  obtain ⟨source, hsource, d, hd, slot, hrepeats⟩ := readCircuit_source hc size room single values
  exact ⟨c, source, d, slot, hc, hrotation, hchannel, hsource, hd, hrepeats⟩

end Qasm
end Sequencer
