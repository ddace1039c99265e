import Mathlib.Data.Finset.Image
import Sequencer.Proofs.Instruction.RoundTrip

/-!
# Programs tell circuits apart

Two circuits of gates over the same registers that are encoded to the same
words have the same gates in the timeslices of their programs: on the same
qubits, under the same tests, and with the same cosine and sine for every
rotation. Words hold no more than that. The parameters of `u` and `cu` are not
written, so circuits that differ in nothing else share their program.
-/

namespace Sequencer

/-- A gate on its qubits, with the operands of its condition and the cosines and
sines of angles. -/
structure GateInstance where
  gate : String
  target : String
  controls : Finset String
  test : Option DecodedTest
  angles : List (Fixed × Fixed)
  deriving DecidableEq

namespace Node

/-- The node of a single gate or of a controlled one, with all its parameters. -/
def IsGate (n : Node) : Prop :=
  n.barrier = false ∧ n.measurement = false ∧ n.reset = false ∧
    (if n.controlled then Gate.controlled? n.gate else Gate.single? n.gate).isSome = true ∧
    n.params.length = Gate.arity n.gate

instance (n : Node) : Decidable n.IsGate := inferInstanceAs (Decidable (_ ∧ _))

def angles (n : Node) : List Float :=
  n.params.map fun theta => if Gate.halvesAngle n.gate then theta / 2.0 else theta

def writtenAngles (n : Node) : List Float := if Gate.encodesAngle n.gate then n.angles else []

end Node

namespace Circuit
variable (c : Circuit)

def instance? (angles : Node → List Float) (v : Visit) : Option GateInstance :=
  if v.2.2.target then
    some
      { gate := v.2.2.gate
        target := v.2.1
        controls := if v.2.2.controlled then v.2.2.partners.toFinset else ∅
        test := c.operands v
        angles := (angles v.2.2).map fun a => (Fixed.ofFloat (Angle.cos a), Fixed.ofFloat (Angle.sin a)) }
  else none

def instances (angles : Node → List Float) (t : Int) : List GateInstance :=
  (c.visits.filter fun v => v.1 = t).filterMap (c.instance? angles)

end Circuit

-- ---------------------------------------------------------------------------
-- Operations by names
-- ---------------------------------------------------------------------------

def Operation.named (qubits : List String) (o : StreamOperation) : GateInstance where
  gate := o.gate
  target := qubits.getD o.qubit.toNat ""
  controls := (o.controls.map fun i => qubits.getD i.toNat "").toFinset
  test := o.cond
  angles := o.angle.toList

def gatesAt (qubits : List String) (ops : List StreamOperation) (i : Nat) : List GateInstance :=
  (ops.filter fun o => o.slice = i ∧ o.category ≠ .measurement).map (Operation.named qubits)

theorem Gate.arity_of_encodesAngle {gate : String} (h : encodesAngle gate = true) : arity gate = 1 := by
  rw [encodesAngle, Option.any_eq_true] at h
  obtain ⟨p, hp, hangle⟩ := h
  rw [arity, hp]
  cases p <;> simp_all [Primitive.encodesAngle, Primitive.arity]

namespace Node
variable {n : Node}

theorem IsGate.isChannel (h : n.IsGate) : Gate.isChannel n.gate = false := by
  obtain ⟨-, -, -, hgate, -⟩ := h
  have hnone : Gate.channel? n.gate = none := by
    by_cases hcontrolled : n.controlled = true
    · rw [if_pos hcontrolled] at hgate
      exact Gate.channel?_of_controlled? hgate
    · rw [if_neg hcontrolled] at hgate
      exact Gate.channel?_of_single? hgate
  rw [Gate.isChannel, hnone]
  rfl

theorem IsGate.writtenAngles_eq (h : n.IsGate) :
    (n.writtenAngles.map fun a => (Fixed.ofFloat (Angle.cos a), Fixed.ofFloat (Angle.sin a))) =
      n.angle?.toList := by
  obtain ⟨-, -, -, -, hparams⟩ := h
  rw [writtenAngles, angle?]
  by_cases hangle : Gate.encodesAngle n.gate = true
  · rw [Gate.arity_of_encodesAngle hangle] at hparams
    obtain ⟨theta, htheta⟩ := List.length_eq_one_iff.mp hparams
    simp [hangle, angles, htheta]
  · simp [hangle]

end Node

namespace Circuit
variable {c : Circuit}

theorem getD_position {q : String} (hq : q ∈ c.qubits) : c.qubits.getD (c.position q) "" = q := by
  rw [List.getD_eq_getElem?_getD, position, List.getElem?_idxOf hq]
  rfl

namespace WellFormed
variable (wf : c.WellFormed)
include wf

theorem controls_named {q : String} {t : Int} {n : Node} (hn : c.at? q t = some n) :
    ((c.controls n).map fun i => c.qubits.getD i.toNat "").toFinset = n.partners.toFinset := by
  have hmem (p : String) (hp : p ∈ n.partners) : p ∈ c.qubits := by
    obtain ⟨m, hm, -⟩ := (wf.participants hn).2 p hp
    exact wf.mem_qubits hm
  ext p
  simp only [controls, List.map_map, List.mem_toFinset, List.mem_map, List.mem_mergeSort, Function.comp_apply,
    Int.toNat_natCast, exists_exists_and_eq_and]
  constructor
  · rintro ⟨r, hr, rfl⟩
    rwa [getD_position (hmem r hr)]
  · intro hp
    exact ⟨p, hp, getD_position (hmem p hp)⟩

theorem instance?_eq {v : Visit} (hv : v ∈ c.visits) (hgate : v.2.2.IsGate) :
    c.instance? Node.writtenAngles v = (c.operation? v).map (Operation.named c.qubits) := by
  have hn := wf.mem_visits.mp hv
  have hq := getD_position (wf.mem_qubits hn)
  have hangles := hgate.writtenAngles_eq
  have hchannel := hgate.isChannel
  obtain ⟨hbarrier, hmeasurement, hreset, -, -⟩ := hgate
  simp only [instance?, operation?, hbarrier, hmeasurement, hreset, hchannel, hangles, Bool.or_self,
    Bool.false_eq_true, if_false]
  by_cases hcontrolled : v.2.2.controlled = true
  · by_cases htarget : v.2.2.target = true
    · simp only [hcontrolled, htarget, if_true, Option.map_some, Operation.named, Int.toNat_natCast, hq,
        wf.controls_named hn]
    · simp [hcontrolled, htarget]
  · have htarget := wf.target hn (by simpa using hcontrolled)
    simp only [hcontrolled, htarget, if_true, if_false, Bool.false_eq_true, Option.map_some, Operation.named,
      Int.toNat_natCast, hq, List.map_nil, List.toFinset_nil]

theorem instances_eq (hgates : ∀ v ∈ c.visits, v.2.2.IsGate) (t : Int) :
    c.instances Node.writtenAngles t =
      ((c.visits.filter fun v => v.1 = t).filterMap c.operation?).map (Operation.named c.qubits) := by
  rw [instances, List.map_filterMap]
  exact List.filterMap_congr fun v hv => wf.instance?_eq (List.mem_filter.mp hv).1 (hgates v (List.mem_filter.mp hv).1)

end WellFormed

-- ---------------------------------------------------------------------------
-- Programs with the same words
-- ---------------------------------------------------------------------------

namespace Accepted
variable (h : c.Accepted) (hgates : ∀ v ∈ c.visits, v.2.2.IsGate)
include h hgates

theorem operations_ne_nil {t : Int} (ht : t ∈ c.writtenSlices) :
    (c.visits.filter fun v => v.1 = t).filterMap c.operation? ≠ [] := by
  have hpresent := (List.mem_filter.mp ht).2
  have hmeasured : c.batches = [] := by
    refine List.eq_nil_iff_forall_not_mem.mpr fun b hb => ?_
    obtain ⟨v, hv⟩ := List.exists_mem_of_ne_nil _ (ne_nil_of_mem_batches hb)
    obtain ⟨hvisit, hm⟩ := mem_of_mem_batches hb hv
    simp [Visit.isMeasured, (hgates v hvisit).2.1] at hm
  have hgroups : (c.visits.filter fun v => v.1 = t).filterMap c.written? ≠ [] := by
    intro hnil
    simp [SliceContent.present?, contentAt, content, hmeasured, hnil] at hpresent
  obtain ⟨e, he⟩ := List.exists_mem_of_ne_nil _ hgroups
  obtain ⟨v, hv, hwritten⟩ := List.mem_filterMap.mp he
  have hvisit := (List.mem_filter.mp hv).1
  rcases h.wellFormed.legible h.bits_counted hvisit (h.accepts v hvisit) with ⟨hnone, -⟩ | ⟨l, g, o, -, ho, -⟩
  · rw [hnone] at hwritten
    cases hwritten
  · exact List.ne_nil_of_mem (List.mem_filterMap.mpr ⟨v, hv, ho⟩)

/-- The words of a program of gates are read as the gates of its timeslices. -/
theorem exists_gatesAt (hqubits : c.numQubits = 1 ∨ ¬ c.numQubits.isPowerOfTwo) {p : InstructionProgram}
    (hp : p.slices = c.writtenSlices.map fun t => ⟨t, (c.contentAt t).words c.layout⟩) :
    ∃ ops, decode p.words c.numQubits = .ok ops ∧
      (∀ i, gatesAt c.qubits ops i ≠ [] ↔ i < p.slices.length) ∧
      ∀ (i : Nat) (s : ProgramSlice), p.slices[i]? = some s →
        (gatesAt c.qubits ops i).Perm (c.instances Node.writtenAngles s.index) := by
  have hlayout : c.layout.qubits = 1 ∨ ¬ c.layout.qubits.isPowerOfTwo := by
    rw [qubits_layout]
    rcases Nat.lt_or_ge c.numQubits 2 with hlt | hge
    · exact .inl (by omega)
    · rwa [Nat.max_eq_left (by omega)]
  have hparams (v : Visit) (hv : v ∈ c.visits) (he : Gate.encodesAngle v.2.2.gate = true) :
      v.2.2.params ≠ [] := by
    have hcount := (hgates v hv).2.2.2.2
    rw [Gate.arity_of_encodesAngle he] at hcount
    exact List.ne_nil_of_length_eq_add_one hcount
  obtain ⟨ops, hdecode, hops⟩ := h.decodedAs hlayout hparams hp
  have hperm (i : Nat) (s : ProgramSlice) (hs : p.slices[i]? = some s) :
      (gatesAt c.qubits ops i).Perm (c.instances Node.writtenAngles s.index) := by
    rw [h.wellFormed.instances_eq hgates]
    have hnamed := (hops.operations i s hs).map (Operation.named c.qubits)
    rwa [List.map_map] at hnamed
  refine ⟨ops, hdecode, fun i => ⟨fun hne => ?_, fun hi => ?_⟩, hperm⟩
  · obtain ⟨_, hg⟩ := List.exists_mem_of_ne_nil _ hne
    obtain ⟨o, hfound, -⟩ := List.mem_map.mp hg
    obtain ⟨ho, hslice⟩ := List.mem_filter.mp hfound
    exact (of_decide_eq_true hslice).1 ▸ hops.slice_lt o ho
  · obtain ⟨s, hs⟩ : ∃ s, p.slices[i]? = some s := ⟨_, List.getElem?_eq_getElem hi⟩
    have ht : s.index ∈ c.writtenSlices := by
      have hmem := List.mem_of_getElem? hs
      rw [hp] at hmem
      obtain ⟨t, ht, rfl⟩ := List.mem_map.mp hmem
      exact ht
    intro hnil
    have hempty := hperm i s hs
    rw [hnil, h.wellFormed.instances_eq hgates] at hempty
    exact h.operations_ne_nil hgates ht (List.map_eq_nil_iff.mp hempty.nil_eq.symm)

end Accepted
end Circuit

-- ---------------------------------------------------------------------------
-- Circuits with the same program
-- ---------------------------------------------------------------------------

/-- The node without the parameters that no word holds. -/
def Node.written (n : Node) : Node := if n.gate = "u" ∨ n.gate = "cu" then { n with params := [] } else n

def Visit.written (v : Visit) : Visit := (v.1, v.2.1, v.2.2.written)

/-- The circuits differ in parameters of `u` and `cu` at most. -/
structure Circuit.SameWritten (c d : Circuit) : Prop where
  quantum : c.quantum = d.quantum
  classical : c.classical = d.classical
  lastSlice : c.lastSlice = d.lastSlice
  visits : c.visits.map Visit.written = d.visits.map Visit.written

namespace Emission

theorem visit_written (c : Circuit) (y : Layout) (e : Emission) (v : Visit) :
    e.visit c y v.written.1 v.written.2.1 v.written.2.2 = e.visit c y v.1 v.2.1 v.2.2 := by
  obtain ⟨t, q, n⟩ := v
  simp only [Visit.written, Node.written]
  split
  · rename_i hgate
    have hangle : Gate.encodesAngle n.gate = false := by
      rcases hgate with h | h <;> rw [h] <;> decide
    have hchannel : Gate.channel? n.gate = none := by
      rcases hgate with h | h <;> rw [h] <;> decide
    have htrail : Node.angleTrail { n with params := [] } = n.angleTrail := by
      simp only [Node.angleTrail, hangle]
      cases n.params <;> rfl
    have hgroup (i : Nat) : c.groupOf y t i { n with params := [] } = c.groupOf y t i n := by
      simp only [Circuit.groupOf, hchannel, Circuit.singleGroup, Circuit.controlledGroup, Circuit.optionalTest,
        htrail]
    simp only [visit, hgroup]
    rfl
  · rfl

theorem visit_registers {c d : Circuit} (hquantum : c.quantum = d.quantum) (hclassical : c.classical = d.classical)
    (y : Layout) (e : Emission) (v : Visit) : e.visit c y v.1 v.2.1 v.2.2 = e.visit d y v.1 v.2.1 v.2.2 := by
  have hregisters (c : Circuit) : e.visit c y v.1 v.2.1 v.2.2 =
      e.visit { name := "", quantum := c.quantum, classical := c.classical } y v.1 v.2.1 v.2.2 := rfl
  rw [hregisters c, hregisters d, hquantum, hclassical]

end Emission

namespace Circuit

theorem visitsAt_eq_filter {c : Circuit} {t : Int} (ht : t ∈ c.slices) :
    c.visitsAt t = c.visits.filter fun v => v.1 = t := by
  have hsame : (c.visitsAt t).filter (fun v => v.1 = t) = c.visitsAt t :=
    List.filter_eq_self.mpr fun v hv => by simpa using (mem_visitsAt.mp hv).1
  have hother (slices : List Int) (hslices : t ∉ slices) :
      (slices.flatMap c.visitsAt).filter (fun v => v.1 = t) = [] := by
    refine List.filter_eq_nil_iff.mpr fun v hv => ?_
    obtain ⟨s, hs, hv⟩ := List.mem_flatMap.mp hv
    have hne : s ≠ t := fun heq => hslices (heq ▸ hs)
    simpa [(mem_visitsAt.mp hv).1] using hne
  obtain ⟨before, after, hsplit⟩ := List.append_of_mem ht
  have hnodup := c.nodup_slices
  rw [hsplit, List.nodup_middle, List.nodup_cons, List.mem_append, not_or] at hnodup
  obtain ⟨⟨hbefore, hafter⟩, -⟩ := hnodup
  rw [visits, hsplit, List.flatMap_append, List.flatMap_cons, List.filter_append, List.filter_append,
    hother before hbefore, hother after hafter, hsame, List.nil_append, List.append_nil]

theorem encodeSlice_written (c : Circuit) (y : Layout) (e : Emission) (t : Int) :
    c.encodeSlice y e t = (do
      let e ← ((c.visitsAt t).map Visit.written).foldlM (fun (e : Emission) v => e.visit c y v.1 v.2.1 v.2.2) e
      return e.finish t) := by
  rw [encodeSlice, List.foldlM_map]
  simp only [Emission.visit_written]

theorem SameWritten.encode_eq {c d : Circuit} (h : c.SameWritten d) : c.encode = d.encode := by
  have hslices : c.slices = d.slices := by rw [slices, slices, h.lastSlice]
  have hcount : c.numQubits = d.numQubits := by rw [numQubits, numQubits, qubits, qubits, h.quantum]
  have hvisits (t : Int) (ht : t ∈ c.slices) :
      (c.visitsAt t).map Visit.written = (d.visitsAt t).map Visit.written := by
    have hkeeps (vs : List Visit) : (vs.filter fun v => v.1 = t).map Visit.written =
        (vs.map Visit.written).filter fun v => v.1 = t := by
      rw [List.filter_map]
      rfl
    rw [visitsAt_eq_filter ht, visitsAt_eq_filter (hslices ▸ ht), hkeeps, hkeeps, h.visits]
  have hslice (y : Layout) (e : Emission) (t : Int) (ht : t ∈ c.slices) :
      c.encodeSlice y e t = d.encodeSlice y e t := by
    rw [encodeSlice_written, encodeSlice_written, hvisits t ht]
    simp only [Emission.visit_registers h.quantum h.classical]
  have hrun (y : Layout) (e : Emission) : c.slices.foldlM (c.encodeSlice y) e = d.slices.foldlM (d.encodeSlice y) e := by
    rw [← hslices]
    exact foldlM_congr (hslice y)
  rw [encode, encode, hcount]
  simp only [hrun]

end Circuit

/-- Circuits of gates over the same registers that are encoded to the same words
have programs of as many timeslices, which hold the same gates: with the same
targets, controls and tests, and with the same cosine and sine for the angle of
every rotation. Circuits that differ in parameters of `u` and `cu` only are
among those that share their words. -/
theorem instances_of_words_eq (k j : Construction) (hquantum : k.circuit.quantum = j.circuit.quantum)
    (hqubits : k.circuit.numQubits = 1 ∨ ¬ k.circuit.numQubits.isPowerOfTwo)
    (hk : ∀ v ∈ k.circuit.visits, v.2.2.IsGate) (hj : ∀ v ∈ j.circuit.visits, v.2.2.IsGate)
    {p r : InstructionProgram} (hp : k.circuit.encode = .ok p) (hr : j.circuit.encode = .ok r)
    (hwords : p.words = r.words) :
    p.slices.length = r.slices.length ∧
      (∀ (i : Nat) (s t : ProgramSlice), p.slices[i]? = some s → r.slices[i]? = some t →
        (k.circuit.instances Node.writtenAngles s.index).Perm
          (j.circuit.instances Node.writtenAngles t.index)) ∧
      ∀ c : Circuit, k.circuit.SameWritten c → c.encode = .ok p := by
  obtain ⟨haccepted, hslices⟩ := k.encode_ok hp
  obtain ⟨haccepted', hslices'⟩ := j.encode_ok hr
  have hnames : k.circuit.qubits = j.circuit.qubits := congrArg (List.flatMap Register.elements) hquantum
  have hcount : k.circuit.numQubits = j.circuit.numQubits := congrArg List.length hnames
  obtain ⟨ops, hops, hlength, hperm⟩ := haccepted.exists_gatesAt hk hqubits hslices
  obtain ⟨ops', hops', hlength', hperm'⟩ := haccepted'.exists_gatesAt hj (hcount ▸ hqubits) hslices'
  rw [← hcount, ← hwords, hops] at hops'
  obtain rfl := Except.ok.inj hops'
  rw [← hnames] at hlength' hperm'
  refine ⟨?_, fun i s t hs ht => (hperm i s hs).symm.trans (hperm' i t ht), fun c hc => hc.encode_eq ▸ hp⟩
  have hlt (i : Nat) : i < p.slices.length ↔ i < r.slices.length := (hlength i).symm.trans (hlength' i)
  exact Nat.le_antisymm (Nat.le_of_not_lt fun h => Nat.lt_irrefl _ ((hlt _).mp h))
    (Nat.le_of_not_lt fun h => Nat.lt_irrefl _ ((hlt _).mpr h))

/-- A controlled rotation under a condition, beside a gate that turns nothing. -/
def Construction.flat : Construction where
  name := "flat"
  steps := [
    .quantum ⟨"q", 3⟩, .classical ⟨"c", 2⟩,
    .call (.controlled "crz" ["q[2]", "q[0]"] "q[1]" [0.5] (some ⟨"c", 3, .register⟩)),
    .call (.gate "u" "q[1]" [0.0, 0.0, 0.0] none)]
  quantum_fresh := by decide
  classical_fresh := by decide
  counted := by decide
  qubits_counted := by decide
  bits_counted := by decide

/-- The same rotation, beside a gate that turns by an angle of 1. -/
def Construction.turned : Construction where
  name := "turned"
  steps := [
    .quantum ⟨"q", 3⟩, .classical ⟨"c", 2⟩,
    .call (.controlled "crz" ["q[0]", "q[2]"] "q[1]" [0.5] (some ⟨"c", 3, .register⟩)),
    .call (.gate "u" "q[1]" [1.0, 0.0, 0.0] none)]
  quantum_fresh := by decide
  classical_fresh := by decide
  counted := by decide
  qubits_counted := by decide
  bits_counted := by decide

/-- The first circuit with other angles of its `u`. -/
def Construction.spun : Construction where
  name := "spun"
  steps := [
    .quantum ⟨"q", 3⟩, .classical ⟨"c", 2⟩,
    .call (.controlled "crz" ["q[2]", "q[0]"] "q[1]" [0.5] (some ⟨"c", 3, .register⟩)),
    .call (.gate "u" "q[1]" [0.5, -1.0, 2.0] none)]
  quantum_fresh := by decide
  classical_fresh := by decide
  counted := by decide
  qubits_counted := by decide
  bits_counted := by decide

theorem Construction.encode_flat_turned :
    ∃ p r, flat.circuit.encode = .ok p ∧ turned.circuit.encode = .ok r ∧ p.words = r.words ∧
      p.slices.map ProgramSlice.index = [1, 2] ∧ r.slices.map ProgramSlice.index = [1, 2] := by
  have hencode (k : Construction) (hk : (k.circuit.encode.toOption.map fun p =>
      (p.words, p.slices.map ProgramSlice.index)) =
        some ([0xbeb22fffffffffff, 0x3e02a93e0fd5776a, 0x843fffffffffffff], [1, 2])) :
      ∃ p, k.circuit.encode = .ok p ∧ p.words = [0xbeb22fffffffffff, 0x3e02a93e0fd5776a, 0x843fffffffffffff] ∧
        p.slices.map ProgramSlice.index = [1, 2] := by
    obtain ⟨p, he, hp⟩ := Option.map_eq_some_iff.mp hk
    obtain ⟨hwords, hslices⟩ := Prod.mk.inj hp
    exact ⟨p, toOption_eq_some.mp he, hwords, hslices⟩
  obtain ⟨p, hp, hwords, hslices⟩ := hencode flat (by decide +kernel)
  obtain ⟨r, hr, hwords', hslices'⟩ := hencode turned (by decide +kernel)
  exact ⟨p, r, hp, hr, hwords.trans hwords'.symm, hslices, hslices'⟩

theorem instances_of_words_eq_flat_turned :
    ∃ p r, Construction.flat.circuit.encode = .ok p ∧ Construction.turned.circuit.encode = .ok r ∧
      p.words = r.words ∧ p.slices.length = 2 ∧ r.slices.length = 2 ∧
      (Construction.flat.circuit.instances Node.writtenAngles 1).Perm
        (Construction.turned.circuit.instances Node.writtenAngles 1) ∧
      (Construction.flat.circuit.instances Node.writtenAngles 2).Perm
        (Construction.turned.circuit.instances Node.writtenAngles 2) ∧
      Construction.spun.circuit.encode = .ok p := by
  obtain ⟨p, r, hp, hr, hwords, hslices, hslices'⟩ := Construction.encode_flat_turned
  obtain ⟨-, hperm, hsame⟩ := instances_of_words_eq .flat .turned (by decide +kernel) (.inr (by decide +kernel))
    (by decide +kernel) (by decide +kernel) hp hr hwords
  simp only [List.map_eq_cons_iff, List.map_eq_nil_iff] at hslices hslices'
  obtain ⟨s, _, hsplit, hs, t, _, rfl, ht, rfl⟩ := hslices
  obtain ⟨s', _, hsplit', hs', t', _, rfl, ht', rfl⟩ := hslices'
  have hfirst := hperm 0 s s' (by rw [hsplit]; rfl) (by rw [hsplit']; rfl)
  have hsecond := hperm 1 t t' (by rw [hsplit]; rfl) (by rw [hsplit']; rfl)
  rw [hs, hs'] at hfirst
  rw [ht, ht'] at hsecond
  have hspun : Construction.flat.circuit.SameWritten Construction.spun.circuit :=
    ⟨by decide +kernel, by decide +kernel, by decide +kernel, by decide +kernel⟩
  exact ⟨p, r, hp, hr, hwords, by rw [hsplit]; rfl, by rw [hsplit']; rfl, hfirst, hsecond, hsame _ hspun⟩

/-- The angle of the first parameter of `u` is in no word. -/
theorem not_angles_of_words :
    Construction.flat.circuit.quantum = Construction.turned.circuit.quantum ∧
    Construction.flat.circuit.classical = Construction.turned.circuit.classical ∧
    ¬ Construction.flat.circuit.numQubits.isPowerOfTwo ∧
    (∀ v ∈ Construction.flat.circuit.visits, v.2.2.IsGate) ∧
    (∀ v ∈ Construction.turned.circuit.visits, v.2.2.IsGate) ∧
    ∃ p r s t, Construction.flat.circuit.encode = .ok p ∧ Construction.turned.circuit.encode = .ok r ∧
      p.words = r.words ∧ p.slices[1]? = some s ∧ r.slices[1]? = some t ∧
      ¬ (Construction.flat.circuit.instances Node.angles s.index).Perm
        (Construction.turned.circuit.instances Node.angles t.index) := by
  refine ⟨by decide +kernel, by decide +kernel, by decide +kernel, by decide +kernel, by decide +kernel, ?_⟩
  obtain ⟨p, r, hp, hr, hwords, hslices, hslices'⟩ := Construction.encode_flat_turned
  simp only [List.map_eq_cons_iff, List.map_eq_nil_iff] at hslices hslices'
  obtain ⟨_, _, hsplit, -, t, _, rfl, ht, rfl⟩ := hslices
  obtain ⟨_, _, hsplit', -, t', _, rfl, ht', rfl⟩ := hslices'
  refine ⟨p, r, t, t', hp, hr, hwords, by rw [hsplit]; rfl, by rw [hsplit']; rfl, ?_⟩
  rw [ht, ht']
  decide +kernel

end Sequencer
