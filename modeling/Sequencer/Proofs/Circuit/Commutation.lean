import Mathlib.Logic.Relation
import Sequencer.Proofs.Circuit.Dependences
import Sequencer.Proofs.Circuit.Keys
import Sequencer.Proofs.Circuit.Replay

/-!
# Independent calls commute

Two calls of which neither waits for the other, and which write no bit in
common, can be performed in either order: each finds the marks it reads as
they were, so it goes to the same timeslice, and the circuits come out equal in
every field. What is shared, the last timeslice and the last measured one, is a
maximum either way.
-/

namespace Sequencer

/-- Neither call waits for the other, and no bit is written by both. -/
structure BuildCall.Independent (a b : BuildCall) : Prop where
  first : ¬ a.WaitsFor b
  second : ¬ b.WaitsFor a
  bits : ∀ x, a.WritesTo x → ¬ b.WritesTo x

def BuildStep.Swapped (steps steps' : List BuildStep) : Prop :=
  ∃ front a b back, BuildCall.Independent a b ∧ steps = front ++ .call a :: .call b :: back ∧
    steps' = front ++ .call b :: .call a :: back

namespace BuildCall

theorem Independent.disjoint {a b : BuildCall} (h : a.Independent b) :
    a.participants.Disjoint b.participants :=
  fun q ha hb => h.first (.inl ⟨q, ha, hb⟩)

theorem writesTo_of_mem_nodes {call : BuildCall} {t : Int} {e : String × Node} {b : String}
    (he : e ∈ call.nodes t) (hw : e.2.WritesTo b) : call.WritesTo b := by
  cases call with
  | measure qubits bits cond =>
    obtain ⟨x, hx, rfl⟩ := List.mem_map.mp he
    obtain rfl : b = x.2 := List.mem_singleton.mp hw.2
    exact ⟨x.1, hx⟩
  | gate | controlled | reset | barrier | named =>
    have hmeasured := (measurement_of_mem_nodes he).mp hw.1
    cases hmeasured

end BuildCall

namespace Circuit
variable {c d : Circuit} {a b : BuildCall}

theorem slotFor_congr {qubits : List String} {cond : Option Condition}
    (marks : ∀ q ∈ qubits, mark d.qubitMarks q = mark c.qubitMarks q)
    (measured : cond.isSome = true → d.lastMeasured = c.lastMeasured) :
    d.slotFor qubits cond = c.slotFor qubits cond := by
  unfold slotFor
  rw [foldl_max_mark, foldl_max_mark, List.map_congr_left marks]
  cases cond with
  | none => rfl
  | some k => rw [measured rfl]

theorem slotFor_of_not_waitsFor (wf : c.WellFormed) (ha : c.perform a = .ok d) (h : ¬ b.WaitsFor a) :
    d.slotFor b.participants b.cond = c.slotFor b.participants b.cond := by
  obtain ⟨hfst, placed, rfl⟩ := perform_nodes ha
  have tracked := placed.tracks wf
  refine slotFor_congr (fun q hq => ?_) fun hcond => ?_
  · rw [mark_placeAll tracked, List.filter_eq_nil_iff.mpr]
    · rfl
    · intro e he heq
      have hmem : e.1 ∈ a.participants := hfst ▸ List.mem_map_of_mem he
      exact h (.inl ⟨q, hq, of_decide_eq_true heq ▸ hmem⟩)
  · rw [lastMeasured_placeAll tracked, List.filter_eq_nil_iff.mpr]
    · rfl
    · intro e he hm
      exact h (.inr ⟨hcond, List.ne_nil_of_mem ((BuildCall.measurement_of_mem_nodes he).mp hm)⟩)

theorem placeAll_comm (wf : c.WellFormed) (keyed : c.Keyed) (h : a.Independent b) {s t : Int}
    (hfst : (a.nodes s).map Prod.fst = a.participants) (placed : c.Placed a.cond (a.nodes s))
    (hfst' : (b.nodes t).map Prod.fst = b.participants) (placed' : c.Placed b.cond (b.nodes t)) :
    c.placeAll (a.nodes s ++ b.nodes t) = c.placeAll (b.nodes t ++ a.nodes s) := by
  have apart {call : BuildCall} {u : Int} (placed : c.Placed call.cond (call.nodes u)) :
      (call.nodes u).Pairwise fun x y => x.1 = y.1 → x.2.timeslice ≠ y.2.timeslice :=
    (List.pairwise_map.mp placed.distinct).imp fun hne heq => absurd heq hne
  refine keyed.placeAll_perm wf.nodup_qubits wf.nodup_bits List.perm_append_comm ?_ ?_ ?_ ?_
  · exact List.forall_mem_append.mpr ⟨placed.tracks wf, placed'.tracks wf⟩
  · exact List.forall_mem_append.mpr ⟨placed.notes wf, placed'.notes wf⟩
  · refine List.pairwise_append.mpr ⟨apart placed, apart placed', fun x hx y hy heq => ?_⟩
    have hxa : x.1 ∈ a.participants := hfst ▸ List.mem_map_of_mem hx
    have hyb : y.1 ∈ b.participants := hfst' ▸ List.mem_map_of_mem hy
    exact absurd (heq ▸ hyb) (h.disjoint hxa)
  · intro x u
    have unwritten {call : BuildCall} {r : Int} (hcall : ¬ call.WritesTo x) :
        (call.nodes r).filter (fun e => e.2.WritesTo x ∧ e.2.timeslice = u) = [] := by
      refine List.filter_eq_nil_iff.mpr fun e he hw => ?_
      exact hcall (BuildCall.writesTo_of_mem_nodes he (of_decide_eq_true hw).1)
    by_cases hx : a.WritesTo x
    · rw [List.filter_append, List.filter_append, unwritten (h.bits x hx), List.append_nil, List.nil_append]
    · rw [List.filter_append, List.filter_append, unwritten hx, List.append_nil, List.nil_append]

theorem perform_comm (wf : c.WellFormed) (keyed : c.Keyed) (h : a.Independent b) {ca cb : Circuit}
    (ha : c.perform a = .ok ca) (hb : c.perform b = .ok cb) :
    ∃ d, ca.perform b = .ok d ∧ cb.perform a = .ok d := by
  have later {x y : BuildCall} {cx cy : Circuit} (hx : c.perform x = .ok cx) (hy : c.perform y = .ok cy)
      (hxy : ¬ y.WaitsFor x) : cx.perform y = .ok (c.placeAll
        (x.nodes (c.slotFor x.participants x.cond) ++ y.nodes (c.slotFor y.participants y.cond))) := by
    obtain ⟨hquantum, hclassical⟩ := perform_registers hx
    obtain ⟨d, hd⟩ := (perform_ok_iff cx y).mpr
      (Valid.congr ((perform_ok_iff c y).mp ⟨cy, hy⟩) hquantum hclassical)
    rw [hd, (perform_nodes hd).2.2, slotFor_of_not_waitsFor wf hx hxy, (perform_nodes hx).2.2,
      placeAll_append]
  obtain ⟨hfst, placed, -⟩ := perform_nodes ha
  obtain ⟨hfst', placed', -⟩ := perform_nodes hb
  refine ⟨_, later ha hb h.second, ?_⟩
  rw [later hb ha h.first, placeAll_comm wf keyed h hfst placed hfst' placed']

end Circuit

namespace BuildStep
variable {c : Circuit} {a b : BuildCall}

theorem apply_of_not_valid (h : ¬ a.Valid c) : (call a).apply c = c := by
  cases ha : c.perform a with
  | error e => exact apply_of_error ha
  | ok d => exact absurd ((Circuit.perform_ok_iff c a).mp ⟨d, ha⟩) h

/-- A call that fails does so before and after any other call. -/
theorem apply_comm_of_not_valid (h : ¬ a.Valid c) :
    (call a).apply ((call b).apply c) = (call b).apply ((call a).apply c) := by
  rw [apply_of_not_valid h]
  refine apply_of_not_valid fun hvalid => h ?_
  cases hb : c.perform b with
  | error e =>
    rw [apply_of_error hb] at hvalid
    exact hvalid
  | ok d =>
    rw [apply_of_ok hb] at hvalid
    obtain ⟨hquantum, hclassical⟩ := Circuit.perform_registers hb
    exact Circuit.Valid.congr hvalid hquantum.symm hclassical.symm

theorem apply_comm (wf : c.WellFormed) (keyed : c.Keyed) (h : a.Independent b) :
    (call b).apply ((call a).apply c) = (call a).apply ((call b).apply c) := by
  by_cases hva : a.Valid c
  · by_cases hvb : b.Valid c
    · obtain ⟨ca, ha⟩ := (Circuit.perform_ok_iff c a).mpr hva
      obtain ⟨cb, hb⟩ := (Circuit.perform_ok_iff c b).mpr hvb
      obtain ⟨d, hab, hba⟩ := Circuit.perform_comm wf keyed h ha hb
      rw [apply_of_ok ha, apply_of_ok hb, apply_of_ok hab, apply_of_ok hba]
    · exact apply_comm_of_not_valid hvb
  · exact (apply_comm_of_not_valid hva).symm

end BuildStep

namespace Construction

theorem exists_swapped (k : Construction) {steps : List BuildStep} (h : BuildStep.Swapped k.steps steps) :
    ∃ k' : Construction, k'.name = k.name ∧ k'.steps = steps ∧ k'.circuit = k.circuit := by
  obtain ⟨front, a, b, back, hab, hsteps, rfl⟩ := h
  have hquantum : (front ++ .call b :: .call a :: back).filterMap BuildStep.quantum? =
      k.steps.filterMap BuildStep.quantum? := by
    rw [hsteps, List.filterMap_append, List.filterMap_append]
    rfl
  have hclassical : (front ++ .call b :: .call a :: back).filterMap BuildStep.classical? =
      k.steps.filterMap BuildStep.classical? := by
    rw [hsteps, List.filterMap_append, List.filterMap_append]
    rfl
  have hlength : (front ++ .call b :: .call a :: back).length = k.steps.length := by simp [hsteps]
  refine ⟨⟨k.name, front ++ .call b :: .call a :: back, hquantum ▸ k.quantum_fresh,
    hclassical ▸ k.classical_fresh, hlength ▸ k.counted, hquantum ▸ k.qubits_counted,
    hclassical ▸ k.bits_counted⟩, rfl, rfl, ?_⟩
  have hfront : (k.first front.length).circuit = front.foldl BuildStep.apply { name := k.name } := by
    simp [circuit, first, hsteps]
  have hcomm := BuildStep.apply_comm (k.first front.length).wellFormed (k.first front.length).keyed hab
  rw [hfront] at hcomm
  simp only [circuit, hsteps, List.foldl_append, List.foldl_cons, hcomm]

theorem exists_rearranged (k : Construction) {steps : List BuildStep}
    (h : Relation.ReflTransGen BuildStep.Swapped k.steps steps) :
    ∃ k' : Construction, k'.name = k.name ∧ k'.steps = steps ∧ k'.circuit = k.circuit := by
  induction h with
  | refl => exact ⟨k, rfl, rfl, rfl⟩
  | tail _ hswap ih =>
    obtain ⟨m, hname, rfl, hcircuit⟩ := ih
    obtain ⟨k', hname', hsteps', hcircuit'⟩ := m.exists_swapped hswap
    exact ⟨k', hname'.trans hname, hsteps', hcircuit'.trans hcircuit⟩

end Construction

/-- Independent calls that both succeed on a circuit succeed one after the
other too, and give the same circuit in either order. Constructions whose steps
differ by swaps of such neighbours build the same circuit. -/
theorem calls_commute (k : Construction) :
    (∀ {a b : BuildCall} {ca cb : Circuit}, a.Independent b → k.circuit.perform a = .ok ca →
      k.circuit.perform b = .ok cb → ∃ d, ca.perform b = .ok d ∧ cb.perform a = .ok d) ∧
    ∀ k' : Construction, k'.name = k.name → Relation.ReflTransGen BuildStep.Swapped k.steps k'.steps →
      k'.circuit = k.circuit := by
  refine ⟨fun h ha hb => Circuit.perform_comm k.wellFormed k.keyed h ha hb, fun k' hname hswaps => ?_⟩
  obtain ⟨m, hm, hsteps, hcircuit⟩ := k.exists_rearranged hswaps
  rw [← hcircuit, Construction.circuit, Construction.circuit, hsteps, hm, hname]

/-- Two measurements into different bits, then a gate on two idle qubits. -/
def Construction.parallel : Construction where
  name := "parallel"
  steps := [
    .quantum ⟨"q", 4⟩, .classical ⟨"c", 2⟩,
    .call (.gate "h" "q[0]" [] none),
    .call (.measure ["q[0]"] ["c[0]"] none),
    .call (.measure ["q[1]"] ["c[1]"] none),
    .call (.controlled "cx" ["q[2]"] "q[3]" [] none)]
  quantum_fresh := by decide
  classical_fresh := by decide
  counted := by decide
  qubits_counted := by decide
  bits_counted := by decide

/-- The gate on the idle qubits is called before the measurements. -/
def Construction.ahead : Construction where
  name := "parallel"
  steps := [
    .quantum ⟨"q", 4⟩, .classical ⟨"c", 2⟩,
    .call (.gate "h" "q[0]" [] none),
    .call (.controlled "cx" ["q[2]"] "q[3]" [] none),
    .call (.measure ["q[0]"] ["c[0]"] none),
    .call (.measure ["q[1]"] ["c[1]"] none)]
  quantum_fresh := by decide
  classical_fresh := by decide
  counted := by decide
  qubits_counted := by decide
  bits_counted := by decide

theorem Construction.swapped_parallel :
    Relation.ReflTransGen BuildStep.Swapped parallel.steps ahead.steps := by
  have independent (q b : String) (hq : q ≠ "q[2]" ∧ q ≠ "q[3]") :
      BuildCall.Independent (.measure [q] [b] none) (.controlled "cx" ["q[2]"] "q[3]" [] none) := by
    refine ⟨?_, ?_, ?_⟩ <;>
      simp_all [BuildCall.WaitsFor, BuildCall.WritesTo, BuildCall.writes, BuildCall.participants,
        BuildCall.cond]
  refine .tail (.single ?_) ⟨parallel.steps.take 3, _, _, [.call (.measure ["q[1]"] ["c[1]"] none)],
    independent "q[0]" "c[0]" (by decide), rfl, rfl⟩
  exact ⟨parallel.steps.take 4, _, _, [], independent "q[1]" "c[1]" (by decide), rfl, rfl⟩

theorem calls_commute_parallel :
    Construction.ahead.circuit = Construction.parallel.circuit ∧
      ∃ ca cb d, Construction.parallel.circuit.perform (.measure ["q[2]"] ["c[0]"] none) = .ok ca ∧
        Construction.parallel.circuit.perform (.measure ["q[3]"] ["c[1]"] none) = .ok cb ∧
        ca.perform (.measure ["q[3]"] ["c[1]"] none) = .ok d ∧
        cb.perform (.measure ["q[2]"] ["c[0]"] none) = .ok d := by
  obtain ⟨hcomm, hswaps⟩ := calls_commute .parallel
  refine ⟨hswaps .ahead rfl Construction.swapped_parallel, ?_⟩
  obtain ⟨ca, ha⟩ := (Circuit.perform_ok_iff Construction.parallel.circuit
    (.measure ["q[2]"] ["c[0]"] none)).mpr (by refine ⟨?_, ?_, rfl, ?_⟩ <;> decide +kernel)
  obtain ⟨cb, hb⟩ := (Circuit.perform_ok_iff Construction.parallel.circuit
    (.measure ["q[3]"] ["c[1]"] none)).mpr (by refine ⟨?_, ?_, rfl, ?_⟩ <;> decide +kernel)
  have independent : BuildCall.Independent (.measure ["q[2]"] ["c[0]"] none)
      (.measure ["q[3]"] ["c[1]"] none) := by
    refine ⟨?_, ?_, ?_⟩ <;>
      simp [BuildCall.WaitsFor, BuildCall.WritesTo, BuildCall.writes, BuildCall.participants, BuildCall.cond]
  obtain ⟨d, hab, hba⟩ := hcomm independent ha hb
  exact ⟨ca, cb, d, ha, hb, hab, hba⟩

end Sequencer
