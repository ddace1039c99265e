import Sequencer.Proofs.Schedule.Visiting
import Sequencer.Proofs.Simulation.Applications

/-!
# Simulating a scheduled circuit

`schedule_simulates`: a scheduled circuit can be simulated when the circuit can,
and its gate applications are those of the circuit in an order that differs only
where no qubit is shared. So the final amplitudes are the same, in any
commutative ring.

Applications that share a qubit stem from different timeslices of it, which both
modes keep in order; the target of a controlled gate moves with its controls.
-/

namespace Sequencer

namespace Circuit.ScheduledAs
variable {c d : Circuit} {slot : String → Int → Int} (h : c.ScheduledAs d slot)
include h

theorem application?_moved {v : Visit} {o : Option Application}
    (ho : c.application? v.1 v.2.1 v.2.2 = .ok o) :
    d.application? (v.moved slot).1 (v.moved slot).2.1 (v.moved slot).2.2 = .ok o := by
  rw [application?_ok] at ho ⊢
  rwa [show d.qubitIndex = c.qubitIndex from funext h.qubitIndex]

theorem checkUnitary_ok (hunitary : c.checkUnitary = .ok ()) : d.checkUnitary = .ok () := by
  rw [Circuit.checkUnitary_ok] at hunitary ⊢
  intro q hq s m hm
  obtain ⟨t, n, hn, -, rfl⟩ := h.moved.mp hm
  exact Node.obstacle?_eq_none.mpr (Node.obstacle?_eq_none.mp (hunitary q (h.qubits_eq ▸ hq) t n hn))

variable (wf : c.WellFormed)
include wf

theorem slot_eq {v : Visit} {q : String} (hv : v ∈ c.visits) (hq : v.StandsFor Node.controlled q) :
    slot v.2.1 v.1 = slot q v.1 := by
  rcases hq.reaches with rfl | ⟨-, hp⟩
  · rfl
  · exact (h.together (wf.mem_visits.mp hv) hp).2.symm

theorem lt_of_moved {u v : Visit} {q : String} (hu : u ∈ c.visits) (hv : v ∈ c.visits)
    (hqu : u.StandsFor Node.controlled q) (hqv : v.StandsFor Node.controlled q)
    (hbefore : (u.moved slot).Before (v.moved slot)) : u.1 < v.1 := by
  rcases Int.lt_trichotomy u.1 v.1 with hlt | heq | hgt
  · exact hlt
  · obtain rfl := wf.standsFor_unique Node.joint_controlled hu hv hqu hqv heq
    rcases hbefore with hlt | ⟨-, hne⟩
    · exact absurd hlt (Int.lt_irrefl _)
    · exact absurd rfl hne
  · obtain ⟨n, hn, -⟩ := wf.standsFor_spec Node.joint_controlled hu hqu
    obtain ⟨m, hm, -⟩ := wf.standsFor_spec Node.joint_controlled hv hqv
    have hslot := h.ordered hm hn hgt
    rw [← h.slot_eq wf hu hqu, ← h.slot_eq wf hv hqv] at hslot
    exact absurd hbefore.le (Int.not_le.mpr hslot)

theorem appliedAt_perm
    (hok : ∀ v ∈ c.visits, c.application? v.1 v.2.1 v.2.2 = .ok (c.applied? v)) :
    d.appliedAt.Perm (c.appliedAt.map (Prod.map (Visit.moved slot) id)) := by
  refine ((h.visits_perm wf).filterMap _).trans (.of_eq ?_)
  rw [List.filterMap_map, appliedAt, List.map_filterMap]
  refine List.filterMap_congr fun v hv => ?_
  rw [Function.comp_apply, applied?_of_ok (h.application?_moved (hok v hv)), Option.map_map]
  rfl

theorem applications_reordered {before : List Application} (hbefore : c.applications = .ok before) :
    ∃ after, d.applications = .ok after ∧ Reordered before after := by
  obtain ⟨hok, rfl⟩ := applications_ok.mp hbefore
  refine ⟨_, applications_ok.mpr ⟨fun w hw => ?_, rfl⟩, ?_⟩
  · obtain ⟨v, hv, rfl⟩ := (h.mem_visits wf).mp hw
    have ho := h.application?_moved (hok v hv)
    rw [applied?_of_ok ho, ho]
  · obtain ⟨pairs, heq, hperm⟩ :=
      (congrFun₂ (List.eq_map_comp_perm _) d.appliedAt c.appliedAt).mpr (h.appliedAt_perm wf hok)
    have hnodup : d.qubits.Nodup := h.qubits_eq ▸ wf.nodup_qubits
    have hordered := appliedAt_pairwise (visits_ordered hnodup)
    rw [heq] at hordered ⊢
    rw [List.map_map]
    refine Reordered.of_perm Prod.fst hperm
      (appliedAt_pairwise (wf.visits_ordered.imp Visit.Before.le)) ?_
    refine (List.pairwise_map.mp hordered).imp_of_mem fun {x y} hx hy hxy hshares => ?_
    obtain ⟨hu, hau⟩ := mem_appliedAt.mp (hperm.mem_iff.mp hx)
    obtain ⟨hv, hav⟩ := mem_appliedAt.mp (hperm.mem_iff.mp hy)
    obtain ⟨q, hqu, hqv⟩ := wf.exists_shared hu hv (hau ▸ hok _ hu) (hav ▸ hok _ hv) hshares
    exact h.lt_of_moved wf hu hv hqu hqv hxy

end Circuit.ScheduledAs

/-- The circuit `d` is simulated like `c`: by the same applications, up to an order
that keeps those that share a qubit, and so with the same final amplitudes
whatever the matrices are. -/
structure Circuit.SimulatedLike (c d : Circuit) (before after : List Application) : Prop where
  applications : c.applications = .ok before
  applications' : d.applications = .ok after
  simulate : c.simulate = .ok ((StateVector.ground c.numQubits).run Primitive.matrix before)
  simulate' : d.simulate = .ok ((StateVector.ground c.numQubits).run Primitive.matrix after)
  reordered : Reordered before after
  same : ∀ (R : Type) [CommRing R] (matrix : Primitive → List Float → Matrix2 R),
    (StateVector.ground c.numQubits).run matrix after =
      (StateVector.ground c.numQubits).run matrix before

/-- Scheduling a circuit that can be simulated, in either mode, gives a circuit
that is simulated like it. -/
theorem schedule_simulates (k : Construction) (comma : k.circuit.CommaFree) (mode : Mode)
    {final : StateVector Complex} (hs : k.circuit.simulate = .ok final) :
    ∃ d before after, k.circuit.schedule ⟨true, mode.code⟩ = .ok d ∧
      k.circuit.SimulatedLike d before after := by
  have wf := k.wellFormed
  obtain ⟨d, slot, hd, h⟩ := wf.schedule_ok comma mode
  obtain ⟨hunitary, hcount, before, hbefore, rfl⟩ := Circuit.simulate_ok.mp hs
  obtain ⟨after, hafter, hreordered⟩ := h.applications_reordered wf hbefore
  have hqubits : d.numQubits = k.circuit.numQubits := congrArg List.length h.qubits_eq
  refine ⟨d, before, after, hd,
    { applications := hbefore
      applications' := hafter
      simulate := hs
      simulate' := Circuit.simulate_ok.mpr
        ⟨h.checkUnitary_ok hunitary, hqubits ▸ hcount, after, hafter, ?_⟩
      reordered := hreordered
      same := fun R _ matrix => ?_ }⟩
  · rw [hqubits]
  · exact StateVector.run_reordered matrix StateVector.size_ground (wf.target_lt hbefore) hreordered

/-- Gates with two controls and with one, between gates on the same qubits. -/
def Construction.interfering : Construction where
  name := "interfering"
  steps := [
    .quantum ⟨"q", 3⟩,
    .call (.gate "h" "q[0]" [] none),
    .call (.gate "h" "q[1]" [] none),
    .call (.gate "t" "q[0]" [] none),
    .call (.controlled "cx" ["q[0]", "q[1]"] "q[2]" [] none),
    .call (.barrier ["q[0]", "q[2]"]),
    .call (.gate "h" "q[0]" [] none),
    .call (.controlled "cz" ["q[2]"] "q[0]" [] none)]
  quantum_fresh := by decide
  classical_fresh := by decide
  counted := by decide
  qubits_counted := by decide
  bits_counted := by decide

theorem schedule_simulates_interfering :
    ∃ d before after, Construction.interfering.circuit.schedule ⟨true, Mode.packed.code⟩ = .ok d ∧
      before.map Application.qubits = [[0], [1], [0], [2, 0, 1], [0], [0, 2]] ∧
      Construction.interfering.circuit.SimulatedLike d before after := by
  have hsome : Construction.interfering.circuit.simulate.toOption.isSome = true := by decide +kernel
  have hbefore : Construction.interfering.circuit.applications.toOption.map (·.map Application.qubits) =
      some [[0], [1], [0], [2, 0, 1], [0], [0, 2]] := by decide +kernel
  obtain ⟨final, hs⟩ := isSome_toOption.mp hsome
  obtain ⟨d, before, after, hd, h⟩ :=
    schedule_simulates .interfering (by decide +kernel) .packed hs
  rw [h.applications] at hbefore
  exact ⟨d, before, after, hd, Option.some.inj hbefore, h⟩

end Sequencer
