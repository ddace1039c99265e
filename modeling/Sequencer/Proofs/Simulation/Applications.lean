import Sequencer.Proofs.Checked
import Sequencer.Proofs.Circuit.Targets
import Sequencer.Proofs.Simulation.Reordering
import Sequencer.Proofs.Timelines

/-!
# The applications of a circuit

When a circuit can be simulated, and by which applications: each stems from a
visit, whose gate it applies, and acts on the qubits that the visit stands for.
-/

namespace Sequencer

theorem Node.obstacle?_eq_none {n : Node} {q : String} {t : Int} :
    n.obstacle? q t = none ↔ n.barrier = true ∨ (n.measurement || n.reset) = false ∧
      n.isConditioned = false ∧ Gate.isChannel n.gate = false := by
  rw [obstacle?]
  cases n.barrier <;> cases n.measurement || n.reset <;> cases n.isConditioned <;>
    cases Gate.isChannel n.gate <;> simp

namespace Circuit

section
variable (c : Circuit)

def applied? (v : Visit) : Option Application := (c.application? v.1 v.2.1 v.2.2).toOption.join

def appliedAt : List (Visit × Application) :=
  c.visits.filterMap fun v => (c.applied? v).map (Prod.mk v)

end

variable {c : Circuit}

theorem application?_ok {t : Int} {q : String} {n : Node} {o : Option Application} :
    c.application? t q n = .ok o ↔
      if n.barrier || !n.target then none = o
      else ∃ p target controls, n.primitive? = .ok (some p) ∧ c.qubitIndex q = .ok target ∧
        (if n.controlled then n.partners.mapM c.qubitIndex else .ok []) = .ok controls ∧
        some ⟨p, n.params, target, controls⟩ = o := by
  by_cases hskip : (n.barrier || !n.target) = true
  · simp only [application?, hskip, if_true, pure_eq_ok]
  · simp only [application?, hskip, Bool.false_eq_true, if_false, bind_eq_ok, mapError_eq_ok]
    constructor
    · rintro ⟨_ | p, hp, h⟩
      · cases h
      · by_cases hcontrolled : n.controlled = true
        · simp only [hcontrolled, if_true, bind_eq_ok, mapError_eq_ok, pure_eq_ok] at h ⊢
          obtain ⟨controls, hcontrols, target, htarget, rfl⟩ := h
          exact ⟨p, target, controls, hp, htarget, hcontrols, rfl⟩
        · simp only [hcontrolled, Bool.false_eq_true, if_false, bind_eq_ok, mapError_eq_ok,
            pure_eq_ok] at h ⊢
          obtain ⟨controls, rfl, target, htarget, rfl⟩ := h
          exact ⟨p, target, [], hp, htarget, rfl, rfl⟩
    · rintro ⟨p, target, controls, hp, htarget, hcontrols, rfl⟩
      refine ⟨some p, hp, ?_⟩
      by_cases hcontrolled : n.controlled = true
      · simp only [hcontrolled, if_true, bind_eq_ok, mapError_eq_ok, pure_eq_ok] at hcontrols ⊢
        exact ⟨controls, hcontrols, target, htarget, rfl⟩
      · simp only [hcontrolled, Bool.false_eq_true, if_false, bind_eq_ok, mapError_eq_ok,
          pure_eq_ok] at hcontrols ⊢
        exact ⟨controls, Except.ok.inj hcontrols, target, htarget, rfl⟩

theorem applied?_of_ok {v : Visit} {o : Option Application}
    (h : c.application? v.1 v.2.1 v.2.2 = .ok o) : c.applied? v = o := by
  rw [applied?, h]
  rfl

theorem map_snd_appliedAt : c.appliedAt.map Prod.snd = c.visits.filterMap c.applied? := by
  rw [appliedAt, List.map_filterMap]
  refine congrArg (List.filterMap · c.visits) (funext fun v => ?_)
  rw [Option.map_map]
  exact Option.map_id'

theorem mem_appliedAt {v : Visit} {a : Application} :
    (v, a) ∈ c.appliedAt ↔ v ∈ c.visits ∧ c.applied? v = some a := by
  simp [appliedAt]

theorem appliedAt_pairwise {r : Visit → Visit → Prop} (h : c.visits.Pairwise r) :
    c.appliedAt.Pairwise fun x y => r x.1 y.1 := by
  refine List.pairwise_filterMap.mpr (h.imp fun huv x hx y hy => ?_)
  obtain ⟨a, -, rfl⟩ := Option.map_eq_some_iff.mp hx
  obtain ⟨b, -, rfl⟩ := Option.map_eq_some_iff.mp hy
  exact huv

theorem applications_ok {l : List Application} :
    c.applications = .ok l ↔
      (∀ v ∈ c.visits, c.application? v.1 v.2.1 v.2.2 = .ok (c.applied? v)) ∧
        c.appliedAt.map Prod.snd = l := by
  simp only [applications, bind_eq_ok, pure_eq_ok]
  constructor
  · rintro ⟨found, hfound, hl⟩
    have hok : ∀ v ∈ c.visits, c.application? v.1 v.2.1 v.2.2 = .ok (c.applied? v) := by
      intro v hv
      obtain ⟨o, ho⟩ := exists_ok_of_mapM hfound v hv
      rw [applied?_of_ok ho, ho]
    refine ⟨hok, ?_⟩
    rw [mapM_eq_map hok] at hfound
    rw [map_snd_appliedAt, ← hl, ← Except.ok.inj hfound, List.filterMap_map]
    rfl
  · rintro ⟨hok, hl⟩
    refine ⟨_, mapM_eq_map hok, ?_⟩
    rw [← hl, map_snd_appliedAt, List.filterMap_map]
    rfl

theorem checkUnitary_ok :
    c.checkUnitary = .ok () ↔ ∀ q ∈ c.qubits, ∀ t n, c.at? q t = some n → n.obstacle? q t = none := by
  have hnil : c.checkUnitary = .ok () ↔ (c.qubits.flatMap fun q =>
      (c.timeline q).entries.filterMap fun e => e.2.obstacle? q e.1) = [] := by
    rw [checkUnitary]
    cases c.qubits.flatMap fun q => (c.timeline q).entries.filterMap fun e => e.2.obstacle? q e.1 with
    | nil => simp
    | cons e rest => simp
  rw [hnil, List.flatMap_eq_nil_iff]
  refine forall₂_congr fun q _ => ?_
  rw [List.filterMap_eq_nil_iff]
  constructor
  · exact fun h t n hn => h (t, n) ((Timeline.mem_iff_find (c.timeline q).ordered).mpr hn)
  · exact fun h e he => h e.1 e.2 ((Timeline.mem_iff_find (c.timeline q).ordered).mp he)

theorem simulate_ok {final : StateVector Complex} :
    c.simulate = .ok final ↔ c.checkUnitary = .ok () ∧ c.numQubits ≤ maxSimulatedQubits ∧
      ∃ l, c.applications = .ok l ∧ (StateVector.ground c.numQubits).run Primitive.matrix l = final := by
  have hground {s : StateVector Complex} : groundState c.numQubits = .ok s ↔
      c.numQubits ≤ maxSimulatedQubits ∧ .ground c.numQubits = s := by
    rw [groundState]
    split
    · refine iff_of_false nofun ?_
      omega
    · rw [Except.ok.injEq, Int.toNat_natCast]
      exact ⟨fun h => ⟨by omega, h⟩, And.right⟩
  simp only [simulate, bind_eq_ok, pure_eq_ok, mapError_eq_ok, hground]
  constructor
  · rintro ⟨_, hunitary, _, ⟨hcount, rfl⟩, l, hl, hfinal⟩
    exact ⟨hunitary, hcount, l, hl, hfinal⟩
  · rintro ⟨hunitary, hcount, l, hl, hfinal⟩
    exact ⟨(), hunitary, _, ⟨hcount, rfl⟩, l, hl, hfinal⟩

namespace WellFormed
variable (wf : c.WellFormed)
include wf

/-- The qubits of an application are those that its visit stands for. -/
theorem standsFor_of_mem_qubits {v : Visit} {a : Application} (hv : v ∈ c.visits)
    (ha : c.application? v.1 v.2.1 v.2.2 = .ok (some a)) {i : Nat} (hi : i ∈ a.qubits) :
    ∃ q ∈ c.qubits, c.position q = i ∧ v.StandsFor Node.controlled q := by
  have hqubits : ∀ q ∈ v.participants, q ∈ c.qubits := fun q hq => wf.mem_participants hv hq
  have hok := application?_ok.mp ha
  split at hok
  · cases hok
  rename_i hskip
  have htarget : v.2.2.target = true := by
    simp only [Bool.or_eq_true, Bool.not_eq_true', not_or, Bool.not_eq_false] at hskip
    exact hskip.2
  obtain ⟨p, target, controls, -, hq, hcontrols, heq⟩ := hok
  rw [wf.qubitIndex_eq (hqubits _ List.mem_cons_self)] at hq
  rw [Option.some.injEq] at heq
  subst heq
  rcases List.mem_cons.mp hi with rfl | hi
  · exact ⟨v.2.1, hqubits _ List.mem_cons_self, Except.ok.inj hq, fun _ => htarget, .inl rfl⟩
  · split at hcontrols
    · rename_i hjoint
      rw [mapM_eq_map fun p hp => wf.qubitIndex_eq (hqubits p (List.mem_cons_of_mem _ hp))] at hcontrols
      rw [← Except.ok.inj hcontrols] at hi
      obtain ⟨p, hp, rfl⟩ := List.mem_map.mp hi
      exact ⟨p, hqubits p (List.mem_cons_of_mem _ hp), rfl, fun _ => htarget, .inr ⟨hjoint, hp⟩⟩
    · rw [← Except.ok.inj hcontrols] at hi
      cases hi

theorem exists_shared {u v : Visit} {a b : Application} (hu : u ∈ c.visits) (hv : v ∈ c.visits)
    (ha : c.application? u.1 u.2.1 u.2.2 = .ok (some a))
    (hb : c.application? v.1 v.2.1 v.2.2 = .ok (some b)) (hshares : a.Shares b) :
    ∃ q, u.StandsFor Node.controlled q ∧ v.StandsFor Node.controlled q := by
  obtain ⟨i, hia, hib⟩ := hshares
  obtain ⟨q, hq, hqi, hqu⟩ := wf.standsFor_of_mem_qubits hu ha hia
  obtain ⟨p, -, hpi, hpv⟩ := wf.standsFor_of_mem_qubits hv hb hib
  obtain rfl := (position_inj hq).mp (hqi.trans hpi.symm)
  exact ⟨q, hqu, hpv⟩

theorem target_lt {l : List Application} (hl : c.applications = .ok l) :
    ∀ a ∈ l, a.target < c.numQubits := by
  obtain ⟨hok, rfl⟩ := applications_ok.mp hl
  intro a ha
  obtain ⟨⟨v, a⟩, hva, rfl⟩ := List.mem_map.mp ha
  obtain ⟨hv, happlied⟩ := mem_appliedAt.mp hva
  obtain ⟨q, hq, hqi, -⟩ := wf.standsFor_of_mem_qubits hv (happlied ▸ hok v hv) List.mem_cons_self
  exact hqi ▸ position_lt_numQubits hq

end WellFormed

end Circuit
end Sequencer
