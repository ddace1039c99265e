import Sequencer.Proofs.Circuit.Visits

/-!
# Which node stands for an operation

An operation on several qubits has a node on each of them. A controlled gate
counts once, at its target, on behalf of all its participants; the nodes of any
other operation count one by one. So one node stands for what a qubit does in a
timeslice. Which operations count once differs between those who look at a
circuit, and is given by a property of nodes.
-/

namespace Sequencer

/-- A property that picks controlled gates as a whole. -/
structure Node.Joint (joint : Node → Bool) : Prop where
  same : ∀ {a b : Node}, a.SameOperation b → joint a = joint b
  controlled : ∀ {n : Node}, joint n = true → n.controlled = true

theorem Node.joint_controlled : Node.Joint Node.controlled := ⟨fun h => h.controlled, id⟩

/-- The visit stands for what the qubit does: it is the node of the qubit, or
the target of a gate that counts once and that the qubit takes part in. -/
structure Visit.StandsFor (joint : Node → Bool) (q : String) (v : Visit) : Prop where
  target : joint v.2.2 = true → v.2.2.target = true
  reaches : v.2.1 = q ∨ joint v.2.2 = true ∧ q ∈ v.2.2.partners

namespace Circuit.WellFormed
variable {c : Circuit} (wf : c.WellFormed) {joint : Node → Bool} (hj : Node.Joint joint) {q : String}
include wf hj

theorem standsFor_spec {v : Visit} (hv : v ∈ c.visits) (h : v.StandsFor joint q) :
    ∃ n, c.at? q v.1 = some n ∧ v.2.2.SameOperation n ∧ (joint n = false → v.2.1 = q) ∧
      (joint n = true → v.2.1 ∈ q :: n.partners ∧ v.2.2.target = true) := by
  have hn := wf.mem_visits.mp hv
  rcases h.reaches with hown | ⟨hon, hpartner⟩
  · subst hown
    exact ⟨v.2.2, hn, .refl _, fun _ => rfl, fun hon => ⟨List.mem_cons_self, h.target hon⟩⟩
  · obtain ⟨n, hqn, hsame, hperm⟩ := (wf.participants hn).2 q hpartner
    refine ⟨n, hqn, hsame.symm, fun hoff => ?_, fun _ => ?_⟩
    · rw [hj.same hsame, hon] at hoff
      cases hoff
    · exact ⟨hperm.mem_iff.mpr List.mem_cons_self, h.target hon⟩

theorem standsFor_unique {u v : Visit} (hu : u ∈ c.visits) (hv : v ∈ c.visits)
    (hqu : u.StandsFor joint q) (hqv : v.StandsFor joint q) (ht : u.1 = v.1) : u = v := by
  obtain ⟨n, hn, -, hown, hon⟩ := wf.standsFor_spec hj hu hqu
  obtain ⟨m, hm, -, hown', hon'⟩ := wf.standsFor_spec hj hv hqv
  obtain rfl : n = m := Option.some.inj (hn.symm.trans (ht ▸ hm))
  have hnu := wf.mem_visits.mp hu
  have hnv := wf.mem_visits.mp hv
  have hqubit : u.2.1 = v.2.1 := by
    cases hjoint : joint n with
    | false => rw [hown hjoint, hown' hjoint]
    | true =>
      -- both are the target of one controlled gate
      obtain ⟨hmu, htu⟩ := hon hjoint
      obtain ⟨hmv, htv⟩ := hon' hjoint
      exact (wf.one_target hn (hj.controlled hjoint)).unique ⟨hmu, _, hnu, htu⟩ ⟨hmv, _, ht ▸ hnv, htv⟩
  rw [hqubit, ht, hnv] at hnu
  exact Prod.ext ht (Prod.ext hqubit (Option.some.inj hnu).symm)

theorem exists_standsFor {t : Int} {n : Node} (hn : c.at? q t = some n) :
    ∃ v : Visit, v ∈ c.visits ∧ v.1 = t ∧ v.StandsFor joint q ∧ v.2.2.SameOperation n := by
  cases hjoint : joint n with
  | false =>
    refine ⟨(t, q, n), wf.mem_visits.mpr hn, rfl, ⟨fun hon => ?_, .inl rfl⟩, .refl n⟩
    rw [hjoint] at hon
    cases hon
  | true =>
    obtain ⟨p, ⟨hp, m, hm, htarget⟩, -⟩ := wf.one_target hn (hj.controlled hjoint)
    rcases List.mem_cons.mp hp with rfl | hpartner
    · obtain rfl : n = m := Option.some.inj (hn.symm.trans hm)
      exact ⟨(t, p, n), wf.mem_visits.mpr hn, rfl, ⟨fun _ => htarget, .inl rfl⟩, .refl n⟩
    · obtain ⟨x, hx, hsame, hperm⟩ := (wf.participants hn).2 p hpartner
      obtain rfl : m = x := Option.some.inj (hm.symm.trans hx)
      refine ⟨(t, p, m), wf.mem_visits.mpr hm, rfl, ⟨fun _ => htarget, ?_⟩, hsame⟩
      rcases List.mem_cons.mp (hperm.mem_iff.mpr List.mem_cons_self : q ∈ p :: m.partners) with h | h
      · exact .inl h.symm
      · exact .inr ⟨(hj.same hsame).trans hjoint, h⟩

end Circuit.WellFormed
end Sequencer
