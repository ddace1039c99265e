import Sequencer.Proofs.Circuit.WellFormed

/-!
# Visiting a circuit

The visits of a well-formed circuit are its nodes, each once, in order of
their timeslices.
-/

namespace Sequencer

/-- A timeslice, a qubit and the node there. -/
abbrev Visit := Int × String × Node

namespace Visit

def participants (v : Visit) : List String := v.2.1 :: v.2.2.partners

def Before (a b : Visit) : Prop := a.1 < b.1 ∨ a.1 = b.1 ∧ a.2.1 ≠ b.2.1

theorem Before.le {a b : Visit} (h : a.Before b) : a.1 ≤ b.1 := by
  rcases h with h | h
  · exact Int.le_of_lt h
  · exact Int.le_of_eq h.1

end Visit

namespace Circuit

/-- `a` is visited before `b`: in an earlier timeslice, or in the same one on an
earlier qubit. -/
def Precedes (c : Circuit) (a b : Visit) : Prop :=
  a.1 < b.1 ∨ a.1 = b.1 ∧ c.position a.2.1 < c.position b.2.1

section
variable {c : Circuit} {a b : Visit}

theorem Precedes.before (h : c.Precedes a b) : a.Before b := by
  rcases h with hlt | ⟨ht, hlt⟩
  · exact .inl hlt
  · exact .inr ⟨ht, fun hq => Nat.lt_irrefl _ (hq ▸ hlt)⟩

theorem Precedes.asymm (h : c.Precedes a b) : ¬ c.Precedes b a := by
  unfold Precedes at *
  omega

theorem Precedes.irrefl (a : Visit) : ¬ c.Precedes a a := fun h => h.asymm h

end

theorem mem_slices {c : Circuit} {t : Int} : t ∈ c.slices ↔ 1 ≤ t ∧ t ≤ c.lastSlice := by
  simp only [slices, List.mem_map, List.mem_range]
  constructor
  · rintro ⟨i, hi, rfl⟩
    omega
  · intro h
    exact ⟨(t - 1).toNat, by omega, by omega⟩

theorem slices_ordered (c : Circuit) : c.slices.Pairwise (· < ·) := by
  refine List.pairwise_map.mpr (List.pairwise_lt_range.imp fun h => ?_)
  omega

theorem nodup_slices (c : Circuit) : c.slices.Nodup := c.slices_ordered.imp Int.ne_of_lt

theorem mem_visitsAt {c : Circuit} {t : Int} {v : Visit} :
    v ∈ c.visitsAt t ↔ v.1 = t ∧ v.2.1 ∈ c.qubits ∧ c.at? v.2.1 v.1 = some v.2.2 := by
  obtain ⟨s, q, n⟩ := v
  simp only [visitsAt, List.mem_filterMap, Option.map_eq_some_iff, Prod.mk.injEq]
  constructor
  · rintro ⟨p, hp, m, hm, rfl, rfl, rfl⟩
    exact ⟨rfl, hp, hm⟩
  · rintro ⟨rfl, hq, hn⟩
    exact ⟨q, hq, n, hn, rfl, rfl, rfl⟩

theorem mem_visits {c : Circuit} {v : Visit} :
    v ∈ c.visits ↔ (1 ≤ v.1 ∧ v.1 ≤ c.lastSlice) ∧ v.2.1 ∈ c.qubits ∧ c.at? v.2.1 v.1 = some v.2.2 := by
  simp only [visits, List.mem_flatMap, mem_slices, mem_visitsAt]
  constructor
  · rintro ⟨t, ht, rfl, hv⟩
    exact ⟨ht, hv⟩
  · rintro ⟨ht, hv⟩
    exact ⟨v.1, ht, rfl, hv⟩

theorem visits_precede {c : Circuit} (h : c.qubits.Nodup) : c.visits.Pairwise c.Precedes := by
  have hpositions : c.qubits.Pairwise fun p q => c.position p < c.position q := by
    refine List.pairwise_iff_getElem.mpr fun i j hi hj hij => ?_
    rwa [position, position, h.idxOf_getElem, h.idxOf_getElem]
  refine List.pairwise_flatMap.mpr ⟨fun t _ => ?_, ?_⟩
  · refine List.pairwise_filterMap.mpr (hpositions.imp fun hpq a ha b hb => ?_)
    simp only [Option.map_eq_some_iff] at ha hb
    obtain ⟨m, -, rfl⟩ := ha
    obtain ⟨n, -, rfl⟩ := hb
    exact .inr ⟨rfl, hpq⟩
  · refine c.slices_ordered.imp fun hst a ha b hb => ?_
    rw [← (mem_visitsAt.mp ha).1, ← (mem_visitsAt.mp hb).1] at hst
    exact .inl hst

theorem visits_ordered {c : Circuit} (h : c.qubits.Nodup) : c.visits.Pairwise Visit.Before :=
  (visits_precede h).imp Precedes.before

theorem nodup_visits {c : Circuit} (h : c.qubits.Nodup) : c.visits.Nodup := by
  refine (visits_ordered h).imp fun {a b} hab heq => ?_
  subst heq
  rcases hab with hab | hab
  · exact Int.lt_irrefl _ hab
  · exact hab.2 rfl

namespace WellFormed
variable {c : Circuit} (h : c.WellFormed)
include h

theorem mem_visits {v : Visit} : v ∈ c.visits ↔ c.at? v.2.1 v.1 = some v.2.2 := by
  rw [Circuit.mem_visits]
  refine ⟨fun hv => hv.2.2, fun hn => ⟨⟨(h.slice hn).2.1, h.slice_le hn⟩, h.mem_qubits hn, hn⟩⟩

theorem mem_participants {v : Visit} (hv : v ∈ c.visits) {q : String} (hq : q ∈ v.participants) :
    q ∈ c.qubits := by
  have hn := h.mem_visits.mp hv
  rcases List.mem_cons.mp hq with rfl | hq
  · exact h.mem_qubits hn
  · obtain ⟨m, hm, -⟩ := (h.participants hn).2 q hq
    exact h.mem_qubits hm

theorem visits_ordered : c.visits.Pairwise Visit.Before := Circuit.visits_ordered h.nodup_qubits

theorem visits_precede : c.visits.Pairwise c.Precedes := Circuit.visits_precede h.nodup_qubits

theorem precedes_total {a b : Visit} (ha : a ∈ c.visits) (hb : b ∈ c.visits) :
    c.Precedes a b ∨ a = b ∨ c.Precedes b a := by
  have hna := h.mem_visits.mp ha
  have hnb := h.mem_visits.mp hb
  by_cases hplace : a.1 = b.1 ∧ c.position a.2.1 = c.position b.2.1
  · obtain ⟨ht, hposition⟩ := hplace
    have hq := (position_inj (h.mem_qubits hna)).mp hposition
    rw [ht, hq, hnb] at hna
    exact .inr (.inl (Prod.ext ht (Prod.ext hq (Option.some.inj hna).symm)))
  · unfold Precedes
    omega

theorem nodup_visits : c.visits.Nodup := Circuit.nodup_visits h.nodup_qubits

end WellFormed

end Circuit
end Sequencer
