import Sequencer.Proofs.Schedule.Isolated
import Sequencer.Proofs.Schedule.Packed

/-!
# Visiting a scheduled circuit

In either mode the scheduled circuit has the visits of the circuit, each moved
to its new timeslice, in some other order.
-/

namespace Sequencer

def Visit.moved (slot : String → Int → Int) (v : Visit) : Visit :=
  (slot v.2.1 v.1, v.2.1, { v.2.2 with timeslice := slot v.2.1 v.1 })

namespace Circuit

structure ScheduledAs (c d : Circuit) (slot : String → Int → Int) : Prop
    extends c.Rescheduled d slot where
  visited : ∀ {q t n}, c.at? q t = some n → 1 ≤ slot q t ∧ slot q t ≤ d.lastSlice

namespace Rescheduled
variable {c d : Circuit} {slot : String → Int → Int} (h : c.Rescheduled d slot) (wf : c.WellFormed)
include h wf

theorem controlled {q : String} {s : Int} {m : Node} (hm : d.at? q s = some m) (hctrl : m.controlled = true) :
    m.partners ≠ [] := by
  obtain ⟨t, n, hn, -, rfl⟩ := h.moved.mp hm
  have hpartners := wf.controlled hn
  exact hpartners hctrl

theorem target {q : String} {s : Int} {m : Node} (hm : d.at? q s = some m) (hctrl : m.controlled = false) :
    m.target = true := by
  obtain ⟨t, n, hn, -, rfl⟩ := h.moved.mp hm
  have htarget := wf.target hn
  exact htarget hctrl

theorem participants {q : String} {s : Int} {m : Node} (hm : d.at? q s = some m) :
    (q :: m.partners).Nodup ∧ ∀ p ∈ m.partners, ∃ x, d.at? p s = some x ∧ x.SameOperation m ∧
      (p :: x.partners).Perm (q :: m.partners) := by
  obtain ⟨t, n, hn, rfl, rfl⟩ := h.moved.mp hm
  obtain ⟨hnodup, hpartners⟩ := wf.participants hn
  refine ⟨hnodup, fun p hp => ?_⟩
  obtain ⟨x, hx, hsame, hperm⟩ := hpartners p hp
  refine ⟨_, h.moved.mpr ⟨t, x, hx, (h.together hn hp).2, rfl⟩, ?_, hperm⟩
  exact ⟨hsame.gate, hsame.params, hsame.controlled, hsame.measurement, hsame.reset, hsame.barrier, hsame.cond⟩

omit wf in
theorem at?_participant {q p : String} {t : Int} {n x : Node} (hn : c.at? q t = some n) (hp : p ∈ q :: n.partners) :
    d.at? p (slot q t) = some x ↔ ∃ y, c.at? p t = some y ∧ x = { y with timeslice := slot q t } := by
  obtain ⟨y, hy, hslot⟩ := h.slot_participant hn hp
  constructor
  · intro hx
    exact ⟨y, hy, Option.some.inj (hx.symm.trans (h.moved.mpr ⟨t, y, hy, hslot, rfl⟩))⟩
  · rintro ⟨z, hz, rfl⟩
    exact h.moved.mpr ⟨t, z, hz, hslot, rfl⟩

theorem one_target {q : String} {s : Int} {m : Node} (hm : d.at? q s = some m) (hctrl : m.controlled = true) :
    ∃! p, p ∈ q :: m.partners ∧ ∃ x, d.at? p s = some x ∧ x.target = true := by
  obtain ⟨t, n, hn, rfl, rfl⟩ := h.moved.mp hm
  obtain ⟨p, ⟨hp, x, hx, hxt⟩, hunique⟩ := wf.one_target hn hctrl
  refine ⟨p, ⟨hp, _, (h.at?_participant hn hp).mpr ⟨x, hx, rfl⟩, hxt⟩, ?_⟩
  rintro r ⟨hr, z, hz, hzt⟩
  obtain ⟨y, hy, rfl⟩ := (h.at?_participant hn hr).mp hz
  exact hunique r ⟨hr, y, hy, hzt⟩

end Rescheduled

namespace WellFormed
variable {c : Circuit} (wf : c.WellFormed)
include wf

section
variable {moves : List Move} (hvisits : moves.map Move.visit = c.visits)
  (h : c.Rescheduled (c.skeleton.placeAll (moves.map Move.placed)) (slotIn moves)) (hpos : ∀ a ∈ moves, 1 ≤ a.slot)
include hvisits h hpos

theorem scheduledAs : c.ScheduledAs (c.skeleton.placeAll (moves.map Move.placed)) (slotIn moves) :=
  { h with
    visited := fun {q t n} hn => ⟨wf.one_le_slotIn hvisits hpos hn,
      (wf.largest_lastSlice hvisits hpos).1 _ ⟨q, t, n, hn, rfl⟩⟩ }

theorem slice_rescheduled {q : String} {s : Int} {m : Node}
    (hm : (c.skeleton.placeAll (moves.map Move.placed)).at? q s = some m) :
    m.timeslice = s ∧ 1 ≤ s ∧ s ≤ mark (c.skeleton.placeAll (moves.map Move.placed)).qubitMarks q := by
  obtain ⟨t, n, hn, rfl, rfl⟩ := h.moved.mp hm
  exact ⟨rfl, wf.one_le_slotIn hvisits hpos hn, (wf.largest_mark hvisits hpos q).1 _ ⟨t, n, hn, rfl⟩⟩

theorem measured_rescheduled {q : String} {s : Int} {m : Node}
    (hm : (c.skeleton.placeAll (moves.map Move.placed)).at? q s = some m) (hmeasured : m.measurement = true) :
    s ≤ (c.skeleton.placeAll (moves.map Move.placed)).lastMeasured ∧ m.partners = [] ∧ m.barrier = false ∧
      ∀ b ∈ m.bits, b ∈ (c.skeleton.placeAll (moves.map Move.placed)).bits := by
  have hbits : (c.skeleton.placeAll (moves.map Move.placed)).bits = c.bits := by
    rw [bits, h.classical, bits]
  obtain ⟨t, n, hn, rfl, rfl⟩ := h.moved.mp hm
  exact ⟨(wf.largest_lastMeasured hvisits hpos).1 _ ⟨q, t, n, hn, hmeasured, rfl⟩,
    hbits ▸ (wf.measured hn hmeasured).2⟩

theorem wellFormed_rescheduled : (c.skeleton.placeAll (moves.map Move.placed)).WellFormed := by
  have blank := wf.skeleton
  have hslices : ∀ x, (∃ q t n, c.at? q t = some n ∧ slotIn moves q t = x) → 1 ≤ x := by
    rintro _ ⟨q, t, n, hn, rfl⟩
    exact wf.one_le_slotIn hvisits hpos hn
  have hlast := wf.largest_lastSlice hvisits hpos
  have hmeasured := wf.largest_lastMeasured hvisits hpos
  have hmark := wf.largest_mark hvisits hpos
  exact
    { quantum_names := h.quantum ▸ wf.quantum_names
      classical_names := h.classical ▸ wf.classical_names
      tracks := fun q => by
        rw [placeAll_tracks (wf.tracks_placed hvisits), blank.wellFormed.tracks, qubits, qubits, placeAll_quantum]
      notes := fun b => by
        rw [placeAll_writes, blank.wellFormed.notes, bits, bits, placeAll_classical]
      mark_nonneg := fun q => (hmark q).nonneg fun x ⟨t, n, hn, hx⟩ => hslices x ⟨q, t, n, hn, hx⟩
      mark_le := fun q => (hmark q).mono hlast hslices fun _ ⟨t, n, hn, hx⟩ => ⟨q, t, n, hn, hx⟩
      measured_nonneg := hmeasured.nonneg fun x ⟨q, t, n, hn, _, hx⟩ => hslices x ⟨q, t, n, hn, hx⟩
      measured_le := hmeasured.mono hlast hslices fun _ ⟨q, t, n, hn, _, hx⟩ => ⟨q, t, n, hn, hx⟩
      slice := wf.slice_rescheduled hvisits h hpos
      measured := wf.measured_rescheduled hvisits h hpos
      controlled := h.controlled wf
      participants := h.participants wf
      target := h.target wf
      one_target := h.one_target wf }

end

/-- Either mode succeeds and moves the nodes; isolated scheduling keeps the
order of timeslices over all qubits. -/
theorem schedule_moves (comma : c.CommaFree) (mode : Mode) :
    ∃ moves : List Move, c.schedule ⟨true, mode.code⟩ = .ok (c.skeleton.placeAll (moves.map Move.placed)) ∧
      moves.map Move.visit = c.visits ∧ (∀ a ∈ moves, 1 ≤ a.slot) ∧
      c.Rescheduled (c.skeleton.placeAll (moves.map Move.placed)) (slotIn moves) ∧
      (mode = .isolated → ∀ a ∈ moves, ∀ b ∈ moves, a.visit.1 < b.visit.1 → a.slot < b.slot) := by
  cases mode with
  | packed =>
    obtain ⟨moves, memory, run, hvisits, hd⟩ := wf.reschedule_moves comma packed
    have inv := PackedSoFar.of_moves wf run
    exact ⟨moves, hd, hvisits, inv.one_le wf run, wf.rescheduled hvisits run inv.ordered inv.waits, nofun⟩
  | isolated =>
    obtain ⟨moves, memory, run, hvisits, hd⟩ := wf.reschedule_moves comma isolated
    have inv := IsolatedSoFar.of_moves wf run
    refine ⟨moves, hd, hvisits, fun a ha => (inv.bounds a ha).1, wf.rescheduled hvisits run ?_ ?_,
      fun _ => inv.ordered⟩
    · exact fun a ha b hb _ hlt => inv.ordered a ha b hb hlt
    · exact fun a ha b hb _ _ hlt => inv.ordered b hb a ha hlt

theorem schedule_spec (comma : c.CommaFree) (mode : Mode) :
    ∃ d slot, c.schedule ⟨true, mode.code⟩ = .ok d ∧ c.ScheduledAs d slot ∧
      (mode = .isolated → ∀ {q s m p t n}, c.at? q s = some m → c.at? p t = some n → s < t →
        slot q s < slot p t) := by
  obtain ⟨moves, hd, hvisits, hpos, h, hordered⟩ := wf.schedule_moves comma mode
  refine ⟨_, _, hd, wf.scheduledAs hvisits h hpos, ?_⟩
  intro hmode q s m p t n hm hn hlt
  obtain ⟨a, ha, hav, has⟩ := wf.exists_move hvisits hm
  obtain ⟨b, hb, hbv, hbs⟩ := wf.exists_move hvisits hn
  rw [← has, ← hbs]
  exact hordered hmode a ha b hb (by rw [hav, hbv]; exact hlt)

theorem schedule_wellFormed (comma : c.CommaFree) {mode : Mode} {d : Circuit}
    (hd : c.schedule ⟨true, mode.code⟩ = .ok d) : d.WellFormed := by
  obtain ⟨moves, hmoves, hvisits, hpos, h, -⟩ := wf.schedule_moves comma mode
  obtain rfl := Except.ok.inj (hmoves.symm.trans hd)
  exact wf.wellFormed_rescheduled hvisits h hpos

theorem schedule_ok (comma : c.CommaFree) (mode : Mode) :
    ∃ d slot, c.schedule ⟨true, mode.code⟩ = .ok d ∧ c.ScheduledAs d slot := by
  obtain ⟨d, slot, hd, h, -⟩ := wf.schedule_spec comma mode
  exact ⟨d, slot, hd, h⟩

end WellFormed

namespace ScheduledAs
variable {c d : Circuit} {slot : String → Int → Int} (h : c.ScheduledAs d slot)
include h

theorem qubits_eq : d.qubits = c.qubits := by rw [qubits, qubits, h.quantum]

theorem slot_of_only (wf : c.WellFormed) {q : String} {s t : Int} {kind : Node → Bool}
    (unmoved : ∀ n u, kind { n with timeslice := u } = kind n) (hd : (d.at? q s).any kind = true)
    (only : ∀ v ∈ c.visits, v.2.1 = q → kind v.2.2 = true → v.1 = t) : slot q t = s := by
  obtain ⟨m, hm, hkind⟩ := (Option.any_eq_true _ _).mp hd
  obtain ⟨u, n, hn, hslot, rfl⟩ := h.moved.mp hm
  rw [unmoved] at hkind
  rw [← only (u, q, n) (wf.mem_visits.mpr hn) rfl hkind]
  exact hslot

theorem mem_visits (wf : c.WellFormed) {w : Visit} :
    w ∈ d.visits ↔ ∃ v ∈ c.visits, Visit.moved slot v = w := by
  obtain ⟨s, q, m⟩ := w
  rw [Circuit.mem_visits, h.qubits_eq, h.moved]
  dsimp only
  constructor
  · rintro ⟨-, -, t, n, hn, rfl, rfl⟩
    exact ⟨(t, q, n), wf.mem_visits.mpr hn, rfl⟩
  · rintro ⟨v, hv, hw⟩
    have hn := wf.mem_visits.mp hv
    simp only [Visit.moved, Prod.mk.injEq] at hw
    obtain ⟨rfl, rfl, rfl⟩ := hw
    exact ⟨h.visited hn, wf.mem_qubits hn, v.1, v.2.2, hn, rfl, rfl⟩

theorem moved_inj (wf : c.WellFormed) {u v : Visit} (hu : u ∈ c.visits) (hv : v ∈ c.visits)
    (heq : u.moved slot = v.moved slot) : u = v := by
  have hnu := wf.mem_visits.mp hu
  have hnv := wf.mem_visits.mp hv
  simp only [Visit.moved, Prod.mk.injEq] at heq
  obtain ⟨hslot, hq, -⟩ := heq
  rw [← hq] at hnv hslot
  have ht : u.1 = v.1 := by
    rcases Int.lt_trichotomy u.1 v.1 with hlt | ht | hlt
    · have := h.ordered hnu hnv hlt
      omega
    · exact ht
    · have := h.ordered hnv hnu hlt
      omega
  rw [← ht, hnu] at hnv
  exact Prod.ext ht (Prod.ext hq (Option.some.inj hnv))

theorem visits_perm (wf : c.WellFormed) : d.visits.Perm (c.visits.map (Visit.moved slot)) := by
  have hnodup : d.visits.Nodup := nodup_visits (h.qubits_eq ▸ wf.nodup_qubits)
  have hmoved : (c.visits.map (Visit.moved slot)).Nodup :=
    wf.nodup_visits.map_on fun u hu v hv => h.moved_inj wf hu hv
  rw [List.perm_ext_iff_of_nodup hnodup hmoved]
  exact fun w => (h.mem_visits wf).trans List.mem_map.symm

end ScheduledAs
end Circuit
end Sequencer
