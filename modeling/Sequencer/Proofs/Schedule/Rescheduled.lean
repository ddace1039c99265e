import Sequencer.Proofs.Schedule.Moves

/-!
# Rescheduled circuits

What it means that one circuit is another with its nodes moved, and how that
follows from the moves of a strategy: nodes of one qubit must keep their
order, and conditioned nodes must stay behind the measurements before them.
That the nodes of an instance stay together holds for every strategy.
-/

namespace Sequencer

/-- `d` is `c` with every node moved to the timeslice that `slot` gives for its
qubit and its timeslice. -/
structure Circuit.Rescheduled (c d : Circuit) (slot : String → Int → Int) : Prop where
  quantum : d.quantum = c.quantum
  classical : d.classical = c.classical
  qubitIndex : ∀ q, d.qubitIndex q = c.qubitIndex q
  bitIndex : ∀ b, d.bitIndex b = c.bitIndex b
  moved : ∀ {q s m}, d.at? q s = some m ↔
    ∃ t n, c.at? q t = some n ∧ slot q t = s ∧ m = { n with timeslice := s }
  ordered : ∀ {q s t m n}, c.at? q s = some m → c.at? q t = some n → s < t → slot q s < slot q t
  together : ∀ {q t n p}, c.at? q t = some n → p ∈ n.partners →
    (c.at? p t).isSome ∧ slot p t = slot q t
  waits : ∀ {q t n p s m}, c.at? q t = some n → n.isConditioned = true →
    c.at? p s = some m → m.measurement = true → s < t → slot p s < slot q t

def slotIn (moves : List Move) (q : String) (t : Int) : Int :=
  ((moves.find? fun m => m.visit.2.1 = q ∧ m.visit.1 = t).map Move.slot).getD 0

-- ---------------------------------------------------------------------------
-- What every strategy keeps
-- ---------------------------------------------------------------------------

theorem Circuit.WellFormed.sameOperation {c : Circuit} (h : c.WellFormed) {a b : Visit}
    (ha : a ∈ c.visits) (hb : b ∈ c.visits) (hsame : a.SameInstance b) :
    b.2.2.SameOperation a.2.2 := by
  have hna := h.mem_visits.mp ha
  have hnb := h.mem_visits.mp hb
  have hmem : b.2.1 ∈ a.participants := hsame.2.mem_iff.mpr List.mem_cons_self
  rw [← hsame.1] at hnb
  rcases List.mem_cons.mp hmem with heq | hmem
  · rw [heq, hna] at hnb
    rw [Option.some.inj hnb]
    exact .refl _
  · obtain ⟨m, hm, hop, -⟩ := (h.participants hna).2 _ hmem
    rw [hnb] at hm
    rw [Option.some.inj hm]
    exact hop

namespace Strategy.Moves
variable {c : Circuit} {s : Strategy σ} {moves : List Move} {memory : σ}

theorem mem_visits (run : s.Moves c moves memory) {a : Move} (ha : a ∈ moves) :
    a.visit ∈ c.visits := by
  induction run with
  | start => cases ha
  | follow _ hv _ _ _ ih =>
    rcases List.mem_append.mp ha with ha | ha
    · exact ih ha
    · rw [List.mem_singleton.mp ha]
      exact hv
  | choose _ hv _ _ _ ih =>
    rcases List.mem_append.mp ha with ha | ha
    · exact ih ha
    · rw [List.mem_singleton.mp ha]
      exact hv

theorem slot_eq (run : s.Moves c moves memory) {a b : Move} (ha : a ∈ moves) (hb : b ∈ moves)
    (hsame : a.visit.SameInstance b.visit) : a.slot = b.slot := by
  induction run generalizing a b with
  | start => cases ha
  | @follow moves _ v first _ _ _ hfirst hinst ih =>
    have hlast {x : Move} (hx : x ∈ moves ++ [⟨v, first.slot⟩]) :
        ∃ y ∈ moves, y.visit.SameInstance x.visit ∧ y.slot = x.slot := by
      rcases List.mem_append.mp hx with hx | hx
      · exact ⟨x, hx, ⟨rfl, .refl _⟩, rfl⟩
      · rw [List.mem_singleton.mp hx]
        exact ⟨first, hfirst, hinst, rfl⟩
    obtain ⟨a', ha', hsa, hslota⟩ := hlast ha
    obtain ⟨b', hb', hsb, hslotb⟩ := hlast hb
    rw [← hslota, ← hslotb]
    exact ih ha' hb' ((hsa.trans hsame).trans hsb.symm)
  | choose _ _ _ hnew _ ih =>
    rcases List.mem_append.mp ha with ha | ha <;> rcases List.mem_append.mp hb with hb | hb
    · exact ih ha hb hsame
    · rw [List.mem_singleton.mp hb] at hsame
      exact absurd hsame (hnew a ha)
    · rw [List.mem_singleton.mp ha] at hsame
      exact absurd hsame.symm (hnew b hb)
    · rw [List.mem_singleton.mp ha, List.mem_singleton.mp hb]

end Strategy.Moves

-- ---------------------------------------------------------------------------
-- From moves to circuits
-- ---------------------------------------------------------------------------

namespace Circuit.WellFormed
variable {c : Circuit} (h : c.WellFormed) {moves : List Move}
  (hvisits : moves.map Move.visit = c.visits)
include h hvisits

theorem move_ext {a b : Move} (ha : a ∈ moves) (hb : b ∈ moves) (hq : a.visit.2.1 = b.visit.2.1)
    (ht : a.visit.1 = b.visit.1) : a = b := by
  have hnodup : (moves.map fun m => (m.visit.2.1, m.visit.1)).Nodup := by
    refine List.pairwise_map.mpr ((List.pairwise_map.mp (hvisits ▸ h.visits_ordered)).imp ?_)
    intro a b hab heq
    obtain ⟨hq, ht⟩ := Prod.mk.inj heq
    rcases hab with hlt | ⟨-, hne⟩
    · omega
    · exact hne hq
  exact List.inj_on_of_nodup_map hnodup ha hb (Prod.ext hq ht)

theorem slotIn_eq {m : Move} (hm : m ∈ moves) : slotIn moves m.visit.2.1 m.visit.1 = m.slot := by
  unfold slotIn
  cases hf : moves.find? fun a => a.visit.2.1 = m.visit.2.1 ∧ a.visit.1 = m.visit.1 with
  | none => exact absurd (List.find?_eq_none.mp hf m hm) (by simp)
  | some a =>
    have hp := List.find?_some hf
    simp only [decide_eq_true_eq] at hp
    rw [h.move_ext hvisits (List.mem_of_find?_eq_some hf) hm hp.1 hp.2]
    rfl

theorem exists_move {q : String} {t : Int} {n : Node} (hn : c.at? q t = some n) :
    ∃ m ∈ moves, m.visit = (t, q, n) ∧ m.slot = slotIn moves q t := by
  have hv : ((t, q, n) : Visit) ∈ c.visits := h.mem_visits.mpr hn
  rw [← hvisits] at hv
  obtain ⟨m, hm, hmv⟩ := List.mem_map.mp hv
  refine ⟨m, hm, hmv, ?_⟩
  rw [← h.slotIn_eq hvisits hm, hmv]

theorem one_le_slotIn (hpos : ∀ a ∈ moves, 1 ≤ a.slot) {q : String} {t : Int} {n : Node} (hn : c.at? q t = some n) :
    1 ≤ slotIn moves q t := by
  obtain ⟨a, ha, -, has⟩ := h.exists_move hvisits hn
  exact has ▸ hpos a ha

theorem tracks_placed : ∀ e ∈ moves.map Move.placed, c.skeleton.Tracks e.1 := by
  intro e he
  obtain ⟨m, hm, rfl⟩ := List.mem_map.mp he
  have hq : c.skeleton.qubits = c.qubits := by simp only [qubits, h.skeleton.quantum_eq]
  rw [h.skeleton.wellFormed.tracks, hq]
  exact h.mem_qubits (h.mem_visits.mp (hvisits ▸ List.mem_map_of_mem hm))

theorem apart_placed (ordered : ∀ a ∈ moves, ∀ b ∈ moves, a.visit.2.1 = b.visit.2.1 →
      a.visit.1 < b.visit.1 → a.slot < b.slot) :
    (moves.map Move.placed).Pairwise fun a b => a.1 = b.1 → a.2.timeslice ≠ b.2.timeslice := by
  refine List.pairwise_map.mpr ?_
  have hbefore := List.pairwise_map.mp (hvisits ▸ h.visits_ordered)
  refine hbefore.imp_of_mem fun {a b} ha hb hab hq heq => ?_
  rcases hab with hlt | ⟨-, hne⟩
  · have hslot : a.slot < b.slot := ordered a ha b hb hq hlt
    simp only [Move.placed] at heq
    omega
  · exact hne hq

/-- The moves of a strategy that keeps the order of each qubit, and keeps
conditioned nodes behind measurements, reschedule the circuit. -/
theorem rescheduled {s : Strategy σ} {memory : σ} (run : s.Moves c moves memory)
    (ordered : ∀ a ∈ moves, ∀ b ∈ moves, a.visit.2.1 = b.visit.2.1 → a.visit.1 < b.visit.1 →
      a.slot < b.slot)
    (waits : ∀ a ∈ moves, ∀ b ∈ moves, a.visit.2.2.isConditioned = true →
      b.visit.2.2.measurement = true → b.visit.1 < a.visit.1 → b.slot < a.slot) :
    c.Rescheduled (c.skeleton.placeAll (moves.map Move.placed)) (slotIn moves) := by
  have blank := h.skeleton
  have tracked : ∀ e ∈ moves.map Move.placed, c.skeleton.Tracks e.1 := h.tracks_placed hvisits
  have apart := h.apart_placed hvisits ordered
  have quantum : (c.skeleton.placeAll (moves.map Move.placed)).quantum = c.quantum :=
    placeAll_quantum.trans blank.quantum_eq
  have classical : (c.skeleton.placeAll (moves.map Move.placed)).classical = c.classical :=
    placeAll_classical.trans blank.classical_eq
  refine
    { quantum := quantum
      classical := classical
      qubitIndex := fun q => by rw [Circuit.qubitIndex, Circuit.qubits, quantum]; rfl
      bitIndex := fun b => by rw [Circuit.bitIndex, Circuit.bits, classical]; rfl
      moved := ?_
      ordered := ?_
      together := ?_
      waits := ?_ }
  · intro q s m
    rw [at?_placeAll tracked apart]
    simp only [blank.empty, reduceCtorEq, and_false, or_false, List.mem_map, Move.placed]
    constructor
    · rintro ⟨⟨a, ha, heq⟩, rfl⟩
      obtain ⟨rfl, rfl⟩ := Prod.mk.inj heq
      exact ⟨a.visit.1, a.visit.2.2, h.mem_visits.mp (hvisits ▸ List.mem_map_of_mem ha),
        h.slotIn_eq hvisits ha, rfl⟩
    · rintro ⟨t, n, hn, hslot, rfl⟩
      obtain ⟨a, ha, hav, has⟩ := h.exists_move hvisits hn
      exact ⟨⟨a, ha, by rw [hav, has, hslot]⟩, rfl⟩
  · intro q s t m n hm hn hst
    obtain ⟨a, ha, hav, has⟩ := h.exists_move hvisits hm
    obtain ⟨b, hb, hbv, hbs⟩ := h.exists_move hvisits hn
    rw [← has, ← hbs]
    exact ordered a ha b hb (by rw [hav, hbv]) (by rw [hav, hbv]; exact hst)
  · intro q t n p hn hp
    obtain ⟨m, hm, -, hperm⟩ := (h.participants hn).2 p hp
    obtain ⟨a, ha, hav, has⟩ := h.exists_move hvisits hm
    obtain ⟨b, hb, hbv, hbs⟩ := h.exists_move hvisits hn
    refine ⟨by simp [hm], ?_⟩
    rw [← has, ← hbs]
    refine run.slot_eq ha hb ?_
    rw [hav, hbv]
    exact ⟨rfl, hperm⟩
  · intro q t n p s m hn hcond hm hmeas hst
    obtain ⟨a, ha, hav, has⟩ := h.exists_move hvisits hn
    obtain ⟨b, hb, hbv, hbs⟩ := h.exists_move hvisits hm
    rw [← has, ← hbs]
    exact waits a ha b hb (by rw [hav]; exact hcond) (by rw [hbv]; exact hmeas)
      (by rw [hav, hbv]; exact hst)

theorem largest_lastSlice (hpos : ∀ a ∈ moves, 1 ≤ a.slot) :
    Largest (c.skeleton.placeAll (moves.map Move.placed)).lastSlice
      fun x => ∃ q t n, c.at? q t = some n ∧ slotIn moves q t = x := by
  rw [lastSlice_placeAll (h.tracks_placed hvisits), h.skeleton.lastSlice_eq]
  have hl := largest_foldl_max (l := (moves.map Move.placed).map fun e => e.2.timeslice) (by
    simpa [Move.placed] using hpos)
  convert hl using 2 with x
  simp only [List.map_map, List.mem_map, Function.comp, Move.placed]
  constructor
  · rintro ⟨q, t, n, hn, rfl⟩
    obtain ⟨a, ha, -, has⟩ := h.exists_move hvisits hn
    exact ⟨a, ha, has⟩
  · rintro ⟨a, ha, rfl⟩
    exact ⟨_, _, _, h.mem_visits.mp (hvisits ▸ List.mem_map_of_mem ha), h.slotIn_eq hvisits ha⟩

theorem largest_lastMeasured (hpos : ∀ a ∈ moves, 1 ≤ a.slot) :
    Largest (c.skeleton.placeAll (moves.map Move.placed)).lastMeasured
      fun x => ∃ q t n, c.at? q t = some n ∧ n.measurement = true ∧ slotIn moves q t = x := by
  rw [lastMeasured_placeAll (h.tracks_placed hvisits), h.skeleton.lastMeasured_eq]
  have hl := largest_foldl_max (l := ((moves.map Move.placed).filter fun e => e.2.measurement).map
    fun e => e.2.timeslice) (by
      simp only [List.mem_map, List.mem_filter, forall_exists_index, and_imp]
      rintro _ e a ha rfl - rfl
      exact hpos a ha)
  convert hl using 2 with x
  simp only [List.mem_map, List.mem_filter]
  constructor
  · rintro ⟨q, t, n, hn, hm, rfl⟩
    obtain ⟨a, ha, hav, has⟩ := h.exists_move hvisits hn
    exact ⟨a.placed, ⟨⟨a, ha, rfl⟩, by simp [Move.placed, hav, hm]⟩, has⟩
  · rintro ⟨_, ⟨⟨a, ha, rfl⟩, hm⟩, rfl⟩
    exact ⟨_, _, _, h.mem_visits.mp (hvisits ▸ List.mem_map_of_mem ha), hm, h.slotIn_eq hvisits ha⟩

theorem largest_mark (hpos : ∀ a ∈ moves, 1 ≤ a.slot) (q : String) :
    Largest (mark (c.skeleton.placeAll (moves.map Move.placed)).qubitMarks q)
      fun x => ∃ t n, c.at? q t = some n ∧ slotIn moves q t = x := by
  have hzero : mark c.skeleton.qubitMarks q = 0 := by
    have hle := h.skeleton.wellFormed.mark_le q
    rw [h.skeleton.lastSlice_eq] at hle
    exact Int.le_antisymm hle (h.skeleton.wellFormed.mark_nonneg q)
  rw [mark_placeAll (h.tracks_placed hvisits), hzero]
  refine (largest_foldl_max ?_).congr fun x => ?_
  · simp only [List.mem_map, List.mem_filter, forall_exists_index, and_imp]
    rintro _ e a ha rfl - rfl
    exact hpos a ha
  · simp only [List.mem_map, List.mem_filter]
    constructor
    · rintro ⟨_, ⟨⟨a, ha, rfl⟩, hq⟩, rfl⟩
      obtain rfl : a.visit.2.1 = q := of_decide_eq_true hq
      exact ⟨_, _, h.mem_visits.mp (hvisits ▸ List.mem_map_of_mem ha), h.slotIn_eq hvisits ha⟩
    · rintro ⟨t, n, hn, rfl⟩
      obtain ⟨a, ha, hav, has⟩ := h.exists_move hvisits hn
      exact ⟨a.placed, ⟨⟨a, ha, rfl⟩, by simp [Move.placed, hav]⟩, has⟩

end Circuit.WellFormed

-- ---------------------------------------------------------------------------
-- Operations in the new circuit
-- ---------------------------------------------------------------------------

namespace Circuit.Rescheduled
variable {c d : Circuit} {slot : String → Int → Int} (h : c.Rescheduled d slot)
include h

theorem slot_participant {q : String} {t : Int} {n : Node} {r : String} (hn : c.at? q t = some n)
    (hr : r ∈ q :: n.partners) : ∃ m, c.at? r t = some m ∧ slot r t = slot q t := by
  rcases List.mem_cons.mp hr with rfl | hr
  · exact ⟨n, hn, rfl⟩
  · obtain ⟨hsome, heq⟩ := h.together hn hr
    obtain ⟨m, hm⟩ := Option.isSome_iff_exists.mp hsome
    exact ⟨m, hm, heq⟩

theorem ordered_of_shared {q p r : String} {s t : Int} {m n : Node} (hm : c.at? q s = some m)
    (hn : c.at? p t = some n) (hlt : s < t) (hq : r ∈ q :: m.partners) (hp : r ∈ p :: n.partners) :
    slot q s < slot p t := by
  obtain ⟨m', hm', hslot⟩ := h.slot_participant hm hq
  obtain ⟨n', hn', hslot'⟩ := h.slot_participant hn hp
  rw [← hslot, ← hslot']
  exact h.ordered hm' hn' hlt

end Circuit.Rescheduled

end Sequencer
