import Sequencer.Instruction.Encoder
import Sequencer.Proofs.Circuit.Reloading
import Sequencer.Proofs.Schedule.Visiting

/-!
# Scheduling an isolated schedule again

Isolated scheduling leaves a circuit steady: no timeslice is empty, an
off-diagonal instance is alone, and a conditioned instance is met before every
measurement of its timeslice. The last is what splitting a timeslice achieves,
since what is moved away is met later than the measurement.

A steady circuit is scheduled to itself. Going through it, the timeslices in
use are those that were met, so a new one is the timeslice at hand, and no
conditioned node asks for another.
-/

namespace Sequencer

structure Circuit.Steady (c : Circuit) : Prop where
  filled : ∀ v ∈ c.visits, 1 < v.1 → ∃ w ∈ c.visits, w.1 = v.1 - 1
  alone : ∀ v ∈ c.visits, ∀ w ∈ c.visits, Gate.isOffDiagonal v.2.2.gate = true → v.1 = w.1 →
    Visit.SameInstance v w
  guarded : ∀ v ∈ c.visits, ∀ w ∈ c.visits, v.2.2.isConditioned = true → w.2.2.measurement = true →
    w.1 = v.1 → c.Precedes w v → ∃ u ∈ c.visits, Visit.SameInstance u v ∧ c.Precedes u w

-- ---------------------------------------------------------------------------
-- Moves in the order of visits
-- ---------------------------------------------------------------------------

def Circuit.MovedUpTo (c : Circuit) (moves : List Move) (v : Visit) : Prop :=
  ∀ w, (∃ a ∈ moves, a.visit = w) ↔ w ∈ c.visits ∧ c.Precedes w v

namespace Circuit.MovedUpTo
variable {c : Circuit} {moves : List Move} {v : Visit}

theorem of_front (wf : c.WellFormed) {slot : Int}
    (front : (moves ++ [Move.mk v slot]).map Move.visit <+: c.visits) : c.MovedUpTo moves v := by
  obtain ⟨rest, hrest⟩ := front
  have hvisits : moves.map Move.visit ++ v :: rest = c.visits := by simpa using hrest
  obtain ⟨-, hlater, hearlier⟩ := List.pairwise_append.mp (hvisits ▸ wf.visits_precede)
  intro w
  constructor
  · rintro ⟨a, ha, rfl⟩
    exact ⟨hvisits ▸ List.mem_append_left _ (List.mem_map_of_mem ha),
      hearlier _ (List.mem_map_of_mem ha) _ List.mem_cons_self⟩
  · rintro ⟨hw, hwv⟩
    rw [← hvisits] at hw
    rcases List.mem_append.mp hw with hw | hw
    · exact List.mem_map.mp hw
    · rcases List.mem_cons.mp hw with rfl | hw
      · exact absurd hwv (Precedes.irrefl _)
      · exact absurd hwv ((List.pairwise_cons.mp hlater).1 w hw).asymm

theorem precedes (h : c.MovedUpTo moves v) {a : Move} (ha : a ∈ moves) : c.Precedes a.visit v :=
  ((h a.visit).mp ⟨a, ha, rfl⟩).2

theorem exists_move (h : c.MovedUpTo moves v) {w : Visit} (hw : w ∈ c.visits) (hwv : c.Precedes w v) :
    ∃ a ∈ moves, a.visit = w :=
  (h w).mpr ⟨hw, hwv⟩

end Circuit.MovedUpTo

theorem front_of_snoc {c : Circuit} {moves : List Move} {a : Move}
    (front : (moves ++ [a]).map Move.visit <+: c.visits) : moves.map Move.visit <+: c.visits := by
  rw [List.map_append] at front
  exact (List.prefix_append _ _).trans front

-- ---------------------------------------------------------------------------
-- An isolated schedule is steady
-- ---------------------------------------------------------------------------

/-- Measurements go no further than the mark, and a conditioned instance is met
before the measurements it shares a timeslice with. -/
structure GuardedSoFar (c : Circuit) (moves : List Move) (m : IsolatedMemory) : Prop where
  marked : ∀ a ∈ moves, a.visit.2.2.measurement = true → a.slot ≤ m.measured
  guarded : ∀ a ∈ moves, ∀ b ∈ moves, a.visit.2.2.measurement = true → b.visit.2.2.isConditioned = true →
    a.slot = b.slot → c.Precedes a.visit b.visit →
    ∃ f ∈ moves, f.visit.SameInstance b.visit ∧ c.Precedes f.visit a.visit

namespace GuardedSoFar
variable {c : Circuit} {moves : List Move} {m m' : IsolatedMemory} {v : Visit} {slot : Int}

theorem snoc (h : GuardedSoFar c moves m) (upTo : c.MovedUpTo moves v) (measured : m.measured ≤ m'.measured)
    (marked : v.2.2.measurement = true → slot ≤ m'.measured)
    (guarded : ∀ a ∈ moves, a.visit.2.2.measurement = true → v.2.2.isConditioned = true → a.slot = slot →
      ∃ f ∈ moves, f.visit.SameInstance v ∧ c.Precedes f.visit a.visit) :
    GuardedSoFar c (moves ++ [⟨v, slot⟩]) m' := by
  constructor
  · intro a ha hm
    rcases List.mem_append.mp ha with ha | ha
    · exact Int.le_trans (h.marked a ha hm) measured
    · rw [List.mem_singleton.mp ha] at hm ⊢
      exact marked hm
  · intro a ha b hb hm hcond heq hab
    have lift (hf : ∃ f ∈ moves, f.visit.SameInstance b.visit ∧ c.Precedes f.visit a.visit) :
        ∃ f ∈ moves ++ [⟨v, slot⟩], f.visit.SameInstance b.visit ∧ c.Precedes f.visit a.visit := by
      obtain ⟨f, hf, hfb⟩ := hf
      exact ⟨f, List.mem_append_left _ hf, hfb⟩
    rcases List.mem_append.mp ha with ha | ha <;> rcases List.mem_append.mp hb with hb | hb
    · exact lift (h.guarded a ha b hb hm hcond heq hab)
    · obtain rfl := List.mem_singleton.mp hb
      exact lift (guarded a ha hm hcond heq)
    · obtain rfl := List.mem_singleton.mp ha
      exact absurd hab (upTo.precedes hb).asymm
    · obtain rfl := List.mem_singleton.mp ha
      obtain rfl := List.mem_singleton.mp hb
      exact absurd hab (Circuit.Precedes.irrefl _)

theorem follow (wf : c.WellFormed) (h : GuardedSoFar c moves m) (upTo : c.MovedUpTo moves v)
    (hv : v ∈ c.visits) {first : Move} (hfirst : first ∈ moves) (hsame : first.visit.SameInstance v) :
    GuardedSoFar c (moves ++ [⟨v, first.slot⟩]) m := by
  have hvisit := ((upTo first.visit).mp ⟨first, hfirst, rfl⟩).1
  have hop := wf.sameOperation hvisit hv hsame
  refine h.snoc upTo (Int.le_refl _) (fun hm => ?_) fun a ha hm hcond heq => ?_
  · exact h.marked first hfirst (hop.measurement ▸ hm)
  · have hcond : first.visit.2.2.isConditioned = true := by
      rwa [Node.isConditioned, ← hop.cond]
    rcases wf.precedes_total ((upTo a.visit).mp ⟨a, ha, rfl⟩).1 hvisit with hlt | hav | hlt
    · obtain ⟨f, hf, hff, hfa⟩ := h.guarded a ha first hfirst hm hcond heq hlt
      exact ⟨f, hf, hff.trans hsame, hfa⟩
    · -- a measurement is an instance of its own
      have hmulti := hsame.isMultiQubit (upTo.precedes hfirst).before
      rw [← hav] at hmulti hvisit
      have hpartners := (wf.measured (wf.mem_visits.mp hvisit) hm).2.1
      simp [Node.isMultiQubit, hpartners] at hmulti
    · exact ⟨first, hfirst, hsame, hlt⟩

theorem choose (h : GuardedSoFar c moves m) (inv : IsolatedSoFar moves m) (upTo : c.MovedUpTo moves v)
    (hchoose : isolated.choose m v.2.1 v.1 v.2.2 = (slot, m')) :
    GuardedSoFar c (moves ++ [⟨v, slot⟩]) m' := by
  obtain ⟨hmeasured, hcases⟩ := isolated_choose hchoose
  -- the chosen timeslice comes after the measurements before a conditioned node
  have later : ∀ a ∈ moves, a.visit.2.2.measurement = true → v.2.2.isConditioned = true → a.slot < slot := by
    intro a ha hm hcond
    have hmarked := h.marked a ha hm
    have hused := (inv.bounds a ha).2
    rcases hcases with ⟨-, rfl, -⟩ | ⟨-, -, hlate, -⟩ | ⟨-, -, rfl, -⟩
    · omega
    · exact Int.lt_of_le_of_lt hmarked (hlate hcond)
    · omega
  refine h.snoc upTo ?_ (fun hm => ?_) fun a ha hm hcond heq => ?_
  · rw [hmeasured]
    split <;> omega
  · rw [hmeasured, if_pos hm]
    omega
  · exact absurd heq (Int.ne_of_lt (later a ha hm hcond))

theorem of_moves (wf : c.WellFormed) (run : isolated.Moves c moves m)
    (front : moves.map Move.visit <+: c.visits) : GuardedSoFar c moves m := by
  induction run with
  | start => exact ⟨by simp, by simp⟩
  | follow _ hv _ hfirst hsame ih =>
    exact (ih (front_of_snoc front)).follow wf (.of_front wf front) hv hfirst hsame
  | choose run _ _ _ hchoose ih =>
    exact (ih (front_of_snoc front)).choose (.of_moves wf run) (.of_front wf front) hchoose

end GuardedSoFar

-- ---------------------------------------------------------------------------
-- A steady circuit stays as it is
-- ---------------------------------------------------------------------------

/-- Nothing was moved: a timeslice with other than off-diagonal nodes is shared,
and the mark is that of a measurement. -/
structure StillSoFar (moves : List Move) (m : IsolatedMemory) : Prop where
  still : ∀ a ∈ moves, a.slot = a.visit.1
  entered : ∀ a ∈ moves, Gate.isOffDiagonal a.visit.2.2.gate = false →
    (m.shared.get? a.visit.1).isSome = true
  measured : m.measured = 0 ∨ ∃ a ∈ moves, a.visit.2.2.measurement = true ∧ a.slot = m.measured

namespace StillSoFar
variable {c : Circuit} {moves : List Move} {m m' : IsolatedMemory} {v : Visit} {slot : Int}

theorem snoc (h : StillSoFar moves m) (still : slot = v.1)
    (shared : ∀ t, (m.shared.get? t).isSome = true → (m'.shared.get? t).isSome = true)
    (entered : Gate.isOffDiagonal v.2.2.gate = false → (m'.shared.get? v.1).isSome = true)
    (measured : m'.measured = m.measured ∨ v.2.2.measurement = true ∧ slot = m'.measured) :
    StillSoFar (moves ++ [⟨v, slot⟩]) m' := by
  refine ⟨?_, ?_, ?_⟩
  · simp only [List.forall_mem_append, List.forall_mem_singleton]
    exact ⟨h.still, still⟩
  · simp only [List.forall_mem_append, List.forall_mem_singleton]
    exact ⟨fun a ha hoff => shared _ (h.entered a ha hoff), entered⟩
  · rcases measured with heq | hnew
    · rw [heq]
      rcases h.measured with hzero | ⟨a, ha, hm⟩
      · exact .inl hzero
      · exact .inr ⟨a, List.mem_append_left _ ha, hm⟩
    · exact .inr ⟨⟨v, slot⟩, by simp, hnew⟩

theorem follow (wf : c.WellFormed) (h : StillSoFar moves m) {first : Move}
    (hvisit : first.visit ∈ c.visits) (hv : v ∈ c.visits) (hfirst : first ∈ moves)
    (hsame : first.visit.SameInstance v) : StillSoFar (moves ++ [⟨v, first.slot⟩]) m := by
  refine h.snoc ((h.still first hfirst).trans hsame.1) (fun _ ht => ht) (fun hoff => ?_) (.inl rfl)
  rw [← hsame.1]
  exact h.entered first hfirst ((wf.sameOperation hvisit hv hsame).gate ▸ hoff)

section
variable (wf : c.WellFormed) (steady : c.Steady) (h : StillSoFar moves m) (inv : IsolatedSoFar moves m)
  (upTo : c.MovedUpTo moves v) (hv : v ∈ c.visits)
include wf steady h inv upTo hv

theorem used_eq : m.used = v.1 - 1 ∨ m.used = v.1 ∧ ∃ a ∈ moves, a.visit.1 = v.1 := by
  have hpos := (wf.slice (wf.mem_visits.mp hv)).2.1
  have hused := inv.used_nonneg
  have hle : m.used ≤ v.1 := by
    by_cases hzero : m.used = 0
    · omega
    · obtain ⟨a, ha, has⟩ := inv.filled m.used (by omega) (Int.le_refl _)
      have := h.still a ha
      have := (upTo.precedes ha).before.le
      omega
  have hge : v.1 - 1 ≤ m.used := by
    by_cases hone : v.1 = 1
    · omega
    · obtain ⟨w, hw, hwv⟩ := steady.filled v hv (by omega)
      obtain ⟨a, ha, rfl⟩ := upTo.exists_move hw (.inl (by omega))
      have := h.still a ha
      have := (inv.bounds a ha).2
      omega
  by_cases heq : m.used = v.1
  · obtain ⟨a, ha, has⟩ := inv.filled v.1 hpos (by omega)
    exact .inr ⟨heq, a, ha, h.still a ha ▸ has⟩
  · exact .inl (by omega)

omit inv in
/-- In a steady circuit no conditioned instance is met after a measurement of
its timeslice. -/
theorem not_split (hnew : ∀ a ∈ moves, ¬ a.visit.SameInstance v) (hcond : v.2.2.isConditioned = true) :
    m.measured < v.1 := by
  have hpos := (wf.slice (wf.mem_visits.mp hv)).2.1
  by_contra hle
  rcases h.measured with hzero | ⟨a, ha, hm, hslot⟩
  · omega
  · have hav := upTo.precedes ha
    have ht : a.visit.1 = v.1 := by
      have := h.still a ha
      have := hav.before.le
      omega
    obtain ⟨u, hu, huv, hua⟩ :=
      steady.guarded v hv a.visit ((upTo a.visit).mp ⟨a, ha, rfl⟩).1 hcond hm ht hav
    have hearlier : c.Precedes u v := by
      unfold Circuit.Precedes at *
      omega
    obtain ⟨f, hf, rfl⟩ := upTo.exists_move hu hearlier
    exact hnew f hf huv

theorem choose_eq (hnew : ∀ a ∈ moves, ¬ a.visit.SameInstance v)
    (hchoose : isolated.choose m v.2.1 v.1 v.2.2 = (slot, m')) : slot = v.1 := by
  have hmem {a : Move} (ha : a ∈ moves) : a.visit ∈ c.visits := ((upTo a.visit).mp ⟨a, ha, rfl⟩).1
  rcases (isolated_choose hchoose).2 with ⟨hoff, rfl, -⟩ | ⟨-, hshared, -⟩ | ⟨hoff, hlate, rfl, -⟩
  · rcases used_eq wf steady h inv upTo hv with hused | ⟨-, a, ha, hat⟩
    · omega
    · exact absurd (steady.alone v hv a.visit (hmem ha) hoff hat.symm).symm (hnew a ha)
  · obtain ⟨a, ha, hat, rfl⟩ := inv.occupied hshared
    exact (h.still a ha).trans hat
  · rcases used_eq wf steady h inv upTo hv with hused | ⟨-, a, ha, hat⟩
    · omega
    · -- the timeslice is shared already, and the node may join it
      cases hoffa : Gate.isOffDiagonal a.visit.2.2.gate with
      | true => exact absurd (steady.alone a.visit (hmem ha) v hv hoffa hat) (hnew a ha)
      | false =>
        obtain ⟨s, hs⟩ := Option.isSome_iff_exists.mp (h.entered a ha hoffa)
        rw [hat] at hs
        obtain ⟨b, hb, hbt, rfl⟩ := inv.occupied hs
        obtain ⟨hcond, hle⟩ := hlate _ hs
        have := not_split wf steady h upTo hv hnew hcond
        have := h.still b hb
        omega

theorem choose (hnew : ∀ a ∈ moves, ¬ a.visit.SameInstance v)
    (hchoose : isolated.choose m v.2.1 v.1 v.2.2 = (slot, m')) :
    StillSoFar (moves ++ [⟨v, slot⟩]) m' := by
  have hslot := choose_eq wf steady h inv upTo hv hnew hchoose
  obtain ⟨hmeasured, hcases⟩ := isolated_choose hchoose
  refine h.snoc hslot (fun t ht => ?_) (fun hoff => ?_) ?_
  · rcases hcases with ⟨-, -, -, hshared⟩ | ⟨-, -, -, -, hshared⟩ | ⟨-, -, -, -, hshared⟩
    · rwa [hshared]
    · rwa [hshared]
    · rw [hshared, Assoc.get?_insert]
      split
      · rfl
      · exact ht
  · rcases hcases with ⟨hon, -⟩ | ⟨-, hjoin, -, -, hshared⟩ | ⟨-, -, -, -, hshared⟩
    · cases hoff.symm.trans hon
    · rw [hshared, hjoin]
      rfl
    · rw [hshared, Assoc.get?_insert, if_pos rfl]
      rfl
  · cases hm : v.2.2.measurement with
    | false => exact .inl (by simpa [hm] using hmeasured)
    | true =>
      rw [hm, if_pos rfl] at hmeasured
      by_cases hle : slot ≤ m.measured
      · exact .inl (by omega)
      · exact .inr ⟨rfl, by omega⟩

end

theorem of_moves (wf : c.WellFormed) (steady : c.Steady) (run : isolated.Moves c moves m)
    (front : moves.map Move.visit <+: c.visits) : StillSoFar moves m := by
  induction run with
  | start => exact ⟨by simp, by simp, .inl rfl⟩
  | follow run hv _ hfirst hsame ih =>
    exact (ih (front_of_snoc front)).follow wf (run.mem_visits hfirst) hv hfirst hsame
  | choose run hv _ hnew hchoose ih =>
    exact choose wf steady (ih (front_of_snoc front)) (.of_moves wf run) (.of_front wf front) hv hnew hchoose

end StillSoFar

-- ---------------------------------------------------------------------------
-- Circuits
-- ---------------------------------------------------------------------------

namespace Circuit

theorem Steady.reschedule {c : Circuit} (steady : c.Steady) (wf : c.WellFormed) (comma : c.CommaFree) :
    c.reschedule isolated = .ok (c.skeleton.placeAll (c.visits.map Prod.snd)) := by
  obtain ⟨moves, m, run, hvisits, hd⟩ := wf.reschedule_moves comma isolated
  have still := (StillSoFar.of_moves wf steady run (hvisits ▸ List.prefix_rfl)).still
  have hplaced : moves.map Move.placed = c.visits.map Prod.snd := by
    rw [← hvisits, List.map_map]
    refine List.map_congr_left fun a ha => ?_
    have hslice := (wf.slice (wf.mem_visits.mp (run.mem_visits ha))).1
    rw [Move.placed, still a ha, ← hslice]
    rfl
  rw [hd, hplaced]

structure IsolatedBy (c d : Circuit) (moves : List Move) (m : IsolatedMemory) : Prop where
  run : isolated.Moves c moves m
  visits : moves.map Move.visit = c.visits
  circuit : c.skeleton.placeAll (moves.map Move.placed) = d

theorem WellFormed.schedule_isolated {c : Circuit} (wf : c.WellFormed) (comma : c.CommaFree) :
    ∃ d moves m, c.schedule ⟨true, Mode.isolated.code⟩ = .ok d ∧ c.IsolatedBy d moves m := by
  obtain ⟨moves, m, run, hvisits, hd⟩ := wf.reschedule_moves comma isolated
  exact ⟨_, moves, m, hd, run, hvisits, rfl⟩

namespace IsolatedBy
variable {c d : Circuit} {moves : List Move} {m : IsolatedMemory} (h : c.IsolatedBy d moves m)
  (wf : c.WellFormed)
include h wf

theorem inv : IsolatedSoFar moves m := .of_moves wf h.run

theorem rescheduled : c.Rescheduled d (slotIn moves) := by
  obtain ⟨run, hvisits, rfl⟩ := h
  have inv := IsolatedSoFar.of_moves wf run
  exact wf.rescheduled hvisits run (fun a ha b hb _ hlt => inv.ordered a ha b hb hlt)
    (fun a ha b hb _ _ hlt => inv.ordered b hb a ha hlt)

theorem scheduledAs : c.ScheduledAs d (slotIn moves) := by
  have hmoved := h.rescheduled wf
  have inv := h.inv wf
  obtain ⟨-, hvisits, rfl⟩ := h
  exact wf.scheduledAs hvisits hmoved fun a ha => (inv.bounds a ha).1

theorem wellFormed : d.WellFormed := by
  have hmoved := h.rescheduled wf
  have inv := h.inv wf
  obtain ⟨-, hvisits, rfl⟩ := h
  exact wf.wellFormed_rescheduled hvisits hmoved fun a ha => (inv.bounds a ha).1

theorem visits_perm : d.visits.Perm (moves.map fun a => (a.slot, a.placed)) := by
  have hmoved : c.visits.map (Visit.moved (slotIn moves)) = moves.map fun a => (a.slot, a.placed) := by
    rw [← h.visits, List.map_map]
    refine List.map_congr_left fun a ha => ?_
    simp only [Function.comp, Visit.moved, wf.slotIn_eq h.visits ha, Move.placed]
  exact hmoved ▸ (h.scheduledAs wf).visits_perm wf

theorem mem_visits {w : Visit} : w ∈ d.visits ↔ ∃ a ∈ moves, (a.slot, a.placed) = w :=
  (h.visits_perm wf).mem_iff.trans List.mem_map

theorem skeleton_eq : d.skeleton = c.skeleton := by
  have hname : d.name = c.name := by rw [← h.circuit, placeAll_name, skeleton, name_ofRegisters]
  rw [skeleton, hname, (h.rescheduled wf).quantum, (h.rescheduled wf).classical, skeleton]

/-- Nodes that share a timeslice come from one, and keep their order in it. -/
theorem precedes_iff {a b : Move} (ha : a ∈ moves) (hb : b ∈ moves) (hslot : a.slot = b.slot) :
    d.Precedes (a.slot, a.placed) (b.slot, b.placed) ↔ c.Precedes a.visit b.visit := by
  have inv := h.inv wf
  have ht : a.visit.1 = b.visit.1 := by
    rcases Int.lt_trichotomy a.visit.1 b.visit.1 with hlt | heq | hlt
    · exact absurd hslot (Int.ne_of_lt (inv.ordered a ha b hb hlt))
    · exact heq
    · exact absurd hslot.symm (Int.ne_of_lt (inv.ordered b hb a ha hlt))
  have hposition (q : String) : d.position q = c.position q := by
    rw [position, position, (h.scheduledAs wf).qubits_eq]
  simp only [Precedes, Move.placed, hposition, hslot, ht, Int.lt_irrefl]

theorem steady : d.Steady := by
  have inv := h.inv wf
  have guarded := (GuardedSoFar.of_moves wf h.run (h.visits ▸ List.prefix_rfl)).guarded
  refine ⟨fun v hv hlt => ?_, fun v hv w hw hoff hvw => ?_, fun v hv w hw hcond hm hwv hprec => ?_⟩
  · obtain ⟨a, ha, rfl⟩ := (h.mem_visits wf).mp hv
    have hbounds := inv.bounds a ha
    dsimp only at hlt
    obtain ⟨b, hb, hslot⟩ := inv.filled (a.slot - 1) (by omega) (by omega)
    exact ⟨(b.slot, b.placed), (h.mem_visits wf).mpr ⟨b, hb, rfl⟩, hslot⟩
  · obtain ⟨a, ha, rfl⟩ := (h.mem_visits wf).mp hv
    obtain ⟨b, hb, rfl⟩ := (h.mem_visits wf).mp hw
    exact ⟨hvw, (inv.exclusive a ha b hb hoff hvw).2⟩
  · obtain ⟨a, ha, rfl⟩ := (h.mem_visits wf).mp hv
    obtain ⟨b, hb, rfl⟩ := (h.mem_visits wf).mp hw
    obtain ⟨f, hf, hfa, hfb⟩ :=
      guarded b hb a ha hm hcond hwv ((h.precedes_iff wf hb ha hwv).mp hprec)
    have hslot : f.slot = a.slot := h.run.slot_eq hf ha hfa
    exact ⟨(f.slot, f.placed), (h.mem_visits wf).mpr ⟨f, hf, rfl⟩, ⟨hslot, hfa.2⟩,
      (h.precedes_iff wf hf hb (hslot.trans hwv.symm)).mpr hfb⟩

theorem placed_perm : (moves.map Move.placed).Perm (d.visits.map Prod.snd) := by
  have hperm := ((h.visits_perm wf).map Prod.snd).symm
  rwa [List.map_map] at hperm

theorem notes_placed : ∀ e ∈ moves.map Move.placed, e.2.measurement = true → ∀ b ∈ e.2.bits,
    (c.skeleton.writes.get? b).isSome := by
  refine List.forall_mem_map.mpr fun a ha hm b hb => ?_
  have hn := wf.mem_visits.mp (h.run.mem_visits ha)
  rw [wf.skeleton.wellFormed.notes, bits, wf.skeleton.classical_eq]
  exact (wf.measured hn hm).2.2.2 b hb

theorem apart_placed :
    (moves.map Move.placed).Pairwise fun a b => a.1 = b.1 → a.2.timeslice ≠ b.2.timeslice :=
  wf.apart_placed h.visits fun a ha b hb _ hlt => (h.inv wf).ordered a ha b hb hlt

theorem filter_placed {p : String × Node → Bool} {t : Int} (hp : ∀ e, p e = true → e.2.timeslice = t) :
    (moves.map Move.placed).filter p = (d.visits.map Prod.snd).filter p := by
  have hmoves : (moves.map Move.placed).Pairwise fun x y => x.2.timeslice = y.2.timeslice →
      d.position x.1 < d.position y.1 := by
    have hvisits : moves.Pairwise fun a b => c.Precedes a.visit b.visit :=
      List.pairwise_map.mp (h.visits ▸ wf.visits_precede)
    refine List.pairwise_map.mpr (hvisits.imp_of_mem fun ha hb hab heq => ?_)
    rcases (h.precedes_iff wf ha hb heq).mpr hab with hlt | hlt
    · exact absurd heq (Int.ne_of_lt hlt)
    · exact hlt.2
  have hvisits : (d.visits.map Prod.snd).Pairwise fun x y => x.2.timeslice = y.2.timeslice →
      d.position x.1 < d.position y.1 := by
    have wfd := h.wellFormed wf
    refine List.pairwise_map.mpr (wfd.visits_precede.imp_of_mem fun {v w} hv hw hvw heq => ?_)
    have hslice := (wfd.slice (wfd.mem_visits.mp hv)).1
    have hslice' := (wfd.slice (wfd.mem_visits.mp hw)).1
    rcases hvw with hlt | hlt
    · omega
    · exact hlt.2
  have sorted {l : List (String × Node)} (hl : l.Pairwise fun x y => x.2.timeslice = y.2.timeslice →
      d.position x.1 < d.position y.1) :
      (l.filter p).Pairwise fun x y => d.position x.1 < d.position y.1 :=
    (hl.filter p).imp_of_mem fun hx hy hxy =>
      hxy ((hp _ (List.mem_filter.mp hx).2).trans (hp _ (List.mem_filter.mp hy).2).symm)
  refine List.Perm.eq_of_pairwise (fun x y _ _ hxy hyx => ?_) (sorted hmoves) (sorted hvisits)
    ((h.placed_perm wf).filter p)
  exact absurd hxy (Nat.lt_asymm hyx)

theorem placeAll_visits : d.skeleton.placeAll (d.visits.map Prod.snd) = d := by
  have blank := wf.skeleton
  have keyed : c.skeleton.Keyed := keyed_ofRegisters _ wf.quantum_names wf.classical_names
  rw [h.skeleton_eq wf, ← keyed.placeAll_perm blank.wellFormed.nodup_qubits blank.wellFormed.nodup_bits
    (h.placed_perm wf) (wf.tracks_placed h.visits) (h.notes_placed wf) (h.apart_placed wf)
    fun b t => h.filter_placed wf fun e he => (of_decide_eq_true he).2]
  exact h.circuit

theorem schedule_again (comma : c.CommaFree) : d.schedule ⟨true, Mode.isolated.code⟩ = .ok d := by
  have hcomma : d.CommaFree := by
    rw [CommaFree, (h.rescheduled wf).quantum]
    exact comma
  have hagain := (h.steady wf).reschedule (h.wellFormed wf) hcomma
  rw [h.placeAll_visits wf] at hagain
  exact hagain

-- ---------------------------------------------------------------------------
-- Documents
-- ---------------------------------------------------------------------------

theorem keyed : d.Keyed :=
  h.circuit ▸ (keyed_ofRegisters _ wf.quantum_names wf.classical_names).placeAll _

theorem bookkept : d.Bookkept := by
  have tracked := wf.tracks_placed h.visits
  rw [← h.circuit]
  refine (bookkept_skeleton wf).placeAll_of_free tracked (h.notes_placed wf) ?_ ?_
  · exact List.forall_mem_map.mpr fun a ha => ((h.inv wf).bounds a ha).1
  · intro q t n
    rw [at?_placeAll tracked (h.apart_placed wf)]
    simp [wf.skeleton.empty]

theorem lastSlice_le : d.lastSlice ≤ c.visits.length := by
  have inv := h.inv wf
  have hfilled : ((List.range m.used.toNat).map fun i : Nat => (i : Int) + 1) ⊆ moves.map Move.slot := by
    refine fun x hx => ?_
    obtain ⟨i, hi, rfl⟩ := List.mem_map.mp hx
    have hlt := List.mem_range.mp hi
    obtain ⟨a, ha, hslot⟩ := inv.filled (i + 1) (by omega) (by omega)
    exact List.mem_map.mpr ⟨a, ha, hslot⟩
  have hnodup : ((List.range m.used.toNat).map fun i : Nat => (i : Int) + 1).Nodup :=
    List.nodup_range.map fun i j hij => by omega
  have hlength := (List.subperm_of_subset hnodup hfilled).length_le
  have hmoves := congrArg List.length h.visits
  simp only [List.length_map, List.length_range] at hlength hmoves
  have hlast : d.lastSlice ≤ m.used := by
    rw [← h.circuit, lastSlice_placeAll (wf.tracks_placed h.visits), wf.skeleton.lastSlice_eq]
    refine foldl_max_le inv.used_nonneg fun x hx => ?_
    obtain ⟨e, he, rfl⟩ := List.mem_map.mp hx
    obtain ⟨a, ha, rfl⟩ := List.mem_map.mp he
    exact (inv.bounds a ha).2
  omega

theorem representable (rep : c.Representable) : d.Representable where
  quantum := (h.rescheduled wf).quantum ▸ rep.quantum
  classical := (h.rescheduled wf).classical ▸ rep.classical
  conditions v hv := by
    obtain ⟨a, ha, rfl⟩ := (h.mem_visits wf).mp hv
    exact rep.conditions a.visit (h.run.mem_visits ha)

theorem load_text (doc : d.Documentable) : ∃ text, d.documentText = .ok text ∧ Circuit.load text = .ok d := by
  obtain ⟨j, hj, written, hdraft⟩ := Circuit.toJson_spec doc
  refine ⟨j.indented 0 ++ "\n", ?_, ?_⟩
  · rw [documentText, hj]
    rfl
  · rw [load, written.read?_text (by decide)]
    simp only [hdraft]
    exact (h.wellFormed wf).toCircuit_draft (h.keyed wf) (h.bookkept wf) doc

end IsolatedBy
end Circuit

/-- Isolated scheduling of an isolated schedule gives it back in every field. If
the schedule can be written down, compiling its document in the same mode gives
the program of the schedule. -/
theorem schedule_isolated_idempotent (k : Construction) (comma : k.circuit.CommaFree) :
    ∃ d, k.circuit.schedule ⟨true, Mode.isolated.code⟩ = .ok d ∧
      d.schedule ⟨true, Mode.isolated.code⟩ = .ok d ∧
      (k.circuit.Representable → (∀ v ∈ k.circuit.visits, ∀ x ∈ v.2.2.params, Faithful x) →
        k.circuit.visits.length < Integer.bound →
        ∃ text loaded, d.documentText = .ok text ∧ Circuit.load text = .ok loaded ∧
          (loaded.schedule ⟨true, Mode.isolated.code⟩).map Circuit.encode = .ok d.encode) := by
  have wf := k.wellFormed
  obtain ⟨d, moves, m, hd, h⟩ := wf.schedule_isolated comma
  have again := h.schedule_again wf comma
  refine ⟨d, hd, again, fun rep params counted => ?_⟩
  have hparams : ∀ v ∈ d.visits, ∀ x ∈ v.2.2.params, Faithful x := by
    intro v hv
    obtain ⟨a, ha, rfl⟩ := (h.mem_visits wf).mp hv
    exact params a.visit (h.run.mem_visits ha)
  have hlast := h.lastSlice_le wf
  have hqubits : d.numQubits < Integer.bound := by
    rw [Circuit.numQubits, (h.scheduledAs wf).qubits_eq]
    exact k.numQubits_lt
  have hbits : d.bits.length < Integer.bound := by
    rw [Circuit.bits, (h.rescheduled wf).classical]
    exact k.bits_length_lt
  obtain ⟨text, htext, hload⟩ := h.load_text wf ((h.wellFormed wf).documentable (h.keyed wf) (h.bookkept wf)
    (h.representable wf rep) hparams (by omega) hqubits hbits)
  exact ⟨text, d, htext, hload, by rw [again]; rfl⟩

/-- A conditioned rotation spans a measured qubit, and a conditioned gate comes
after the measurement, all at one timeslice. -/
def Construction.spanning : Construction where
  name := "spanning"
  steps := [
    .quantum ⟨"q", 4⟩, .classical ⟨"c", 1⟩,
    .call (.controlled "crx" ["q[0]"] "q[2]" [0.25] (some ⟨"c[0]", 1, .bit⟩)),
    .call (.gate "x" "q[3]" [] (some ⟨"c", 1, .register⟩)),
    .call (.measure ["q[1]"] ["c[0]"] none),
    .call (.gate "h" "q[1]" [] none),
    .call (.gate "h" "q[0]" [] none)]
  quantum_fresh := by decide
  classical_fresh := by decide
  counted := by decide
  qubits_counted := by decide
  bits_counted := by decide

theorem schedule_isolated_idempotent_spanning :
    ∃ d text loaded, Construction.spanning.circuit.schedule ⟨true, Mode.isolated.code⟩ = .ok d ∧
      d.schedule ⟨true, Mode.isolated.code⟩ = .ok d ∧ d.documentText = .ok text ∧
      Circuit.load text = .ok loaded ∧
      (loaded.schedule ⟨true, Mode.isolated.code⟩).map Circuit.encode = .ok d.encode := by
  obtain ⟨d, hd, again, hdocument⟩ := schedule_isolated_idempotent .spanning (by decide +kernel)
  have rep : Construction.spanning.circuit.Representable :=
    ⟨by decide +kernel, by decide +kernel, by decide +kernel⟩
  obtain ⟨text, loaded, htext, hloaded, hprogram⟩ := hdocument rep (by decide +kernel) (by decide +kernel)
  exact ⟨d, text, loaded, hd, again, htext, hloaded, hprogram⟩

end Sequencer
