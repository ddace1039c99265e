import Sequencer.Proofs.Schedule.Rescheduled
import Sequencer.Schedule.Basic

/-!
# Isolated scheduling gives exclusive timeslices

`isolated_reschedules`: isolated scheduling keeps the order of timeslices over
all qubits, leaves a timeslice with an off-diagonal instance to that instance,
and uses every timeslice up to the last.

New timeslices are counted up, so whatever takes a new one comes after all
that was placed. The invariant says of the timeslice now shared by a source
timeslice that only nodes of it are there, and no off-diagonal ones.
-/

namespace Sequencer

/-- The three ways a timeslice is chosen: an off-diagonal instance takes a new
one, another joins the shared one if it may, and else takes a new one to share. -/
theorem isolated_choose {m m' : IsolatedMemory} {v : Visit} {slot : Int}
    (h : isolated.choose m v.2.1 v.1 v.2.2 = (slot, m')) :
    m'.measured = (if v.2.2.measurement then max m.measured slot else m.measured) ∧
      (Gate.isOffDiagonal v.2.2.gate = true ∧ slot = m.used + 1 ∧ m'.used = m.used + 1 ∧ m'.shared = m.shared ∨
        Gate.isOffDiagonal v.2.2.gate = false ∧ m.shared.get? v.1 = some slot ∧
          (v.2.2.isConditioned = true → m.measured < slot) ∧ m'.used = m.used ∧ m'.shared = m.shared ∨
        Gate.isOffDiagonal v.2.2.gate = false ∧
          (∀ s, m.shared.get? v.1 = some s → v.2.2.isConditioned = true ∧ s ≤ m.measured) ∧
          slot = m.used + 1 ∧ m'.used = m.used + 1 ∧ m'.shared = m.shared.insert v.1 (m.used + 1)) := by
  simp only [isolated, IsolatedMemory.slotFor] at h
  split at h
  · rename_i hoff
    obtain ⟨rfl, rfl⟩ := Prod.mk.inj h
    exact ⟨rfl, .inl ⟨hoff, rfl, rfl, rfl⟩⟩
  · rename_i hoff
    have hoff : Gate.isOffDiagonal v.2.2.gate = false := by simpa using hoff
    split at h
    · rename_i hjoin
      obtain ⟨rfl, rfl⟩ := Prod.mk.inj h
      obtain ⟨hshared, hlate⟩ := Option.filter_eq_some_iff.mp hjoin
      refine ⟨rfl, .inr (.inl ⟨hoff, hshared, fun hcond => ?_, rfl, rfl⟩)⟩
      simpa [hcond] using hlate
    · rename_i hsplit
      obtain ⟨rfl, rfl⟩ := Prod.mk.inj h
      refine ⟨rfl, .inr (.inr ⟨hoff, fun s hs => ?_, rfl, rfl, rfl⟩)⟩
      simpa [IsolatedMemory.sharedFor?, hs] using hsplit

structure IsolatedSoFar (moves : List Move) (m : IsolatedMemory) : Prop where
  used_nonneg : 0 ≤ m.used
  bounds : ∀ a ∈ moves, 1 ≤ a.slot ∧ a.slot ≤ m.used
  filled : ∀ x, 1 ≤ x → x ≤ m.used → ∃ a ∈ moves, a.slot = x
  ordered : ∀ a ∈ moves, ∀ b ∈ moves, a.visit.1 < b.visit.1 → a.slot < b.slot
  exclusive : ∀ a ∈ moves, ∀ b ∈ moves, Gate.isOffDiagonal a.visit.2.2.gate = true →
    a.slot = b.slot → a.visit.SameInstance b.visit
  occupied : ∀ {t slot}, m.shared.get? t = some slot → ∃ a ∈ moves, a.visit.1 = t ∧ a.slot = slot
  reserved : ∀ {t slot}, m.shared.get? t = some slot → ∀ a ∈ moves, a.slot = slot →
    a.visit.1 = t ∧ Gate.isOffDiagonal a.visit.2.2.gate = false

namespace IsolatedSoFar

theorem start : IsolatedSoFar [] isolated.start where
  used_nonneg := Int.le_refl 0
  bounds := by simp
  filled x hx hu := by
    simp only [isolated] at hu
    omega
  ordered := by simp
  exclusive := by simp
  occupied h := by simp [isolated, Assoc.get?, Assoc.find] at h
  reserved h := by simp [isolated, Assoc.get?, Assoc.find] at h

variable {moves : List Move} {m m' : IsolatedMemory} {v : Visit} {slot : Int}

theorem snoc (h : IsolatedSoFar moves m) (ahead : ∀ a ∈ moves, a.visit.Before v)
    (used : m.used ≤ m'.used) (bounds : 1 ≤ slot ∧ slot ≤ m'.used)
    (filled : ∀ x, m.used < x → x ≤ m'.used → x = slot)
    (ordered : ∀ a ∈ moves, a.visit.1 < v.1 → a.slot < slot)
    (exclusive : ∀ a ∈ moves, a.slot = slot → Gate.isOffDiagonal a.visit.2.2.gate = true ∨
      Gate.isOffDiagonal v.2.2.gate = true → a.visit.SameInstance v)
    (occupied : ∀ {t s}, m'.shared.get? t = some s → (t = v.1 ∧ s = slot) ∨ m.shared.get? t = some s)
    (reserved : ∀ {t s}, m'.shared.get? t = some s →
      (s = slot → t = v.1 ∧ Gate.isOffDiagonal v.2.2.gate = false) ∧
      ∀ a ∈ moves, a.slot = s → a.visit.1 = t ∧ Gate.isOffDiagonal a.visit.2.2.gate = false) :
    IsolatedSoFar (moves ++ [⟨v, slot⟩]) m' := by
  exact
    { used_nonneg := Int.le_trans h.used_nonneg used
      bounds := Move.forall_concat (fun a ha => ⟨(h.bounds a ha).1, Int.le_trans (h.bounds a ha).2 used⟩) bounds
      filled := by
        intro x hx hu
        by_cases hold : x ≤ m.used
        · obtain ⟨a, ha, hax⟩ := h.filled x hx hold
          exact ⟨a, List.mem_append_left _ ha, hax⟩
        · exact ⟨⟨v, slot⟩, by simp, (filled x (by omega) hu).symm⟩
      ordered := Move.forall_concat
        (fun a ha => Move.forall_concat (h.ordered a ha) (ordered a ha))
        (Move.forall_concat (fun b hb hlt => absurd hlt (Int.not_lt.mpr (ahead b hb).le))
          fun hlt => absurd hlt (Int.lt_irrefl _))
      exclusive := Move.forall_concat
        (fun a ha => Move.forall_concat (h.exclusive a ha) fun hoff heq => exclusive a ha heq (.inl hoff))
        (Move.forall_concat (fun b hb hoff heq => (exclusive b hb heq.symm (.inr hoff)).symm)
          fun _ _ => ⟨rfl, .refl _⟩)
      occupied := by
        intro t s hs
        rcases occupied hs with ⟨rfl, rfl⟩ | hold
        · exact ⟨⟨v, s⟩, by simp, rfl, rfl⟩
        · obtain ⟨a, ha, hat⟩ := h.occupied hold
          exact ⟨a, List.mem_append_left _ ha, hat⟩
      reserved := by
        intro t s hs
        refine Move.forall_concat (reserved hs).2 fun heq => ?_
        obtain ⟨ht, hoff⟩ := (reserved hs).1 heq.symm
        exact ⟨ht.symm, hoff⟩ }

theorem follow {c : Circuit} (wf : c.WellFormed) (h : IsolatedSoFar moves m) {first : Move}
    (hvisit : first.visit ∈ c.visits) (hv : v ∈ c.visits) (ahead : ∀ a ∈ moves, a.visit.Before v)
    (hfirst : first ∈ moves) (hsame : first.visit.SameInstance v) :
    IsolatedSoFar (moves ++ [⟨v, first.slot⟩]) m := by
  have hop := wf.sameOperation hvisit hv hsame
  have ht := hsame.1
  refine h.snoc ahead (Int.le_refl _) (h.bounds first hfirst) (fun x hx hu => by omega) ?_ ?_ .inr ?_
  · intro a ha hlt
    exact h.ordered a ha first hfirst (by omega)
  · intro a ha heq hoff
    rcases hoff with hoff | hoff
    · exact (h.exclusive a ha first hfirst hoff heq).trans hsame
    · exact (h.exclusive first hfirst a ha (hop.gate ▸ hoff) heq.symm).symm.trans hsame
  · intro t s hs
    refine ⟨fun heq => ?_, h.reserved hs⟩
    obtain ⟨htt, hoff⟩ := h.reserved hs first hfirst heq.symm
    exact ⟨by omega, hop.gate ▸ hoff⟩

theorem take_new (h : IsolatedSoFar moves m) (ahead : ∀ a ∈ moves, a.visit.Before v)
    (used : m'.used = m.used + 1)
    (shared : ∀ {t s}, m'.shared.get? t = some s →
      (t = v.1 ∧ s = m.used + 1 ∧ Gate.isOffDiagonal v.2.2.gate = false) ∨
        m.shared.get? t = some s) :
    IsolatedSoFar (moves ++ [⟨v, m.used + 1⟩]) m' := by
  have hpos := h.used_nonneg
  refine h.snoc ahead (by omega) (by omega) (fun x hx hu => by omega) ?_ ?_ ?_ ?_
  · intro a ha _
    have := (h.bounds a ha).2
    omega
  · intro a ha heq
    have := (h.bounds a ha).2
    omega
  · intro t s hs
    rcases shared hs with ⟨ht, hs, -⟩ | hold
    · exact .inl ⟨ht, hs⟩
    · exact .inr hold
  · intro t s hs
    rcases shared hs with ⟨ht, rfl, hoff⟩ | hold
    · refine ⟨fun _ => ⟨ht, hoff⟩, fun a ha heq => ?_⟩
      have := (h.bounds a ha).2
      omega
    · refine ⟨fun heq => ?_, h.reserved hold⟩
      obtain ⟨a, ha, -, has⟩ := h.occupied hold
      have := (h.bounds a ha).2
      omega

theorem join (h : IsolatedSoFar moves m) (ahead : ∀ a ∈ moves, a.visit.Before v)
    (hshared : m.shared.get? v.1 = some slot) (hoff : Gate.isOffDiagonal v.2.2.gate = false) :
    IsolatedSoFar (moves ++ [⟨v, slot⟩]) m := by
  obtain ⟨first, hfirst, ht, rfl⟩ := h.occupied hshared
  refine h.snoc ahead (Int.le_refl _) (h.bounds first hfirst) (fun x hx hu => by omega) ?_ ?_ .inr ?_
  · intro a ha hlt
    exact h.ordered a ha first hfirst (by omega)
  · intro a ha heq hor
    have hfree := (h.reserved hshared a ha heq).2
    simp [hfree, hoff] at hor
  · intro t s hs
    refine ⟨fun heq => ⟨?_, hoff⟩, h.reserved hs⟩
    have := (h.reserved hs first hfirst heq.symm).1
    omega

/-- The mark of the last measurement plays no part. -/
theorem congr (h : IsolatedSoFar moves m) (used : m'.used = m.used) (shared : m'.shared = m.shared) :
    IsolatedSoFar moves m' where
  used_nonneg := used ▸ h.used_nonneg
  bounds := used ▸ h.bounds
  filled := used ▸ h.filled
  ordered := h.ordered
  exclusive := h.exclusive
  occupied := shared ▸ h.occupied
  reserved := shared ▸ h.reserved

theorem choose (h : IsolatedSoFar moves m) (ahead : ∀ a ∈ moves, a.visit.Before v)
    (hchoose : isolated.choose m v.2.1 v.1 v.2.2 = (slot, m')) :
    IsolatedSoFar (moves ++ [⟨v, slot⟩]) m' := by
  rcases (isolated_choose hchoose).2 with ⟨-, rfl, used, shared⟩ | ⟨hoff, hjoin, -, used, shared⟩ |
    ⟨hoff, -, rfl, used, shared⟩
  · exact h.take_new ahead used fun hs => .inr (shared ▸ hs)
  · exact (h.join ahead hjoin hoff).congr used shared
  · refine h.take_new ahead used fun {t s} hs => ?_
    rw [shared, Assoc.get?_insert] at hs
    split at hs
    · cases hs
      exact .inl ⟨by omega, rfl, hoff⟩
    · exact .inr hs

theorem of_moves {c : Circuit} (wf : c.WellFormed) (run : isolated.Moves c moves m) :
    IsolatedSoFar moves m := by
  induction run with
  | start => exact start
  | follow run hv ahead hfirst hsame ih =>
    exact ih.follow wf (run.mem_visits hfirst) hv ahead hfirst hsame
  | choose _ _ ahead _ hchoose ih => exact ih.choose ahead hchoose

end IsolatedSoFar

/-- The circuit `d` is `c` with its nodes moved to the timeslices `slot`, where
timeslices keep their order over all qubits, an off-diagonal instance has its
timeslice for itself, and no timeslice up to the last is left out. -/
structure Circuit.IsolatedAs (c d : Circuit) (slot : String → Int → Int) : Prop
    extends c.Rescheduled d slot where
  sequential : ∀ {q s m p t n}, c.at? q s = some m → c.at? p t = some n → s < t →
    slot q s < slot p t
  exclusive : ∀ {q t n p s m}, c.at? q t = some n → Gate.isOffDiagonal n.gate = true →
    c.at? p s = some m → slot p s = slot q t → s = t ∧ p ∈ q :: n.partners
  filled : ∀ {x}, (∃ q t n, c.at? q t = some n ∧ slot q t = x) ↔ 1 ≤ x ∧ x ≤ d.lastSlice

/-- Isolated scheduling of a circuit under construction succeeds and isolates
its off-diagonal instances. -/
theorem isolated_reschedules (k : Construction) (comma : k.circuit.CommaFree) :
    ∃ d slot, k.circuit.schedule ⟨true, Mode.isolated.code⟩ = .ok d ∧
      k.circuit.IsolatedAs d slot := by
  have wf := k.wellFormed
  obtain ⟨moves, memory, run, hvisits, hd⟩ := wf.reschedule_moves comma isolated
  have inv := IsolatedSoFar.of_moves wf run
  have hbase := wf.rescheduled hvisits run (fun a ha b hb _ hlt => inv.ordered a ha b hb hlt)
    (fun a ha b hb _ _ hlt => inv.ordered b hb a ha hlt)
  obtain ⟨hmax, hlast⟩ := wf.largest_lastSlice hvisits fun a ha => (inv.bounds a ha).1
  refine ⟨_, slotIn moves, hd, { hbase with sequential := ?_, exclusive := ?_, filled := ?_ }⟩
  · intro q s m p t n hm hn hlt
    obtain ⟨a, ha, hav, has⟩ := wf.exists_move hvisits hm
    obtain ⟨b, hb, hbv, hbs⟩ := wf.exists_move hvisits hn
    rw [← has, ← hbs]
    exact inv.ordered a ha b hb (by rw [hav, hbv]; exact hlt)
  · intro q t n p s m hn hoff hm heq
    obtain ⟨a, ha, hav, has⟩ := wf.exists_move hvisits hn
    obtain ⟨b, hb, hbv, hbs⟩ := wf.exists_move hvisits hm
    obtain ⟨hts, hperm⟩ := inv.exclusive a ha b hb (by rw [hav]; exact hoff) (by omega)
    rw [hav, hbv] at hts hperm
    exact ⟨hts.symm, hperm.mem_iff.mpr List.mem_cons_self⟩
  · intro x
    have slot_iff {x : Int} : (∃ q t n, k.circuit.at? q t = some n ∧ slotIn moves q t = x) ↔
        1 ≤ x ∧ x ≤ memory.used := by
      constructor
      · rintro ⟨q, t, n, hn, rfl⟩
        obtain ⟨a, ha, -, has⟩ := wf.exists_move hvisits hn
        exact has ▸ inv.bounds a ha
      · rintro ⟨hpos, hle⟩
        obtain ⟨a, ha, rfl⟩ := inv.filled x hpos hle
        exact ⟨_, _, _, wf.mem_visits.mp (run.mem_visits ha), wf.slotIn_eq hvisits ha⟩
    refine ⟨fun hx => ⟨(slot_iff.mp hx).1, hmax x hx⟩, fun ⟨hpos, hle⟩ => slot_iff.mpr ⟨hpos, ?_⟩⟩
    rcases hlast with hlast | ⟨hzero, -⟩
    · exact Int.le_trans hle (slot_iff.mp hlast).2
    · omega

theorem isolated_reschedules_teleportation :
    ∃ d slot, Construction.teleportation.circuit.schedule ⟨true, Mode.isolated.code⟩ = .ok d ∧
      Construction.teleportation.circuit.IsolatedAs d slot :=
  isolated_reschedules .teleportation (by decide +kernel)

end Sequencer
