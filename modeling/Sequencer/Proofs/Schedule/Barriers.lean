import Mathlib.Logic.Relation
import Sequencer.Proofs.Circuit.Calls
import Sequencer.Proofs.Schedule.Visiting

/-!
# Barriers under scheduling

A barrier puts a node on each of its qubits, all at one timeslice, and these
nodes are moved one by one. Isolated scheduling keeps the order of all
timeslices, so what is before a barrier stays before what is behind it. Packed
scheduling delays each qubit by itself. A node can then come to lie at or
before one that a barrier separates it from, if no chain of operations holds it
back and the barrier on its own qubit is ahead by that much.
-/

namespace Sequencer

namespace Circuit

/-- The operation at the first place keeps the one at the second behind it. -/
inductive HoldsBack (c : Circuit) : String × Int → String × Int → Prop where
  | shared : c.at? q s = some m → c.at? p t = some n → s < t → r ∈ q :: m.partners →
      r ∈ p :: n.partners → HoldsBack c (q, s) (p, t)
  | measured : c.at? q s = some m → c.at? p t = some n → s < t → m.measurement = true →
      n.isConditioned = true → HoldsBack c (q, s) (p, t)
  | offDiagonal : c.at? q s = some m → c.at? p t = some n → s < t →
      Gate.isOffDiagonal m.gate = true → Gate.isOffDiagonal n.gate = true →
      HoldsBack c (q, s) (p, t)

/-- One node before and one behind the timeslice `t`, both on qubits of the
list. -/
structure Across (c : Circuit) (qubits : List String) (t : Int) (q : String) (s : Int) (m : Node)
    (p : String) (u : Int) (n : Node) : Prop where
  first : c.at? q s = some m
  second : c.at? p u = some n
  first_mem : q ∈ qubits
  second_mem : p ∈ qubits
  before : s < t
  behind : t < u

/-- What the qubits do before `t` stays before what they do behind it. -/
def Separates (c : Circuit) (slot : String → Int → Int) (qubits : List String) (t : Int) : Prop :=
  ∀ {q s m p u n}, c.Across qubits t q s m p u n → slot q s < slot p u

/-- Nothing holds back the second node behind the first, and what its qubit
does at `t` is ahead of what the other does then by at least the distance of
the two. -/
structure Crosses (c : Circuit) (slot : String → Int → Int) (t : Int) (q : String) (s : Int)
    (p : String) (u : Int) : Prop where
  free : ¬ Relation.TransGen c.HoldsBack (q, s) (p, u)
  ahead : slot p t + (u - s) ≤ slot q t

/-- How packed scheduling delays the nodes: a qubit that is delayed does not
catch up, and off-diagonal gates keep their order. -/
structure DelayedAs (c : Circuit) (slot : String → Int → Int) : Prop where
  lagging : ∀ {q s m t n}, c.at? q s = some m → c.at? q t = some n → s < t →
    slot q s - s ≤ slot q t - t
  offDiagonal : ∀ {q s m p t n}, c.at? q s = some m → c.at? p t = some n → s < t →
    Gate.isOffDiagonal m.gate = true → Gate.isOffDiagonal n.gate = true → slot q s < slot p t

end Circuit

-- ---------------------------------------------------------------------------
-- Delays of packed scheduling
-- ---------------------------------------------------------------------------

theorem PackedSoFar.offDiagonal_ordered {c : Circuit} (wf : c.WellFormed) {moves : List Move}
    {m : PackedMemory} (run : packed.Moves c moves m) : ∀ a ∈ moves, ∀ b ∈ moves,
    Gate.isOffDiagonal a.visit.2.2.gate = true → Gate.isOffDiagonal b.visit.2.2.gate = true →
    a.visit.1 < b.visit.1 → a.slot < b.slot := by
  -- the last move comes behind all others, so only it can be the later one
  have split {moves : List Move} {v : Visit} {slot : Int} (ahead : ∀ a ∈ moves, a.visit.Before v)
      (ih : ∀ a ∈ moves, ∀ b ∈ moves, Gate.isOffDiagonal a.visit.2.2.gate = true →
        Gate.isOffDiagonal b.visit.2.2.gate = true → a.visit.1 < b.visit.1 → a.slot < b.slot)
      (last : ∀ a ∈ moves, Gate.isOffDiagonal a.visit.2.2.gate = true →
        Gate.isOffDiagonal v.2.2.gate = true → a.visit.1 < v.1 → a.slot < slot) :
      ∀ a ∈ moves ++ [⟨v, slot⟩], ∀ b ∈ moves ++ [⟨v, slot⟩],
        Gate.isOffDiagonal a.visit.2.2.gate = true → Gate.isOffDiagonal b.visit.2.2.gate = true →
        a.visit.1 < b.visit.1 → a.slot < b.slot := by
    intro a ha b hb hoffa hoffb hlt
    rcases List.mem_append.mp ha with ha | ha <;> rcases List.mem_append.mp hb with hb | hb
    · exact ih a ha b hb hoffa hoffb hlt
    · obtain rfl := List.mem_singleton.mp hb
      exact last a ha hoffa hoffb hlt
    · obtain rfl := List.mem_singleton.mp ha
      have hle := (ahead b hb).le
      simp only at hlt
      omega
    · rw [List.mem_singleton.mp ha, List.mem_singleton.mp hb] at hlt
      exact absurd hlt (Int.lt_irrefl _)
  induction run with
  | start => simp
  | follow run hv ahead hfirst hsame ih =>
    refine split ahead ih fun a ha hoffa hoffv hlt => ?_
    have hop := wf.sameOperation (run.mem_visits hfirst) hv hsame
    exact ih a ha _ hfirst hoffa (hop.gate ▸ hoffv) (hsame.1 ▸ hlt)
  | @choose moves m v slot m' run _ ahead _ hchoose ih =>
    refine split ahead ih fun a ha hoffa hoffv _ => ?_
    have hlast := (PackedSoFar.of_moves wf run).offDiagonal a ha hoffa
    have hdelay := (m.le_delayFor v.2.1 v.1 v.2.2).2.2.1 hoffv
    have hslot : v.1 + m.delayFor v.2.1 v.1 v.2.2 = slot := (Prod.mk.inj hchoose).1
    omega

namespace Circuit

theorem WellFormed.schedule_packed {c : Circuit} (wf : c.WellFormed) (comma : c.CommaFree) :
    ∃ d slot, c.schedule ⟨true, Mode.packed.code⟩ = .ok d ∧ c.ScheduledAs d slot ∧
      c.DelayedAs slot := by
  obtain ⟨moves, memory, run, hvisits, hd⟩ := wf.reschedule_moves comma packed
  have inv := PackedSoFar.of_moves wf run
  refine ⟨_, slotIn moves, hd,
    wf.scheduledAs hvisits (wf.rescheduled hvisits run inv.ordered inv.waits) (inv.one_le wf run), ?_, ?_⟩
  · intro q s m t n hm hn hlt
    obtain ⟨a, ha, hav, has⟩ := wf.exists_move hvisits hm
    obtain ⟨b, hb, hbv, hbs⟩ := wf.exists_move hvisits hn
    have hshift := inv.shifted b hb a ha
      (by rw [hav, hbv]; exact List.mem_cons_self) (by rw [hav, hbv]; exact hlt)
    rwa [has, hbs, hav, hbv] at hshift
  · intro q s m p t n hm hn hlt hoffm hoffn
    obtain ⟨a, ha, hav, has⟩ := wf.exists_move hvisits hm
    obtain ⟨b, hb, hbv, hbs⟩ := wf.exists_move hvisits hn
    rw [← has, ← hbs]
    exact PackedSoFar.offDiagonal_ordered wf run a ha b hb (by rw [hav]; exact hoffm)
      (by rw [hbv]; exact hoffn) (by rw [hav, hbv]; exact hlt)

-- ---------------------------------------------------------------------------
-- Across a barrier
-- ---------------------------------------------------------------------------

section
variable {c d : Circuit} {slot : String → Int → Int} (h : c.Rescheduled d slot)
  (delayed : c.DelayedAs slot)
include h delayed

theorem HoldsBack.lt {a b : String × Int} (hab : c.HoldsBack a b) : slot a.1 a.2 < slot b.1 b.2 := by
  cases hab with
  | shared hm hn hlt hq hp => exact h.ordered_of_shared hm hn hlt hq hp
  | measured hm hn hlt hmeas hcond => exact h.waits hn hcond hm hmeas hlt
  | offDiagonal hm hn hlt hoffm hoffn => exact delayed.offDiagonal hm hn hlt hoffm hoffn

theorem lt_of_chain {a b : String × Int} (hab : Relation.TransGen c.HoldsBack a b) :
    slot a.1 a.2 < slot b.1 b.2 := by
  induction hab with
  | single hab => exact hab.lt h delayed
  | tail _ hbc ih => exact Int.lt_trans ih (hbc.lt h delayed)

theorem Across.separated {qubits : List String} {t : Int} {q p : String} {s u : Int} {m n : Node}
    (across : c.Across qubits t q s m p u n) (nodes : ∀ r ∈ qubits, ∃ x, c.at? r t = some x) :
    slot q s < slot p u ∨ c.Crosses slot t q s p u := by
  refine Classical.or_iff_not_imp_left.mpr fun hnot => ⟨fun hchain => ?_, ?_⟩
  · exact hnot (lt_of_chain h delayed hchain)
  · obtain ⟨x, hx⟩ := nodes q across.first_mem
    obtain ⟨y, hy⟩ := nodes p across.second_mem
    have hfirst := delayed.lagging across.first hx across.before
    have hsecond := delayed.lagging hy across.second across.behind
    omega

end
end Circuit

theorem Construction.Performs.barrier_node {k : Construction} {i : Nat} {qubits : List String} {t : Int}
    (h : k.Performs i (.barrier qubits) t) {q : String} (hq : q ∈ qubits) :
    ∃ n, k.circuit.at? q t = some n ∧ n.barrier = true :=
  ⟨_, at?_circuit.mpr ⟨i, _, h, List.mem_map_of_mem hq⟩, rfl⟩

/-- A barrier still separates its qubits after isolated scheduling, and after
packed scheduling too, up to nodes that cross it. -/
theorem barrier_separates (k : Construction) (comma : k.circuit.CommaFree) (mode : Mode) :
    ∃ d slot, k.circuit.schedule ⟨true, mode.code⟩ = .ok d ∧ k.circuit.ScheduledAs d slot ∧
      ∀ {i qubits t}, k.Performs i (.barrier qubits) t →
        (∀ q ∈ qubits, ∃ n, k.circuit.at? q t = some n ∧ n.barrier = true) ∧
        (mode = .isolated → k.circuit.Separates slot qubits t) ∧
        ∀ {q s m p u n}, k.circuit.Across qubits t q s m p u n →
          slot q s < slot p u ∨ k.circuit.Crosses slot t q s p u := by
  cases mode with
  | packed =>
    obtain ⟨d, slot, hd, h, delayed⟩ := k.wellFormed.schedule_packed comma
    refine ⟨d, slot, hd, h, fun hk => ⟨fun q hq => hk.barrier_node hq, nofun, fun across => ?_⟩⟩
    refine across.separated h.toRescheduled delayed fun r hr => ?_
    obtain ⟨x, hx, -⟩ := hk.barrier_node hr
    exact ⟨x, hx⟩
  | isolated =>
    obtain ⟨d, slot, hd, h, ordered⟩ := k.wellFormed.schedule_spec comma .isolated
    have separates {qubits : List String} {t : Int} : k.circuit.Separates slot qubits t :=
      fun across => ordered rfl across.first across.second (Int.lt_trans across.before across.behind)
    exact ⟨d, slot, hd, h, fun hk =>
      ⟨fun q hq => hk.barrier_node hq, fun _ => separates, fun across => .inl (separates across)⟩⟩

-- ---------------------------------------------------------------------------
-- A barrier that is crossed
-- ---------------------------------------------------------------------------

/-- Three qubits with off-diagonal gates, a barrier on all of them, and one
more gate on the first. -/
def Construction.crossing : Construction where
  name := "crossing"
  steps := [
    .quantum ⟨"q", 3⟩,
    .call (.gate "h" "q[0]" [] none),
    .call (.gate "h" "q[1]" [] none),
    .call (.gate "h" "q[2]" [] none),
    .call (.barrier ["q[0]", "q[1]", "q[2]"]),
    .call (.gate "x" "q[0]" [] none)]
  quantum_fresh := by decide
  classical_fresh := by decide
  counted := by decide
  qubits_counted := by decide
  bits_counted := by decide

theorem Construction.performs_crossing :
    crossing.Performs 4 (.barrier ["q[0]", "q[1]", "q[2]"]) 2 where
  step := rfl
  valid := ⟨by decide +kernel, by decide, trivial⟩
  slot := by decide +kernel

theorem Construction.across_crossing :
    ∃ m n, crossing.circuit.Across ["q[0]", "q[1]", "q[2]"] 2 "q[2]" 1 m "q[0]" 3 n := by
  have hfirst : (crossing.circuit.at? "q[2]" 1).isSome = true := by decide +kernel
  have hsecond : (crossing.circuit.at? "q[0]" 3).isSome = true := by decide +kernel
  obtain ⟨m, hm⟩ := Option.isSome_iff_exists.mp hfirst
  obtain ⟨n, hn⟩ := Option.isSome_iff_exists.mp hsecond
  exact ⟨m, n, hm, hn, by decide, by decide, by decide, by decide⟩

theorem barrier_separates_crossing :
    ∃ d slot, Construction.crossing.circuit.schedule ⟨true, Mode.isolated.code⟩ = .ok d ∧
      Construction.crossing.circuit.ScheduledAs d slot ∧ slot "q[2]" 1 < slot "q[0]" 3 := by
  obtain ⟨d, slot, hd, h, hbarrier⟩ := barrier_separates .crossing (by decide +kernel) .isolated
  obtain ⟨-, separates, -⟩ := hbarrier Construction.performs_crossing
  obtain ⟨m, n, across⟩ := Construction.across_crossing
  exact ⟨d, slot, hd, h, separates rfl across⟩

/-- Packed scheduling does not keep every barrier: the gate behind it on the
first qubit shares a timeslice with the gate before it on the third. -/
theorem not_separates :
    ∃ d slot, Construction.crossing.circuit.schedule ⟨true, Mode.packed.code⟩ = .ok d ∧
      Construction.crossing.circuit.ScheduledAs d slot ∧
      Construction.crossing.Performs 4 (.barrier ["q[0]", "q[1]", "q[2]"]) 2 ∧
      slot "q[2]" 1 = 3 ∧ slot "q[0]" 3 = 3 ∧
      ¬ Construction.crossing.circuit.Separates slot ["q[0]", "q[1]", "q[2]"] 2 := by
  have wf := Construction.crossing.wellFormed
  have hafter : (Construction.crossing.circuit.schedule ⟨true, Mode.packed.code⟩).toOption.map
      (fun d => ((d.at? "q[2]" 3).any (fun n => n.gate = "h"),
        (d.at? "q[0]" 3).any (fun n => n.gate = "x"))) = some (true, true) := by
    decide +kernel
  obtain ⟨d, slot, hd, h⟩ := wf.schedule_ok (by decide +kernel) .packed
  simp only [hd, Except.toOption, Option.map_some, Option.some.injEq, Prod.mk.injEq] at hafter
  have hfirst := h.slot_of_only wf (fun _ _ => rfl) hafter.1 (t := 1) (by decide +kernel)
  have hsecond := h.slot_of_only wf (fun _ _ => rfl) hafter.2 (t := 3) (by decide +kernel)
  obtain ⟨m, n, across⟩ := Construction.across_crossing
  refine ⟨d, slot, hd, h, Construction.performs_crossing, hfirst, hsecond, fun separates => ?_⟩
  have hlt := separates across
  omega

end Sequencer
