import Sequencer.Proofs.Schedule.Visiting

/-!
# Accesses to classical bits under scheduling

A measurement writes the bit it measures into, and a conditioned node reads the
bits that its condition tests. Scheduling keeps a read behind the writes before
it. What it does not track is a write behind earlier accesses: packed
scheduling delays each qubit by itself, so a measurement can overtake a read or
a write of its bit on a qubit that is delayed more. Isolated scheduling keeps
the order of all timeslices, and with it that of all accesses.
-/

namespace Sequencer

namespace Circuit

/-- The condition tests the bit: the one it names, or any bit of its register. -/
def Tests (c : Circuit) (k : Condition) (b : String) : Prop :=
  if k.kind = .register then b ∈ Register.elements ⟨k.register, c.classicalSize k.register⟩
  else k.register = b

def ReadsFrom (c : Circuit) (n : Node) (b : String) : Prop := ∃ k, n.cond = some k ∧ c.Tests k b

/-- The first node comes in an earlier timeslice than the second, both use the
bit, and not both only read it. -/
structure Conflict (c : Circuit) (b : String) (q : String) (s : Int) (m : Node) (p : String)
    (t : Int) (n : Node) : Prop where
  first : c.at? q s = some m
  second : c.at? p t = some n
  before : s < t
  first_access : m.WritesTo b ∨ c.ReadsFrom m b
  second_access : n.WritesTo b ∨ c.ReadsFrom n b
  write : m.WritesTo b ∨ n.WritesTo b

theorem ReadsFrom.isConditioned {c : Circuit} {n : Node} {b : String} (h : c.ReadsFrom n b) :
    n.isConditioned = true := by
  obtain ⟨k, hk, -⟩ := h
  simp [Node.isConditioned, hk]

/-- Accesses to one bit keep their order, unless they both read. -/
def AccessesOrdered (c : Circuit) (slot : String → Int → Int) : Prop :=
  ∀ {b q s m p t n}, c.Conflict b q s m p t n → slot q s < slot p t

/-- The second node is a write that nothing holds back behind the first: they
share no qubit, it does not wait for the first as for a measurement, and the
first is delayed more. -/
structure WriteOvertakes (slot : String → Int → Int) (b : String) (q : String) (s : Int) (m : Node)
    (p : String) (t : Int) (n : Node) : Prop where
  writes : n.WritesTo b
  apart : ∀ r ∈ q :: m.partners, r ∉ p :: n.partners
  unguarded : m.measurement = true → n.isConditioned = false
  delayed : slot p t - t < slot q s - s

namespace Rescheduled
variable {c d : Circuit} {slot : String → Int → Int} (h : c.Rescheduled d slot)
include h

theorem conflict_kept {b q s m p t n} (hc : c.Conflict b q s m p t n) :
    slot q s < slot p t ∨ WriteOvertakes slot b q s m p t n := by
  by_cases hkept : slot q s < slot p t
  · exact .inl hkept
  refine .inr ⟨?_, fun r hq hp => ?_, fun hmeas => ?_, ?_⟩
  · -- a second access that only reads waits for the write before it
    refine Classical.byContradiction fun hwrites => ?_
    have hcond := (hc.second_access.resolve_left hwrites).isConditioned
    exact hkept (h.waits hc.second hcond hc.first (hc.write.resolve_right hwrites).1 hc.before)
  · exact hkept (h.ordered_of_shared hc.first hc.second hc.before hq hp)
  · refine Bool.eq_false_iff.mpr fun hcond => ?_
    exact hkept (h.waits hc.second hcond hc.first hmeas hc.before)
  · have := hc.before
    omega

end Rescheduled
end Circuit

/-- Scheduling keeps the order of accesses to a bit, of which one is a write.
Only packed scheduling has exceptions, and they are writes that overtake. -/
theorem accesses_kept (k : Construction) (comma : k.circuit.CommaFree) (mode : Mode) :
    ∃ d slot, k.circuit.schedule ⟨true, mode.code⟩ = .ok d ∧ k.circuit.ScheduledAs d slot ∧
      (mode = .isolated → k.circuit.AccessesOrdered slot) ∧
      ∀ {b q s m p t n}, k.circuit.Conflict b q s m p t n →
        slot q s < slot p t ∨ Circuit.WriteOvertakes slot b q s m p t n := by
  obtain ⟨d, slot, hd, h, hseq⟩ := k.wellFormed.schedule_spec comma mode
  refine ⟨d, slot, hd, h, fun hmode {_ _ _ _ _ _ _} hc => ?_, fun hc => h.conflict_kept hc⟩
  exact hseq hmode hc.first hc.second hc.before

theorem Circuit.ScheduledAs.slot_measured {c d : Circuit} {slot : String → Int → Int}
    (h : c.ScheduledAs d slot) (wf : c.WellFormed) {q : String} {s t : Int}
    (hd : (d.at? q s).any Node.measurement = true)
    (only : ∀ v ∈ c.visits, v.2.1 = q → v.2.2.measurement = true → v.1 = t) : slot q t = s :=
  h.slot_of_only wf (fun _ _ => rfl) hd only

/-- Two qubits are measured into one bit, the first of them behind gates that
packed scheduling puts one after the other. -/
def Construction.overwritten : Construction where
  name := "overwritten"
  steps := [
    .quantum ⟨"q", 4⟩, .classical ⟨"c", 1⟩,
    .call (.gate "h" "q[0]" [] none),
    .call (.gate "h" "q[1]" [] none),
    .call (.gate "h" "q[2]" [] none),
    .call (.measure ["q[2]"] ["c[0]"] none),
    .call (.gate "x" "q[3]" [] none),
    .call (.gate "x" "q[3]" [] none),
    .call (.measure ["q[3]"] ["c[0]"] none)]
  quantum_fresh := by decide
  classical_fresh := by decide
  counted := by decide
  qubits_counted := by decide
  bits_counted := by decide

theorem Construction.conflict_overwritten :
    ∃ m n, overwritten.circuit.Conflict "c[0]" "q[2]" 2 m "q[3]" 3 n := by
  have hfirst : (overwritten.circuit.at? "q[2]" 2).any (fun n => n.WritesTo "c[0]") = true := by
    decide +kernel
  have hsecond : (overwritten.circuit.at? "q[3]" 3).any (fun n => n.WritesTo "c[0]") = true := by
    decide +kernel
  obtain ⟨m, hm, hwm⟩ := (Option.any_eq_true _ _).mp hfirst
  obtain ⟨n, hn, hwn⟩ := (Option.any_eq_true _ _).mp hsecond
  have hwm := of_decide_eq_true hwm
  exact ⟨m, n, hm, hn, by decide, .inl hwm, .inl (of_decide_eq_true hwn), .inl hwm⟩

theorem accesses_kept_overwritten :
    ∃ d slot, Construction.overwritten.circuit.schedule ⟨true, Mode.isolated.code⟩ = .ok d ∧
      Construction.overwritten.circuit.ScheduledAs d slot ∧ slot "q[2]" 2 < slot "q[3]" 3 := by
  obtain ⟨d, slot, hd, h, hordered, -⟩ := accesses_kept .overwritten (by decide +kernel) .isolated
  obtain ⟨m, n, hconflict⟩ := Construction.conflict_overwritten
  exact ⟨d, slot, hd, h, hordered rfl hconflict⟩

/-- Packed scheduling does not keep the order of all accesses: the qubit that is
measured last into the bit is written first. -/
theorem not_accessesOrdered :
    ∃ d slot, Construction.overwritten.circuit.schedule ⟨true, Mode.packed.code⟩ = .ok d ∧
      Construction.overwritten.circuit.ScheduledAs d slot ∧
      (d.bitWrites "c[0]").entries = [(3, "q[3]"), (4, "q[2]")] ∧
      ¬ Construction.overwritten.circuit.AccessesOrdered slot := by
  have wf := Construction.overwritten.wellFormed
  have hafter : (Construction.overwritten.circuit.schedule ⟨true, Mode.packed.code⟩).toOption.map
      (fun d => ((d.at? "q[2]" 4).any Node.measurement, (d.at? "q[3]" 3).any Node.measurement,
        (d.bitWrites "c[0]").entries)) = some (true, true, [(3, "q[3]"), (4, "q[2]")]) := by
    decide +kernel
  obtain ⟨d, slot, hd, h⟩ := wf.schedule_ok (by decide +kernel) .packed
  simp only [hd, Except.toOption, Option.map_some, Option.some.injEq, Prod.mk.injEq] at hafter
  obtain ⟨hfirst, hsecond, hnotes⟩ := hafter
  have hslot := h.slot_measured wf hfirst (t := 2) (by decide +kernel)
  have hslot' := h.slot_measured wf hsecond (t := 3) (by decide +kernel)
  obtain ⟨m, n, hconflict⟩ := Construction.conflict_overwritten
  refine ⟨d, slot, hd, h, hnotes, fun hordered => ?_⟩
  have hlt := hordered hconflict
  omega

end Sequencer
