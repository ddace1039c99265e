import Mathlib.Data.List.Find
import Sequencer.Proofs.Circuit.Calls
import Sequencer.Proofs.Schedule.BitAccesses

/-!
# Classical bits in program order

A call reads the bits that its condition tests and, if it measures, writes the
bits it measures into. A read goes behind all writes that were called before
it. A write waits for its qubits only, so it can go to the timeslice of an
earlier access to its bit or before it. Of several qubits that are measured
into a bit at one timeslice, the bit keeps the last.
-/

namespace Sequencer

namespace BuildCall

def writes : BuildCall → List (String × String)
  | .measure qubits bits _ => qubits.zip bits
  | _ => []

def WritesTo (call : BuildCall) (b : String) : Prop := ∃ q, (q, b) ∈ call.writes

def writer? (call : BuildCall) (b : String) : Option String :=
  (call.writes.reverse.find? fun e => e.2 = b).map Prod.fst

def ReadsFrom (c : Circuit) (call : BuildCall) (b : String) : Prop :=
  ∃ k, call.cond = some k ∧ c.Tests k b

theorem WritesTo.measures {call : BuildCall} {b : String} (h : call.WritesTo b) : call.measured ≠ [] := by
  obtain ⟨q, hq⟩ := h
  cases call with
  | measure qubits bits cond => exact List.ne_nil_of_mem (List.of_mem_zip hq).1
  | _ => simp [writes] at hq

theorem find?_nodes (call : BuildCall) (b : String) (t : Int) :
    ((call.nodes t).reverse.find? fun e => e.2.WritesTo b).map Prod.fst = call.writer? b := by
  have unwritten (hm : call.measured = []) :
      ((call.nodes t).reverse.find? fun e => e.2.WritesTo b) = none := by
    refine List.find?_eq_none.mpr fun e he => ?_
    have hmeasured := measurement_of_mem_nodes (List.mem_reverse.mp he)
    simp [Node.WritesTo, hmeasured, hm]
  cases call with
  | measure qubits bits cond =>
    rw [nodes, ← List.map_reverse, List.find?_map, Option.map_map, writer?, writes]
    have hbit (e : String × String) : b = e.2 ↔ e.2 = b := eq_comm
    simp only [Function.comp_def, Node.WritesTo, List.mem_singleton, true_and, hbit]
  | gate | controlled | reset | barrier | named =>
    rw [unwritten rfl]
    rfl

end BuildCall

namespace Construction
variable {k : Construction} {i j : Nat}

-- ---------------------------------------------------------------------------
-- Notes
-- ---------------------------------------------------------------------------

/-- The qubit was measured into the bit at `t`, and no other since, in the first
`n` steps. -/
def LastInto (k : Construction) (n : Nat) (b : String) (t : Int) (q : String) : Prop :=
  ∃ i < n, ∃ call, k.Performs i call t ∧ call.writer? b = some q ∧
    ∀ j, i < j → j < n → ∀ later, k.Performs j later t → later.writer? b = none

theorem Performs.get?_bitWrites {call : BuildCall} {t : Int} (h : k.Performs i call t) (b : String) :
    ((k.first (i + 1)).circuit.bitWrites b).get? t =
      (call.writer? b).or (((k.first i).circuit.bitWrites b).get? t) := by
  have wf := (k.first i).wellFormed
  rw [h.circuit_succ, Circuit.get?_bitWrites_placeAll (h.placed.tracks wf) (h.placed.notes wf),
    ← call.find?_nodes b t]
  congr 2
  refine List.find?_congr fun e he => ?_
  simp [h.timeslice_of_mem (List.mem_reverse.mp he)]

theorem Performs.get?_bitWrites_of_ne {call : BuildCall} {t s : Int} (h : k.Performs i call t)
    (hne : s ≠ t) (b : String) : ((k.first (i + 1)).circuit.bitWrites b).get? s =
      ((k.first i).circuit.bitWrites b).get? s := by
  have wf := (k.first i).wellFormed
  have hnone : ((call.nodes t).reverse.find? fun e => e.2.WritesTo b ∧ e.2.timeslice = s) = none := by
    refine List.find?_eq_none.mpr fun e he => ?_
    simp [h.timeslice_of_mem (List.mem_reverse.mp he), hne.symm]
  rw [h.circuit_succ, Circuit.get?_bitWrites_placeAll (h.placed.tracks wf) (h.placed.notes wf), hnone]
  rfl

section
variable {b : String} {t : Int} {q : String}

theorem lastInto_succ_of_silent (silent : ∀ call, k.Performs i call t → call.writer? b = none) :
    k.LastInto (i + 1) b t q ↔ k.LastInto i b t q := by
  constructor
  · rintro ⟨j, hj, call, h, hq, hlast⟩
    rcases Nat.lt_succ_iff_lt_or_eq.mp hj with hj | rfl
    · exact ⟨j, hj, call, h, hq, fun l hjl hl => hlast l hjl (Nat.lt_succ_of_lt hl)⟩
    · simp [silent call h] at hq
  · rintro ⟨j, hj, call, h, hq, hlast⟩
    refine ⟨j, Nat.lt_succ_of_lt hj, call, h, hq, fun l hjl hl later hlater => ?_⟩
    rcases Nat.lt_succ_iff_lt_or_eq.mp hl with hl | rfl
    · exact hlast l hjl hl later hlater
    · exact silent later hlater

theorem lastInto_succ_of_writer {call : BuildCall} {p : String} (h : k.Performs i call t)
    (hp : call.writer? b = some p) : k.LastInto (i + 1) b t q ↔ p = q := by
  constructor
  · rintro ⟨j, hj, other, h', hq, hlast⟩
    rcases Nat.lt_succ_iff_lt_or_eq.mp hj with hj | rfl
    · simp [hlast i hj (Nat.lt_succ_self i) call h] at hp
    · rw [← (h.unique h').1, hp] at hq
      exact Option.some.inj hq
  · rintro rfl
    exact ⟨i, Nat.lt_succ_self i, call, h, hp, fun j hij hj => by omega⟩

theorem get?_bitWrites_first :
    ((k.first i).circuit.bitWrites b).get? t = some q ↔ k.LastInto i b t q := by
  induction i with
  | zero =>
    have hempty : ((k.first 0).circuit.bitWrites b).get? t = none := rfl
    simp [hempty, LastInto]
  | succ i ih =>
    by_cases hperforms : ∃ call s, k.Performs i call s
    · obtain ⟨call, s, h⟩ := hperforms
      by_cases hst : t = s
      · subst hst
        rw [h.get?_bitWrites]
        cases hwriter : call.writer? b with
        | none =>
          rw [Option.none_or, ih, lastInto_succ_of_silent fun other h' => (h.unique h').1 ▸ hwriter]
        | some p => rw [Option.some_or, Option.some.injEq, lastInto_succ_of_writer h hwriter]
      · rw [h.get?_bitWrites_of_ne hst, ih,
          lastInto_succ_of_silent fun other h' => absurd (h.unique h').2.symm hst]
    · have none {call t} : ¬ k.Performs i call t := fun h => hperforms ⟨call, t, h⟩
      rw [(unchanged_first_succ none).2, ih, lastInto_succ_of_silent fun call h => absurd h none]

end

-- ---------------------------------------------------------------------------
-- Accesses
-- ---------------------------------------------------------------------------

/-- Two calls that are performed one after the other, both use the bit, and not
both only read it. -/
structure Conflict (k : Construction) (b : String) (i : Nat) (first : BuildCall) (s : Int) (j : Nat)
    (second : BuildCall) (t : Int) : Prop where
  earlier : k.Performs i first s
  later : k.Performs j second t
  before : i < j
  first_access : first.WritesTo b ∨ first.ReadsFrom k.circuit b
  second_access : second.WritesTo b ∨ second.ReadsFrom k.circuit b
  write : first.WritesTo b ∨ second.WritesTo b

/-- Calls that use one bit go to timeslices in their order, unless they both
read. -/
def AccessesOrdered (k : Construction) : Prop :=
  ∀ {b i first s j second t}, k.Conflict b i first s j second t → s < t

def WaitsBefore (k : Construction) (j : Nat) (call : BuildCall) (s : Int) : Prop :=
  ∀ {l earlier u}, l < j → k.Performs l earlier u → call.WaitsFor earlier → u < s

namespace Conflict
variable {b : String} {first second : BuildCall} {s t : Int}
  (h : k.Conflict b i first s j second t)
include h

theorem le_iff : t ≤ s ↔ k.WaitsBefore j second s := by
  rw [← Int.not_lt, h.later.lt_iff h.earlier.one_le]
  constructor
  · intro hnot l earlier u hl hu hwaits
    exact Int.not_le.mp fun hle => hnot ⟨l, hl, earlier, u, hu, hwaits, hle⟩
  · rintro hbefore ⟨l, hl, earlier, u, hu, hwaits, hle⟩
    exact absurd (hbefore hl hu hwaits) (Int.not_lt.mpr hle)

theorem lt_of_read (hfirst : first.WritesTo b) (hsecond : second.ReadsFrom k.circuit b) : s < t := by
  obtain ⟨cond, hcond, -⟩ := hsecond
  exact h.later.lt_of_waitsFor h.earlier h.before (.inr ⟨by simp [hcond], hfirst.measures⟩)

theorem lt_or_write : s < t ∨ second.WritesTo b ∧ ¬ second.WaitsFor first := by
  by_cases hlt : s < t
  · exact .inl hlt
  refine .inr ⟨Classical.byContradiction fun hnot => ?_, fun hwaits => ?_⟩
  · exact hlt (h.lt_of_read (h.write.resolve_right hnot) (h.second_access.resolve_left hnot))
  · exact hlt (h.later.lt_of_waitsFor h.earlier h.before hwaits)

end Conflict
end Construction

/-- A circuit holds the nodes of its calls. Of two calls that use a bit, the
earlier one goes to an earlier timeslice, unless the later one writes and waits
only for calls before the timeslice of the earlier one. Reads go behind the
writes before them, and at every timeslice the bit keeps its last writer. -/
theorem accesses_placed (k : Construction) (b : String) :
    (∀ {q t n}, k.circuit.at? q t = some n ↔ ∃ i call, k.Performs i call t ∧ (q, n) ∈ call.nodes t) ∧
      (∀ {i first s j second t}, k.Conflict b i first s j second t →
        (s < t ∨ second.WritesTo b ∧ ¬ second.WaitsFor first) ∧
        (t ≤ s ↔ k.WaitsBefore j second s) ∧
        (first.WritesTo b → second.ReadsFrom k.circuit b → s < t)) ∧
      ∀ {t q}, (k.circuit.bitWrites b).get? t = some q ↔ k.LastInto k.steps.length b t q := by
  refine ⟨Construction.at?_circuit, fun h => ⟨h.lt_or_write, h.le_iff, h.lt_of_read⟩, fun {t q} => ?_⟩
  rw [← Construction.get?_bitWrites_first, Construction.circuit_first_of_length_le (Nat.le_refl _)]

-- ---------------------------------------------------------------------------
-- A write that goes before an earlier read
-- ---------------------------------------------------------------------------

/-- A bit is measured, read, and measured again on a qubit that was idle. -/
def Construction.displaced : Construction where
  name := "displaced"
  steps := [
    .quantum ⟨"q", 3⟩, .classical ⟨"c", 1⟩,
    .call (.measure ["q[0]"] ["c[0]"] none),
    .call (.gate "x" "q[1]" [] (some ⟨"c[0]", 1, .bit⟩)),
    .call (.measure ["q[2]"] ["c[0]"] none)]
  quantum_fresh := by decide
  classical_fresh := by decide
  counted := by decide
  qubits_counted := by decide
  bits_counted := by decide

namespace Construction

theorem performs_displaced :
    displaced.Performs 2 (.measure ["q[0]"] ["c[0]"] none) 1 ∧
      displaced.Performs 3 (.gate "x" "q[1]" [] (some ⟨"c[0]", 1, .bit⟩)) 2 ∧
      displaced.Performs 4 (.measure ["q[2]"] ["c[0]"] none) 1 := by
  refine ⟨⟨rfl, ⟨?_, ?_, rfl, ?_⟩, ?_⟩, ⟨rfl, ⟨?_, ?_, trivial⟩, ?_⟩, rfl, ⟨?_, ?_, rfl, ?_⟩, ?_⟩ <;>
    decide +kernel

theorem conflict_displaced :
    displaced.Conflict "c[0]" 2 (.measure ["q[0]"] ["c[0]"] none) 1 3
        (.gate "x" "q[1]" [] (some ⟨"c[0]", 1, .bit⟩)) 2 ∧
      displaced.Conflict "c[0]" 3 (.gate "x" "q[1]" [] (some ⟨"c[0]", 1, .bit⟩)) 2 4
        (.measure ["q[2]"] ["c[0]"] none) 1 := by
  obtain ⟨hfirst, hread, hsecond⟩ := performs_displaced
  have hreads : BuildCall.ReadsFrom displaced.circuit
      (.gate "x" "q[1]" [] (some ⟨"c[0]", 1, .bit⟩)) "c[0]" := ⟨_, rfl, rfl⟩
  have hwrites (q : String) : BuildCall.WritesTo (.measure [q] ["c[0]"] none) "c[0]" :=
    ⟨q, List.mem_singleton.mpr rfl⟩
  exact ⟨⟨hfirst, hread, by decide, .inl (hwrites _), .inr hreads, .inl (hwrites _)⟩,
    hread, hsecond, by decide, .inr hreads, .inl (hwrites _), .inr (hwrites _)⟩

end Construction

theorem accesses_placed_displaced :
    Construction.displaced.WaitsBefore 4 (.measure ["q[2]"] ["c[0]"] none) 2 ∧
      Construction.displaced.LastInto 5 "c[0]" 1 "q[2]" := by
  obtain ⟨-, hconflict, hnotes⟩ := accesses_placed .displaced "c[0]"
  obtain ⟨-, hle, -⟩ := hconflict Construction.conflict_displaced.2
  exact ⟨hle.mp (by decide), hnotes.mp (by decide +kernel)⟩

/-- A read need not stay before a write that is called later, and of two
measurements into a bit only one may be noted. -/
theorem not_calls_ordered :
    ¬ Construction.displaced.AccessesOrdered ∧
      (Construction.displaced.circuit.bitWrites "c[0]").entries = [(1, "q[2]")] := by
  refine ⟨fun hordered => ?_, by decide +kernel⟩
  have hlt := hordered Construction.conflict_displaced.2
  omega

end Sequencer
