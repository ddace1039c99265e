import Mathlib.Data.List.Flatten
import Sequencer.Proofs.Circuit.Bookkeeping

/-!
# The calls of a construction

A circuit under construction holds the nodes of the calls that were accepted,
each call at one timeslice, and nothing else. That timeslice is the first one
behind the earlier calls that the call waits for: those it shares a qubit with
and, if it is conditioned, the measurements.
-/

namespace Sequencer

-- ---------------------------------------------------------------------------
-- What a call waits for
-- ---------------------------------------------------------------------------

namespace BuildCall

def measured : BuildCall → List String
  | .measure qubits _ _ => qubits
  | _ => []

/-- The call goes behind the earlier one: they share a qubit, or it is
conditioned and the earlier one measures. -/
def WaitsFor (call earlier : BuildCall) : Prop :=
  (∃ q ∈ call.participants, q ∈ earlier.participants) ∨
    call.cond.isSome = true ∧ earlier.measured ≠ []

theorem measured_subset {call : BuildCall} {q : String} (h : q ∈ call.measured) : q ∈ call.participants := by
  cases call <;> simp_all [measured, participants]

theorem measurement_of_mem_nodes {call : BuildCall} {t : Int} {q : String} {n : Node}
    (h : (q, n) ∈ call.nodes t) : n.measurement = true ↔ q ∈ call.measured := by
  cases call with
  | measure qubits bits cond =>
    obtain ⟨e, he, heq⟩ := List.mem_map.mp h
    obtain ⟨rfl, rfl⟩ := Prod.mk.inj heq
    simp [measured, (List.of_mem_zip he).1]
  | gate name qubit params cond =>
    obtain ⟨rfl, rfl⟩ := Prod.mk.inj (List.mem_singleton.mp h)
    simp [measured]
  | controlled name controls target params cond =>
    obtain ⟨e, -, heq⟩ := List.mem_map.mp h
    obtain ⟨rfl, rfl⟩ := Prod.mk.inj heq
    simp [measured]
  | reset qubits cond =>
    obtain ⟨e, -, heq⟩ := List.mem_map.mp h
    obtain ⟨rfl, rfl⟩ := Prod.mk.inj heq
    simp [measured]
  | barrier qubits =>
    obtain ⟨e, -, heq⟩ := List.mem_map.mp h
    obtain ⟨rfl, rfl⟩ := Prod.mk.inj heq
    simp [measured]
  | named name qubits params cond =>
    obtain ⟨e, -, heq⟩ := List.mem_map.mp h
    obtain ⟨rfl, rfl⟩ := Prod.mk.inj heq
    simp [measured]

end BuildCall

/-- The chosen timeslice comes right behind the last one that has a node of a
participant or, under a condition, a measurement. -/
theorem Circuit.largest_slotFor {c : Circuit} (wf : c.WellFormed) (book : c.Bookkept)
    (room : c.lastSlice + 1 < Integer.bound) (qubits : List String) (cond : Option Condition) :
    Largest (c.slotFor qubits cond - 1) fun s => (∃ q ∈ qubits, ∃ n, c.at? q s = some n) ∨
      cond.isSome = true ∧ ∃ q n, c.at? q s = some n ∧ n.measurement = true := by
  obtain ⟨hpos, hlast, hmarks, hmeasured⟩ := slotFor_bounds wf room qubits cond
  have hle : ∀ s, ((∃ q ∈ qubits, ∃ n, c.at? q s = some n) ∨
      cond.isSome = true ∧ ∃ q n, c.at? q s = some n ∧ n.measurement = true) →
      1 ≤ s ∧ s ≤ c.slotFor qubits cond - 1 := by
    rintro s (⟨q, hq, n, hn⟩ | ⟨hcond, q, n, hn, hm⟩)
    · have hmark := hmarks q hq
      obtain ⟨-, hone, hslice⟩ := wf.slice hn
      omega
    · have hmark := hmeasured hcond
      have hone := (wf.slice hn).2.1
      have hslice := (wf.measured hn hm).1
      omega
  refine ⟨fun s hs => (hle s hs).2, Classical.or_iff_not_imp_left.mpr fun hnot => ?_⟩
  -- without a node right before it, the timeslice could be chosen earlier
  have hzero : c.slotFor qubits cond - 1 = 0 := by
    by_contra hne
    have hearlier : c.slotFor qubits cond ≤ c.slotFor qubits cond - 2 + 1 := by
      refine slotFor_le (by omega) (by omega) wf (fun q hq => ?_) fun hcond => ?_
      · rcases (book.qubit_mark q).2 with ⟨n, hn⟩ | ⟨hzero, -⟩
        · have hmark := hmarks q hq
          have hneq : mark c.qubitMarks q ≠ c.slotFor qubits cond - 1 :=
            fun heq => hnot (.inl ⟨q, hq, n, heq ▸ hn⟩)
          omega
        · omega
      · rcases book.last_measured.2 with ⟨q, n, hn, hm⟩ | ⟨hzero, -⟩
        · have hmark := hmeasured hcond
          have hneq : c.lastMeasured ≠ c.slotFor qubits cond - 1 :=
            fun heq => hnot (.inr ⟨hcond, q, n, heq ▸ hn, hm⟩)
          omega
        · omega
    omega
  refine ⟨hzero, fun s hs => ?_⟩
  have := hle s hs
  omega

namespace Construction

-- ---------------------------------------------------------------------------
-- The first steps of a construction
-- ---------------------------------------------------------------------------

def first (k : Construction) (i : Nat) : Construction where
  name := k.name
  steps := k.steps.take i
  quantum_fresh := k.quantum_fresh.sublist (((List.take_sublist i k.steps).filterMap _).map _)
  classical_fresh := k.classical_fresh.sublist (((List.take_sublist i k.steps).filterMap _).map _)
  counted := Nat.lt_of_le_of_lt (List.take_sublist i k.steps).length_le k.counted
  qubits_counted := Nat.lt_of_le_of_lt
    (((List.take_sublist i k.steps).filterMap _).flatMap _).length_le k.qubits_counted
  bits_counted := Nat.lt_of_le_of_lt
    (((List.take_sublist i k.steps).filterMap _).flatMap _).length_le k.bits_counted

variable {k : Construction} {i j : Nat}

theorem circuit_first_of_length_le (h : k.steps.length ≤ i) : (k.first i).circuit = k.circuit := by
  simp only [circuit, first, List.take_of_length_le h]

section
variable {s : BuildStep} (h : k.steps[i]? = some s)
include h

theorem circuit_first_succ : (k.first (i + 1)).circuit = s.apply (k.first i).circuit := by
  simp only [circuit, first, List.take_add_one, h, Option.toList_some, List.foldl_append, List.foldl_cons,
    List.foldl_nil]

theorem fresh_first : s.Fresh (k.first i).circuit := by
  obtain ⟨hi, rfl⟩ := List.getElem?_eq_some_iff.mp h
  have hsteps : k.steps = (k.first i).steps ++ k.steps[i] :: k.steps.drop (i + 1) := by simp [first]
  exact k.fresh_step hsteps (k.first i).sound

theorem room_first : (k.first i).circuit.lastSlice + 1 < Integer.bound := by
  obtain ⟨hi, -⟩ := List.getElem?_eq_some_iff.mp h
  have hlast := (k.first i).sound.lastSlice_le
  have hlen : (k.first i).steps.length ≤ i := List.length_take_le i k.steps
  have := k.counted
  omega

end

-- ---------------------------------------------------------------------------
-- Calls that are accepted
-- ---------------------------------------------------------------------------

structure Performs (k : Construction) (i : Nat) (call : BuildCall) (t : Int) : Prop where
  step : k.steps[i]? = some (.call call)
  valid : call.Valid (k.first i).circuit
  slot : (k.first i).circuit.slotFor call.participants call.cond = t

namespace Performs
variable {call : BuildCall} {t : Int} (h : k.Performs i call t)
include h

theorem unique {other : BuildCall} {s : Int} (h' : k.Performs i other s) : call = other ∧ t = s := by
  obtain rfl : call = other := by simpa using h.step.symm.trans h'.step
  exact ⟨rfl, h.slot.symm.trans h'.slot⟩

theorem perform : (k.first i).circuit.perform call = .ok (k.first (i + 1)).circuit := by
  obtain ⟨d, hd⟩ := (Circuit.perform_ok_iff _ call).mpr h.valid
  rw [circuit_first_succ h.step, hd, BuildStep.apply_of_ok hd]

theorem map_fst_nodes : (call.nodes t).map Prod.fst = call.participants :=
  h.slot ▸ (Circuit.perform_nodes h.perform).1

theorem mem_participants {q : String} : q ∈ call.participants ↔ ∃ n, (q, n) ∈ call.nodes t := by
  rw [← h.map_fst_nodes]
  simp

theorem placed : (k.first i).circuit.Placed call.cond (call.nodes t) :=
  h.slot ▸ (Circuit.perform_nodes h.perform).2.1

theorem circuit_succ : (k.first (i + 1)).circuit = (k.first i).circuit.placeAll (call.nodes t) :=
  h.slot ▸ (Circuit.perform_nodes h.perform).2.2

theorem timeslice_of_mem {e : String × Node} (he : e ∈ call.nodes t) : e.2.timeslice = t := by
  rw [h.placed.slot e he, h.map_fst_nodes, h.slot]

theorem one_le : 1 ≤ t :=
  h.slot ▸ (Circuit.slotFor_bounds (k.first i).wellFormed (room_first h.step) _ _).1

end Performs

theorem unchanged_first_succ (none : ∀ {call t}, ¬ k.Performs i call t) :
    (∀ q t, (k.first (i + 1)).circuit.at? q t = (k.first i).circuit.at? q t) ∧
      ∀ b, (k.first (i + 1)).circuit.bitWrites b = (k.first i).circuit.bitWrites b := by
  cases hs : k.steps[i]? with
  | none =>
    have hlen : k.steps.length ≤ i := List.getElem?_eq_none_iff.mp hs
    rw [circuit_first_of_length_le hlen, circuit_first_of_length_le (Nat.le_succ_of_le hlen)]
    exact ⟨fun _ _ => rfl, fun _ => rfl⟩
  | some s =>
    have wf := (k.first i).wellFormed
    have fresh := fresh_first hs
    rw [circuit_first_succ hs]
    cases s with
    | quantum r => exact ⟨Circuit.at?_declareQubits wf fresh, fun _ => rfl⟩
    | classical r => exact ⟨fun _ _ => rfl, Circuit.bitWrites_declareBits wf fresh⟩
    | call call =>
      cases hc : (k.first i).circuit.perform call with
      | error e =>
        rw [BuildStep.apply_of_error hc]
        exact ⟨fun _ _ => rfl, fun _ => rfl⟩
      | ok d => exact absurd ⟨hs, (Circuit.perform_ok_iff _ call).mp ⟨d, hc⟩, rfl⟩ none

theorem at?_first_succ {q : String} {t : Int} {n : Node} :
    (k.first (i + 1)).circuit.at? q t = some n ↔
      (k.first i).circuit.at? q t = some n ∨ ∃ call, k.Performs i call t ∧ (q, n) ∈ call.nodes t := by
  by_cases hperforms : ∃ call s, k.Performs i call s
  · obtain ⟨call, s, h⟩ := hperforms
    rw [h.circuit_succ, h.placed.at?_placeAll (k.first i).wellFormed (room_first h.step), or_comm]
    refine or_congr_right ?_
    constructor
    · rintro ⟨hn, ht⟩
      obtain rfl := (h.timeslice_of_mem hn).symm.trans ht
      exact ⟨call, h, hn⟩
    · rintro ⟨other, h', hn⟩
      obtain ⟨rfl, rfl⟩ := h.unique h'
      exact ⟨hn, h.timeslice_of_mem hn⟩
  · have none {call t} : ¬ k.Performs i call t := fun h => hperforms ⟨call, t, h⟩
    simp [(unchanged_first_succ none).1, none]

theorem at?_first {q : String} {t : Int} {n : Node} : (k.first i).circuit.at? q t = some n ↔
    ∃ j < i, ∃ call, k.Performs j call t ∧ (q, n) ∈ call.nodes t := by
  induction i with
  | zero =>
    have hempty : (k.first 0).circuit.at? q t = none := rfl
    simp [hempty]
  | succ i ih =>
    rw [at?_first_succ, ih]
    constructor
    · rintro (⟨j, hj, h⟩ | h)
      · exact ⟨j, Nat.lt_succ_of_lt hj, h⟩
      · exact ⟨i, Nat.lt_succ_self i, h⟩
    · rintro ⟨j, hj, h⟩
      rcases Nat.lt_succ_iff_lt_or_eq.mp hj with hj | rfl
      · exact .inl ⟨j, hj, h⟩
      · exact .inr h

theorem Performs.lt_length {call : BuildCall} {t : Int} (h : k.Performs i call t) : i < k.steps.length :=
  (List.getElem?_eq_some_iff.mp h.step).1

theorem at?_circuit {q : String} {t : Int} {n : Node} : k.circuit.at? q t = some n ↔
    ∃ i call, k.Performs i call t ∧ (q, n) ∈ call.nodes t := by
  rw [← circuit_first_of_length_le (Nat.le_refl _), at?_first]
  constructor
  · rintro ⟨i, -, h⟩
    exact ⟨i, h⟩
  · rintro ⟨i, call, h, hn⟩
    exact ⟨i, h.lt_length, call, h, hn⟩

-- ---------------------------------------------------------------------------
-- Their timeslices
-- ---------------------------------------------------------------------------

namespace Performs
variable {call : BuildCall} {t : Int} (h : k.Performs j call t)
include h

theorem measures_iff : call.measured ≠ [] ↔ ∃ q n, (q, n) ∈ call.nodes t ∧ n.measurement = true := by
  constructor
  · intro hne
    obtain ⟨q, hq⟩ := List.exists_mem_of_ne_nil _ hne
    obtain ⟨n, hn⟩ := h.mem_participants.mp (BuildCall.measured_subset hq)
    exact ⟨q, n, hn, (BuildCall.measurement_of_mem_nodes hn).mpr hq⟩
  · rintro ⟨q, n, hn, hm⟩
    exact List.ne_nil_of_mem ((BuildCall.measurement_of_mem_nodes hn).mp hm)

/-- A call goes right behind the last of the earlier calls that it waits for,
or to the first timeslice. -/
theorem largest : Largest (t - 1) fun s =>
    ∃ i < j, ∃ earlier, k.Performs i earlier s ∧ call.WaitsFor earlier := by
  have hslot := Circuit.largest_slotFor (k.first j).wellFormed (k.first j).bookkept (room_first h.step)
    call.participants call.cond
  rw [h.slot] at hslot
  refine hslot.congr fun s => ?_
  simp only [at?_first, BuildCall.WaitsFor]
  constructor
  · rintro (⟨q, hq, n, i, hi, earlier, he, hn⟩ | ⟨hcond, q, n, ⟨i, hi, earlier, he, hn⟩, hm⟩)
    · exact ⟨i, hi, earlier, he, .inl ⟨q, hq, he.mem_participants.mpr ⟨n, hn⟩⟩⟩
    · exact ⟨i, hi, earlier, he, .inr ⟨hcond, he.measures_iff.mpr ⟨q, n, hn, hm⟩⟩⟩
  · rintro ⟨i, hi, earlier, he, ⟨q, hq, hq'⟩ | ⟨hcond, hm⟩⟩
    · obtain ⟨n, hn⟩ := he.mem_participants.mp hq'
      exact .inl ⟨q, hq, n, i, hi, earlier, he, hn⟩
    · obtain ⟨q, n, hn, hm⟩ := he.measures_iff.mp hm
      exact .inr ⟨hcond, q, n, ⟨i, hi, earlier, he, hn⟩, hm⟩

theorem lt_of_waitsFor {earlier : BuildCall} {s : Int} (he : k.Performs i earlier s) (hij : i < j)
    (hwaits : call.WaitsFor earlier) : s < t := by
  have := h.largest.1 s ⟨i, hij, earlier, he, hwaits⟩
  omega

theorem lt_iff {s : Int} (hs : 1 ≤ s) : s < t ↔
    ∃ i < j, ∃ earlier u, k.Performs i earlier u ∧ call.WaitsFor earlier ∧ s ≤ u := by
  constructor
  · intro hlt
    rcases h.largest.2 with ⟨i, hi, earlier, he, hwaits⟩ | ⟨hzero, -⟩
    · exact ⟨i, hi, earlier, t - 1, he, hwaits, by omega⟩
    · omega
  · rintro ⟨i, hi, earlier, u, he, hwaits, hle⟩
    exact Int.lt_of_le_of_lt hle (h.lt_of_waitsFor he hi hwaits)

end Performs
end Construction
end Sequencer
