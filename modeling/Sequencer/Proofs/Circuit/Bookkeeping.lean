import Sequencer.Proofs.Circuit.Construction

/-!
# Marks and notes of circuits under construction

The marks of a circuit are the exact maxima of the timeslices they speak of,
and its notes on classical bits name measurements. A call either fails before
it places anything, or puts one node on each of its participants, at one
timeslice behind all that they did before.
-/

namespace Sequencer

namespace Circuit

def MeasuredInto (c : Circuit) (q b : String) (t : Int) : Prop :=
  ∃ n, c.at? q t = some n ∧ n.WritesTo b

/-- Marks and notes say what the timelines hold. A bit that two qubits are
measured into at one timeslice keeps a note of one of them. -/
structure Bookkept (c : Circuit) : Prop where
  qubit_mark : ∀ q, Largest (mark c.qubitMarks q) fun t => ∃ n, c.at? q t = some n
  last_slice : Largest c.lastSlice fun t => ∃ q n, c.at? q t = some n
  last_measured : Largest c.lastMeasured fun t => ∃ q n, c.at? q t = some n ∧ n.measurement = true
  bit_mark : ∀ b, Largest (mark c.bitMarks b) fun t => ∃ q, c.MeasuredInto q b t
  note : ∀ {b t q}, (c.bitWrites b).get? t = some q → c.MeasuredInto q b t
  noted : ∀ {b t q}, c.MeasuredInto q b t → ((c.bitWrites b).get? t).isSome

-- ---------------------------------------------------------------------------
-- Declarations
-- ---------------------------------------------------------------------------

theorem bookkept_new (name : String) : ({ name := name } : Circuit).Bookkept where
  qubit_mark q := largest_of_none (by rintro t ⟨n, ⟨⟩⟩)
  last_slice := largest_of_none (by rintro t ⟨q, n, ⟨⟩⟩)
  last_measured := largest_of_none (by rintro t ⟨q, n, ⟨⟩, -⟩)
  bit_mark b := largest_of_none (by rintro t ⟨q, n, ⟨⟩, -⟩)
  note := by rintro b t q ⟨⟩
  noted := by rintro b t q ⟨n, ⟨⟩, -⟩

theorem mark_declared {marks : Assoc String Int} {names : List String} {S : Int → Prop}
    {name : String} (h : Largest (mark marks name) S) (empty : name ∈ names → ∀ t, ¬ S t) :
    Largest (mark (names.foldl (fun m x => m.insert x 0) marks) name) S := by
  have hmark : mark (names.foldl (fun m x => m.insert x 0) marks) name =
      if name ∈ names then 0 else mark marks name := by
    simp only [mark, get?_foldl_insert]
    split <;> rfl
  rw [hmark]
  split
  · rename_i hmem
    exact largest_of_none (empty hmem)
  · exact h

theorem Bookkept.declareQubits {c : Circuit} {r : Register} (h : c.Bookkept) (wf : c.WellFormed)
    (fresh : ∀ s ∈ c.quantum, s.name ≠ r.name) : (c.declareQubits r.name r.size).Bookkept := by
  have hat := at?_declareQubits wf fresh
  have hinto (q b : String) (t : Int) :
      (c.declareQubits r.name r.size).MeasuredInto q b t ↔ c.MeasuredInto q b t := by
    simp only [MeasuredInto, hat]
  refine ⟨fun q => ?_, ?_, ?_, fun b => ?_, fun hq => (hinto ..).mpr (h.note hq),
    fun hq => h.noted ((hinto ..).mp hq)⟩
  · simp only [hat]
    refine mark_declared (h.qubit_mark q) ?_
    rintro hq t ⟨n, hn⟩
    obtain ⟨s, hs, hsq⟩ := List.mem_flatMap.mp (wf.mem_qubits hn)
    exact fresh s hs (name_eq_of_mem_elements hsq hq)
  · simp only [hat]
    exact h.last_slice
  · simp only [hat]
    exact h.last_measured
  · simp only [hinto]
    exact h.bit_mark b

theorem Bookkept.declareBits {c : Circuit} {r : Register} (h : c.Bookkept) (wf : c.WellFormed)
    (fresh : ∀ s ∈ c.classical, s.name ≠ r.name) : (c.declareBits r.name r.size).Bookkept := by
  -- no measurement names a bit of the new register
  have hnew {q b : String} {t : Int} (hb : b ∈ r.elements) : ¬ c.MeasuredInto q b t := by
    rintro ⟨n, hn, hm, hbit⟩
    obtain ⟨s, hs, hsb⟩ := List.mem_flatMap.mp ((wf.measured hn hm).2.2.2 b hbit)
    exact fresh s hs (name_eq_of_mem_elements hsb hb)
  have hwrites := bitWrites_declareBits wf fresh
  refine ⟨h.qubit_mark, h.last_slice, h.last_measured, fun b => ?_, ?_, ?_⟩
  · refine mark_declared (h.bit_mark b) ?_
    rintro hb t ⟨q, hq⟩
    exact hnew hb hq
  · intro b t q hq
    rw [hwrites] at hq
    exact h.note hq
  · intro b t q hq
    rw [hwrites]
    exact h.noted hq

theorem bookkept_skeleton {c : Circuit} (wf : c.WellFormed) : c.skeleton.Bookkept :=
  wf.skeleton_induct (bookkept_new c.name) (fun wf fresh h => h.declareQubits wf fresh)
    fun wf fresh h => h.declareBits wf fresh

-- ---------------------------------------------------------------------------
-- Calls
-- ---------------------------------------------------------------------------

theorem Bookkept.placeAll_of_free {c : Circuit} {nodes : List (String × Node)} (h : c.Bookkept)
    (tracked : ∀ e ∈ nodes, c.Tracks e.1)
    (notes : ∀ e ∈ nodes, e.2.measurement = true → ∀ b ∈ e.2.bits, (c.writes.get? b).isSome)
    (pos : ∀ e ∈ nodes, 1 ≤ e.2.timeslice)
    (hat : ∀ {q t n}, (c.placeAll nodes).at? q t = some n ↔
      ((q, n) ∈ nodes ∧ n.timeslice = t) ∨ c.at? q t = some n) : (c.placeAll nodes).Bookkept := by
  have hinto {q b t} : (c.placeAll nodes).MeasuredInto q b t ↔
      (∃ n, (q, n) ∈ nodes ∧ n.WritesTo b ∧ n.timeslice = t) ∨ c.MeasuredInto q b t := by
    simp only [MeasuredInto, hat, or_and_right, exists_or, and_assoc]
    exact or_congr_left (exists_congr fun n => and_congr_right fun _ => and_comm)
  have hpos {l : List (String × Node)} (hl : ∀ e ∈ l, e ∈ nodes) :
      ∀ t ∈ l.map fun e => e.2.timeslice, 1 ≤ t :=
    List.forall_mem_map.mpr fun e he => pos e (hl e he)
  refine ⟨fun q => ?_, ?_, ?_, fun b => ?_, ?_, ?_⟩
  · rw [mark_placeAll tracked]
    refine ((h.qubit_mark q).foldl_max (hpos fun e he => (List.mem_filter.mp he).1)).congr fun t => ?_
    simp only [hat, exists_or]
    refine or_congr_left ?_
    simp only [List.mem_map, List.mem_filter, decide_eq_true_eq, Prod.exists]
    constructor
    · rintro ⟨p, n, ⟨hm, rfl⟩, rfl⟩
      exact ⟨n, hm, rfl⟩
    · rintro ⟨n, hm, rfl⟩
      exact ⟨q, n, ⟨hm, rfl⟩, rfl⟩
  · rw [lastSlice_placeAll tracked]
    refine (h.last_slice.foldl_max (hpos fun e he => he)).congr fun t => ?_
    simp only [hat, exists_or]
    refine or_congr_left ?_
    simp only [List.mem_map, Prod.exists]
  · rw [lastMeasured_placeAll tracked]
    refine (h.last_measured.foldl_max (hpos fun e he => (List.mem_filter.mp he).1)).congr fun t => ?_
    simp only [hat, or_and_right, exists_or]
    refine or_congr_left ?_
    simp only [List.mem_map, List.mem_filter, Prod.exists]
    exact exists_congr fun q => exists_congr fun n => and_right_comm
  · rw [bitMark_placeAll tracked notes]
    refine ((h.bit_mark b).foldl_max (hpos fun e he => (List.mem_filter.mp he).1)).congr fun t => ?_
    simp only [hinto, exists_or]
    refine or_congr_left ?_
    simp only [List.mem_map, List.mem_filter, decide_eq_true_eq, Prod.exists, and_assoc]
  · intro b t q hq
    rcases bitWrites_placeAll tracked notes hq with hnew | hq
    · exact hinto.mpr (.inl hnew)
    · exact hinto.mpr (.inr (h.note hq))
  · intro b t q hq
    rw [isSome_bitWrites_placeAll tracked notes]
    rcases hinto.mp hq with ⟨n, hn, hw⟩ | hq
    · exact .inl ⟨(q, n), hn, hw⟩
    · exact .inr (h.noted hq)

section
variable {c : Circuit} {cond : Option Condition} {nodes : List (String × Node)}
variable (wf : c.WellFormed) (room : c.lastSlice + 1 < Integer.bound) (placed : c.Placed cond nodes)
include wf placed

theorem Placed.notes : ∀ e ∈ nodes, e.2.measurement = true → ∀ b ∈ e.2.bits,
    (c.writes.get? b).isSome :=
  fun e he hm b hb => (wf.notes b).mpr ((placed.measured e he hm).2.2 b hb)

include room

theorem Placed.slice_pos {e : String × Node} (he : e ∈ nodes) : 1 ≤ e.2.timeslice := by
  rw [placed.slot e he]
  exact (slotFor_bounds wf room _ cond).1

theorem Bookkept.placeAll (h : c.Bookkept) : (c.placeAll nodes).Bookkept :=
  h.placeAll_of_free (placed.tracks wf) (placed.notes wf) (fun _ he => placed.slice_pos wf room he)
    (placed.at?_placeAll wf room)

end

end Circuit

theorem Construction.bookkept (k : Construction) : k.circuit.Bookkept := by
  refine (k.induct (Circuit.bookkept_new k.name) ?_).2
  intro done s c h fresh counted hc
  have hlast := h.lastSlice_le
  cases s with
  | quantum r => exact hc.declareQubits h.wellFormed fresh
  | classical r => exact hc.declareBits h.wellFormed fresh
  | call call =>
    cases hcall : c.perform call with
    | error e =>
      rw [BuildStep.apply_of_error hcall]
      exact hc
    | ok next =>
      rw [BuildStep.apply_of_ok hcall]
      obtain ⟨nodes, -, placed, rfl⟩ := Circuit.perform_ok hcall
      exact hc.placeAll h.wellFormed (by omega) placed

-- ---------------------------------------------------------------------------
-- What a call does
-- ---------------------------------------------------------------------------

namespace Circuit

structure ExtendedBy (c : Circuit) (k : BuildCall) (t : Int) (d : Circuit) : Prop where
  quantum : d.quantum = c.quantum
  classical : d.classical = c.classical
  placed : ∃ nodes, nodes.map Prod.fst = k.participants ∧ c.PlacesAll nodes ∧ d = c.placeAll nodes
  distinct : k.participants.Nodup
  kept : ∀ {q s n}, c.at? q s = some n → d.at? q s = some n
  added : ∀ {q s}, c.at? q s = none → ((d.at? q s).isSome ↔ q ∈ k.participants ∧ s = t)
  behind : ∀ {q s n}, q ∈ k.participants → c.at? q s = some n → s < t
  waits : k.cond.isSome → ∀ {q s n}, c.at? q s = some n → n.measurement = true → s < t

theorem WellFormed.extendedBy {c d : Circuit} {k : BuildCall} (wf : c.WellFormed)
    (room : c.lastSlice + 1 < Integer.bound) (hk : c.perform k = .ok d) :
    c.ExtendedBy k (c.slotFor k.participants k.cond) d := by
  obtain ⟨nodes, hfst, placed, rfl⟩ := perform_ok hk
  have hat {q t n} := placed.at?_placeAll wf room (q := q) (t := t) (n := n)
  obtain ⟨-, -, hfree, hwait⟩ := slotFor_bounds wf room k.participants k.cond
  have hslot : ∀ e ∈ nodes, e.2.timeslice = c.slotFor k.participants k.cond := hfst ▸ placed.slot
  refine
    { quantum := placeAll_quantum
      classical := placeAll_classical
      placed := ⟨nodes, hfst, placesAll (placed.tracks wf) (placed.notes wf), rfl⟩
      distinct := hfst ▸ placed.distinct
      kept := fun hn => hat.mpr (.inr hn)
      added := ?_
      behind := ?_
      waits := ?_ }
  · intro q s hnone
    simp only [Option.isSome_iff_exists, hat, hnone, reduceCtorEq, or_false]
    rw [← hfst]
    constructor
    · rintro ⟨n, hn, rfl⟩
      exact ⟨List.mem_map_of_mem hn, hfst ▸ hslot _ hn⟩
    · rintro ⟨hq, rfl⟩
      obtain ⟨⟨q, n⟩, hn, rfl⟩ := List.mem_map.mp hq
      exact ⟨n, hn, hfst ▸ hslot _ hn⟩
  · intro q s n hq hn
    have := (wf.slice hn).2.2
    have := hfree q hq
    omega
  · intro hcond q s n hn hm
    have := (wf.measured hn hm).1
    have := hwait hcond
    omega

end Circuit

/-- In every circuit under construction the marks are exact, notes name
measurements, and the participants of an operation agree on it. One more call
fails and changes nothing, or is accepted and puts one node on each of its
participants, behind what they did before. -/
theorem builder_invariant (k : Construction) :
    k.circuit.WellFormed ∧ k.circuit.Bookkept ∧
      ∀ call : BuildCall, k.steps.length + 1 < Integer.bound →
        ((∃ d, k.circuit.perform call = .ok d) ↔ call.Valid k.circuit) ∧
        (∀ e, k.circuit.perform call = .error e → (BuildStep.call call).apply k.circuit = k.circuit) ∧
        ∀ d, k.circuit.perform call = .ok d →
          (BuildStep.call call).apply k.circuit = d ∧ ∃ t, k.circuit.ExtendedBy call t d := by
  refine ⟨k.wellFormed, k.bookkept, fun call room => ⟨Circuit.perform_ok_iff _ call, ?_, ?_⟩⟩
  · intro e he
    exact BuildStep.apply_of_error he
  · intro d hd
    have hlast := k.sound.lastSlice_le
    exact ⟨BuildStep.apply_of_ok hd, _, k.wellFormed.extendedBy (by omega) hd⟩

theorem builder_invariant_teleportation :
    ∃ d t, Construction.teleportation.circuit.perform
        (.controlled "cx" ["q[0]", "q[1]"] "q[2]" [] (some ⟨"c", 2, .register⟩)) = .ok d ∧
      Construction.teleportation.circuit.ExtendedBy
        (.controlled "cx" ["q[0]", "q[1]"] "q[2]" [] (some ⟨"c", 2, .register⟩)) t d := by
  obtain ⟨-, -, hcall⟩ := builder_invariant .teleportation
  obtain ⟨accepts, -, adds⟩ := hcall
    (.controlled "cx" ["q[0]", "q[1]"] "q[2]" [] (some ⟨"c", 2, .register⟩)) (by decide)
  obtain ⟨d, hd⟩ := accepts.mpr ⟨by decide +kernel, by decide, by decide⟩
  obtain ⟨t, ht⟩ := (adds d hd).2
  exact ⟨d, t, hd, ht⟩

end Sequencer
