import Sequencer.Proofs.Associations
import Sequencer.Proofs.Circuit.Construction
import Sequencer.Proofs.Timelines

/-!
# The order of a circuit's maps

Timelines, writes and marks are listed in the order in which their qubits and
bits were declared, whatever happened in between. Two circuits over the same
registers are therefore equal as soon as they agree on every name.
-/

namespace Sequencer
namespace Circuit

/-- The maps list the declared names in the order of their declaration. -/
structure Keyed (c : Circuit) : Prop where
  timelines : c.timelines.keys = c.qubits
  qubitMarks : c.qubitMarks.keys = c.qubits
  writes : c.writes.keys = c.bits
  bitMarks : c.bitMarks.keys = c.bits

theorem keyed_new (name : String) : ({ name := name } : Circuit).Keyed := ⟨rfl, rfl, rfl, rfl⟩

-- ---------------------------------------------------------------------------
-- Declarations
-- ---------------------------------------------------------------------------

theorem keys_declared {α : Type} {m : Assoc String α} {names : List String} (a : α)
    (h : (m.keys ++ names).Nodup) : (names.foldl (fun m x => m.insert x a) m).keys = m.keys ++ names := by
  have hmap : names.foldl (fun m x => m.insert x a) m =
      (names.map fun x => (x, a)).foldl (fun m e => m.insert e.1 e.2) m := by
    rw [List.foldl_map]
  rw [hmap, Assoc.foldl_insert_of_disjoint (by simpa [Function.comp_def] using h)]
  simp [Assoc.keys, Function.comp_def]

theorem Keyed.declareQubits {c : Circuit} {r : Register} (h : c.Keyed)
    (nodup : (c.qubits ++ r.elements).Nodup) : (c.declareQubits r.name r.size).Keyed := by
  have hqubits : (c.declareQubits r.name r.size).qubits = c.qubits ++ r.elements := by
    simp [qubits, Circuit.declareQubits]
  refine ⟨?_, ?_, h.writes, h.bitMarks⟩
  · rw [hqubits, ← h.timelines]
    exact keys_declared .empty (h.timelines.symm ▸ nodup)
  · rw [hqubits, ← h.qubitMarks]
    exact keys_declared 0 (h.qubitMarks.symm ▸ nodup)

theorem Keyed.declareBits {c : Circuit} {r : Register} (h : c.Keyed)
    (nodup : (c.bits ++ r.elements).Nodup) : (c.declareBits r.name r.size).Keyed := by
  have hbits : (c.declareBits r.name r.size).bits = c.bits ++ r.elements := by
    simp [bits, Circuit.declareBits]
  refine ⟨h.timelines, h.qubitMarks, ?_, ?_⟩
  · rw [hbits, ← h.writes]
    exact keys_declared .empty (h.writes.symm ▸ nodup)
  · rw [hbits, ← h.bitMarks]
    exact keys_declared 0 (h.bitMarks.symm ▸ nodup)

theorem keyed_ofRegisters (name : String) {quantum classical : List Register}
    (hq : (quantum.map Register.name).Nodup) (hc : (classical.map Register.name).Nodup) :
    (ofRegisters name quantum classical).Keyed := by
  have hquantum (registers : List Register) : ∀ c : Circuit, c.Keyed →
      (c.qubits ++ registers.flatMap Register.elements).Nodup →
      (registers.foldl (fun c r => c.declareQubits r.name r.size) c).Keyed := by
    induction registers with
    | nil => exact fun c h _ => h
    | cons r rest ih =>
      intro c h hnodup
      rw [List.flatMap_cons, ← List.append_assoc] at hnodup
      refine ih _ (h.declareQubits (List.nodup_append.mp hnodup).1) ?_
      simpa [qubits, Circuit.declareQubits] using hnodup
  have hclassical (registers : List Register) : ∀ c : Circuit, c.Keyed →
      (c.bits ++ registers.flatMap Register.elements).Nodup →
      (registers.foldl (fun c r => c.declareBits r.name r.size) c).Keyed := by
    induction registers with
    | nil => exact fun c h _ => h
    | cons r rest ih =>
      intro c h hnodup
      rw [List.flatMap_cons, ← List.append_assoc] at hnodup
      refine ih _ (h.declareBits (List.nodup_append.mp hnodup).1) ?_
      simpa [bits, Circuit.declareBits] using hnodup
  have hbits (registers : List Register) : ∀ c : Circuit,
      (registers.foldl (fun c r => c.declareQubits r.name r.size) c).bits = c.bits := by
    induction registers with
    | nil => exact fun _ => rfl
    | cons r rest ih => exact fun c => ih _
  refine hclassical classical _ (hquantum quantum _ (keyed_new name) ?_) ?_
  · exact nodup_flatMap_elements hq
  · rw [hbits]
    exact nodup_flatMap_elements hc

-- ---------------------------------------------------------------------------
-- Placing
-- ---------------------------------------------------------------------------

theorem Keyed.noteWrites {c : Circuit} (h : c.Keyed) (qubit : String) (t : Int) (names : List String) :
    (noteWrites qubit t names c).1.Keyed := by
  induction names generalizing c with
  | nil => exact h
  | cons bit rest ih =>
    simp only [Circuit.noteWrites]
    cases hline : c.writes.get? bit with
    | none => exact h
    | some line =>
      have hmem : bit ∈ c.writes.keys := Assoc.isSome_get?.mp (by simp [hline])
      refine ih ⟨h.timelines, h.qubitMarks, ?_, ?_⟩
      · exact (Assoc.keys_insert_of_mem _ hmem).trans h.writes
      · exact (Assoc.keys_insert_of_mem _ (h.bitMarks ▸ h.writes ▸ hmem)).trans h.bitMarks

theorem Keyed.place {c : Circuit} (h : c.Keyed) (qubit : String) (n : Node) :
    (c.place qubit n).1.Keyed := by
  unfold Circuit.place
  cases hline : c.timelines.get? qubit with
  | none => exact h
  | some line =>
    have hmem : qubit ∈ c.timelines.keys := Assoc.isSome_get?.mp (by simp [hline])
    have hstore : (c.store qubit line n).Keyed := by
      refine ⟨?_, ?_, h.writes, h.bitMarks⟩
      · exact (Assoc.keys_insert_of_mem _ hmem).trans h.timelines
      · exact (Assoc.keys_insert_of_mem _ (h.qubitMarks ▸ h.timelines ▸ hmem)).trans h.qubitMarks
    simp only
    split
    · refine Keyed.noteWrites ?_ qubit n.timeslice n.bits
      exact ⟨hstore.timelines, hstore.qubitMarks, hstore.writes, hstore.bitMarks⟩
    · exact hstore

theorem Keyed.placeAll {c : Circuit} (h : c.Keyed) (nodes : List (String × Node)) :
    (c.placeAll nodes).Keyed := by
  induction nodes generalizing c with
  | nil => exact h
  | cons e rest ih => exact ih (h.place e.1 e.2)

-- ---------------------------------------------------------------------------
-- Equality
-- ---------------------------------------------------------------------------

theorem assoc_ext {α : Type} {m m' : Assoc String α} {names : List String} {a : α} (hm : m.keys = names)
    (hm' : m'.keys = names) (nodup : names.Nodup)
    (h : ∀ name, (m.get? name).getD a = (m'.get? name).getD a) : m = m' := by
  refine Assoc.ext_keys (hm.trans hm'.symm) (hm ▸ nodup) fun name hname => ?_
  obtain ⟨x, hx⟩ := Option.isSome_iff_exists.mp (Assoc.isSome_get?.mpr hname)
  obtain ⟨y, hy⟩ := Option.isSome_iff_exists.mp (Assoc.isSome_get?.mpr (hm' ▸ hm ▸ hname))
  have := h name
  simp only [hx, hy, Option.getD_some] at this
  rw [hx, hy, this]

/-- Circuits over the same distinct names are equal when they agree on every
qubit and every bit. -/
theorem Keyed.ext {c d : Circuit} (hc : c.Keyed) (hd : d.Keyed) (nodup_qubits : c.qubits.Nodup)
    (nodup_bits : c.bits.Nodup) (name : d.name = c.name) (quantum : d.quantum = c.quantum)
    (classical : d.classical = c.classical)
    (nodes : ∀ q t, d.at? q t = c.at? q t)
    (writes : ∀ b t, (d.bitWrites b).get? t = (c.bitWrites b).get? t)
    (qubitMarks : ∀ q, mark d.qubitMarks q = mark c.qubitMarks q)
    (bitMarks : ∀ b, mark d.bitMarks b = mark c.bitMarks b)
    (lastSlice : d.lastSlice = c.lastSlice) (lastMeasured : d.lastMeasured = c.lastMeasured) : d = c := by
  have hqubits : d.qubits = c.qubits := by rw [qubits, quantum, qubits]
  have hbits : d.bits = c.bits := by rw [bits, classical, bits]
  have htimelines := assoc_ext (hqubits ▸ hd.timelines) hc.timelines nodup_qubits fun q =>
    Timeline.ext_get? (nodes q)
  have hwrites := assoc_ext (hbits ▸ hd.writes) hc.writes nodup_bits fun b => Timeline.ext_get? (writes b)
  have hqubitMarks := assoc_ext (hqubits ▸ hd.qubitMarks) hc.qubitMarks nodup_qubits qubitMarks
  have hbitMarks := assoc_ext (hbits ▸ hd.bitMarks) hc.bitMarks nodup_bits bitMarks
  cases c
  cases d
  simp_all

/-- Nodes at distinct places can be placed in any order that keeps, for every
bit and timeslice, the order of the nodes that write to it there. -/
theorem Keyed.placeAll_perm {c : Circuit} (keyed : c.Keyed) (nodup_qubits : c.qubits.Nodup)
    (nodup_bits : c.bits.Nodup) {nodes nodes' : List (String × Node)} (perm : nodes.Perm nodes')
    (tracked : ∀ e ∈ nodes, c.Tracks e.1)
    (notes : ∀ e ∈ nodes, e.2.measurement = true → ∀ b ∈ e.2.bits, (c.writes.get? b).isSome)
    (apart : nodes.Pairwise fun a b => a.1 = b.1 → a.2.timeslice ≠ b.2.timeslice)
    (writers : ∀ b t, nodes.filter (fun e => e.2.WritesTo b ∧ e.2.timeslice = t) =
      nodes'.filter fun e => e.2.WritesTo b ∧ e.2.timeslice = t) :
    c.placeAll nodes = c.placeAll nodes' := by
  have tracked' : ∀ e ∈ nodes', c.Tracks e.1 := fun e he => tracked e (perm.mem_iff.mpr he)
  have notes' : ∀ e ∈ nodes', e.2.measurement = true → ∀ b ∈ e.2.bits, (c.writes.get? b).isSome :=
    fun e he => notes e (perm.mem_iff.mpr he)
  have apart' : nodes'.Pairwise fun a b => a.1 = b.1 → a.2.timeslice ≠ b.2.timeslice :=
    (perm.pairwise_iff fun hab heq => (hab heq.symm).symm).mp apart
  have hmax (p : String × Node → Bool) (m : Int) :
      ((nodes.filter p).map fun e => e.2.timeslice).foldl max m =
        ((nodes'.filter p).map fun e => e.2.timeslice).foldl max m :=
    ((perm.filter p).map _).foldl_eq m
  refine Keyed.ext (keyed.placeAll nodes') (keyed.placeAll nodes) ?_ ?_ ?_ ?_ ?_ ?_ ?_ ?_ ?_ ?_ ?_
  · rwa [qubits, placeAll_quantum]
  · rwa [bits, placeAll_classical]
  · rw [placeAll_name, placeAll_name]
  · rw [placeAll_quantum, placeAll_quantum]
  · rw [placeAll_classical, placeAll_classical]
  · intro q t
    refine Option.ext fun n => ?_
    rw [at?_placeAll tracked apart, at?_placeAll tracked' apart']
    simp only [perm.mem_iff]
  · intro b t
    have hfind (l : List (String × Node)) (p : String × Node → Bool) :
        l.reverse.find? p = (l.filter p).reverse.head? := by
      rw [← List.head?_filter, List.filter_reverse]
    rw [get?_bitWrites_placeAll tracked notes, get?_bitWrites_placeAll tracked' notes', hfind, hfind, writers]
  · intro q
    rw [mark_placeAll tracked, mark_placeAll tracked']
    exact hmax _ _
  · intro b
    rw [bitMark_placeAll tracked notes, bitMark_placeAll tracked' notes']
    exact hmax _ _
  · rw [lastSlice_placeAll tracked, lastSlice_placeAll tracked']
    exact (perm.map _).foldl_eq _
  · rw [lastMeasured_placeAll tracked, lastMeasured_placeAll tracked']
    exact hmax _ _

end Circuit

theorem Construction.keyed (k : Construction) : k.circuit.Keyed := by
  refine (k.induct (Circuit.keyed_new k.name) ?_).2
  intro done s c h fresh counted hc
  cases s with
  | quantum r =>
    have := (h.wellFormed.declareQubits fresh).nodup_qubits
    refine hc.declareQubits ?_
    simpa [Circuit.qubits, Circuit.declareQubits] using this
  | classical r =>
    have := (h.wellFormed.declareBits fresh).nodup_bits
    refine hc.declareBits ?_
    simpa [Circuit.bits, Circuit.declareBits] using this
  | call call =>
    cases hcall : c.perform call with
    | error e =>
      rw [BuildStep.apply_of_error hcall]
      exact hc
    | ok next =>
      rw [BuildStep.apply_of_ok hcall]
      obtain ⟨nodes, -, -, rfl⟩ := Circuit.perform_ok hcall
      exact hc.placeAll nodes

end Sequencer
