import Sequencer.Proofs.Circuit.ElementNames
import Sequencer.Proofs.Circuit.Placement

/-!
# Well-formed circuits

What builder calls keep true of a circuit: declared names and only those have
timelines, every node lies at its own timeslice below the marks, and the nodes
of a gate on several qubits stand at one timeslice and agree on the gate. Every
node is a target of its own, but for those of a controlled gate, of which one is.

Placing the nodes of one call keeps this; what such nodes look like is
`Placed`, so a builder call only has to be shown to place nodes of that kind.
-/

namespace Sequencer

structure Node.SameOperation (a b : Node) : Prop where
  gate : a.gate = b.gate
  params : a.params = b.params
  controlled : a.controlled = b.controlled
  measurement : a.measurement = b.measurement
  reset : a.reset = b.reset
  barrier : a.barrier = b.barrier
  cond : a.cond = b.cond

theorem Node.SameOperation.refl (n : Node) : n.SameOperation n := ⟨rfl, rfl, rfl, rfl, rfl, rfl, rfl⟩

theorem Node.SameOperation.symm {a b : Node} (h : a.SameOperation b) : b.SameOperation a :=
  ⟨h.gate.symm, h.params.symm, h.controlled.symm, h.measurement.symm, h.reset.symm, h.barrier.symm,
    h.cond.symm⟩

namespace Circuit

structure WellFormed (c : Circuit) : Prop where
  quantum_names : (c.quantum.map Register.name).Nodup
  classical_names : (c.classical.map Register.name).Nodup
  tracks : ∀ q, c.Tracks q ↔ q ∈ c.qubits
  notes : ∀ b, (c.writes.get? b).isSome ↔ b ∈ c.bits
  mark_nonneg : ∀ q, 0 ≤ mark c.qubitMarks q
  mark_le : ∀ q, mark c.qubitMarks q ≤ c.lastSlice
  measured_nonneg : 0 ≤ c.lastMeasured
  measured_le : c.lastMeasured ≤ c.lastSlice
  slice : ∀ {q t n}, c.at? q t = some n → n.timeslice = t ∧ 1 ≤ t ∧ t ≤ mark c.qubitMarks q
  measured : ∀ {q t n}, c.at? q t = some n → n.measurement = true →
    t ≤ c.lastMeasured ∧ n.partners = [] ∧ n.barrier = false ∧ ∀ b ∈ n.bits, b ∈ c.bits
  controlled : ∀ {q t n}, c.at? q t = some n → n.controlled = true → n.partners ≠ []
  participants : ∀ {q t n}, c.at? q t = some n → (q :: n.partners).Nodup ∧
    ∀ p ∈ n.partners, ∃ m, c.at? p t = some m ∧ m.SameOperation n ∧
      (p :: m.partners).Perm (q :: n.partners)
  target : ∀ {q t n}, c.at? q t = some n → n.controlled = false → n.target = true
  one_target : ∀ {q t n}, c.at? q t = some n → n.controlled = true →
    ∃! p, p ∈ q :: n.partners ∧ ∃ m, c.at? p t = some m ∧ m.target = true

namespace WellFormed
variable {c : Circuit} (h : c.WellFormed)
include h

theorem nodup_qubits : c.qubits.Nodup := nodup_flatMap_elements h.quantum_names

theorem nodup_bits : c.bits.Nodup := nodup_flatMap_elements h.classical_names

theorem qubitIndex_eq {q : String} (hq : q ∈ c.qubits) : c.qubitIndex q = .ok (c.position q) :=
  Circuit.qubitIndex_eq h.nodup_qubits hq

theorem lastSlice_nonneg : 0 ≤ c.lastSlice := Int.le_trans h.measured_nonneg h.measured_le

theorem mem_qubits {q : String} {t : Int} {n : Node} (hn : c.at? q t = some n) : q ∈ c.qubits := by
  refine (h.tracks q).mp (Classical.byContradiction fun hq => ?_)
  rw [at?_of_not_tracks hq t] at hn
  cases hn

theorem slice_le {q : String} {t : Int} {n : Node} (hn : c.at? q t = some n) : t ≤ c.lastSlice :=
  Int.le_trans (h.slice hn).2.2 (h.mark_le q)

end WellFormed

-- ---------------------------------------------------------------------------
-- Declarations
-- ---------------------------------------------------------------------------

theorem get?_foldl_insert {α : Type} (names : List String) (m : Assoc String α) (a : α) (p : String) :
    (names.foldl (fun m q => m.insert q a) m).get? p = if p ∈ names then some a else m.get? p := by
  induction names generalizing m with
  | nil => rfl
  | cons q rest ih =>
    rw [List.foldl_cons, ih, Assoc.get?_insert]
    by_cases hr : p ∈ rest
    · simp [hr]
    · by_cases hq : q = p
      · simp [hq]
      · simp [hr, hq, Ne.symm hq]

theorem at?_declareQubits {c : Circuit} {r : Register} (h : c.WellFormed)
    (fresh : ∀ s ∈ c.quantum, s.name ≠ r.name) (q : String) (t : Int) :
    (c.declareQubits r.name r.size).at? q t = c.at? q t := by
  simp only [at?, timeline, declareQubits, get?_foldl_insert]
  split
  · rename_i hq
    have hout : ¬ c.Tracks q := by
      rw [h.tracks, qubits, List.mem_flatMap]
      rintro ⟨s, hs, hsq⟩
      exact fresh s hs (name_eq_of_mem_elements hsq hq)
    have hnone : c.timelines.get? q = none := by simpa [Tracks] using hout
    simp [hnone]
  · rfl

theorem bitWrites_declareBits {c : Circuit} {r : Register} (h : c.WellFormed)
    (fresh : ∀ s ∈ c.classical, s.name ≠ r.name) (b : String) :
    (c.declareBits r.name r.size).bitWrites b = c.bitWrites b := by
  simp only [bitWrites, declareBits, get?_foldl_insert]
  split
  · rename_i hb
    have hout : ¬ (c.writes.get? b).isSome := by
      rw [h.notes, bits, List.mem_flatMap]
      rintro ⟨s, hs, hsb⟩
      exact fresh s hs (name_eq_of_mem_elements hsb hb)
    simp [Option.not_isSome_iff_eq_none.mp hout]
  · rfl

theorem nodup_names_concat {registers : List Register} {r : Register}
    (h : (registers.map Register.name).Nodup) (fresh : ∀ s ∈ registers, s.name ≠ r.name) :
    ((registers ++ [r]).map Register.name).Nodup := by
  rw [List.map_append, List.map_singleton]
  refine h.append (List.nodup_singleton _) ?_
  intro name hn hr
  obtain ⟨s, hs, rfl⟩ := List.mem_map.mp hn
  exact fresh s hs (by simpa using hr)

theorem mark_declareQubits (c : Circuit) (r : Register) (q : String) :
    mark (c.declareQubits r.name r.size).qubitMarks q = if q ∈ r.elements then 0 else mark c.qubitMarks q := by
  simp only [mark, Circuit.declareQubits, get?_foldl_insert]
  split <;> rfl

theorem WellFormed.tracks_declareQubits {c : Circuit} (h : c.WellFormed) (r : Register) (q : String) :
    (c.declareQubits r.name r.size).Tracks q ↔ q ∈ (c.declareQubits r.name r.size).qubits := by
  have hqubits : (c.declareQubits r.name r.size).qubits = c.qubits ++ r.elements := by
    simp [qubits, Circuit.declareQubits]
  have ht := h.tracks q
  rw [hqubits, List.mem_append]
  simp only [Tracks, Circuit.declareQubits, get?_foldl_insert] at ht ⊢
  split
  · simp [*]
  · rename_i hq
    simpa [hq] using ht

theorem WellFormed.slice_declareQubits {c : Circuit} {r : Register} (h : c.WellFormed)
    (fresh : ∀ s ∈ c.quantum, s.name ≠ r.name) {q : String} {t : Int} {n : Node} (hn : c.at? q t = some n) :
    n.timeslice = t ∧ 1 ≤ t ∧ t ≤ mark (c.declareQubits r.name r.size).qubitMarks q := by
  obtain ⟨hslice, hpos, hmark⟩ := h.slice hn
  have hold : q ∉ r.elements := by
    intro hq
    obtain ⟨s, hs, hsq⟩ := List.mem_flatMap.mp (h.mem_qubits hn)
    exact fresh s hs (name_eq_of_mem_elements hsq hq)
  rw [mark_declareQubits, if_neg hold]
  exact ⟨hslice, hpos, hmark⟩

theorem WellFormed.declareQubits {c : Circuit} {r : Register} (h : c.WellFormed)
    (fresh : ∀ s ∈ c.quantum, s.name ≠ r.name) : (c.declareQubits r.name r.size).WellFormed := by
  have hat := at?_declareQubits h fresh
  have hlast : (c.declareQubits r.name r.size).lastSlice = c.lastSlice := rfl
  exact
    { quantum_names := nodup_names_concat h.quantum_names fresh
      classical_names := h.classical_names
      tracks := h.tracks_declareQubits r
      notes := h.notes
      mark_nonneg := by
        intro q
        have := h.mark_nonneg q
        rw [mark_declareQubits]
        split <;> omega
      mark_le := by
        intro q
        have := h.mark_le q
        have := h.lastSlice_nonneg
        rw [mark_declareQubits]
        split <;> omega
      measured_nonneg := h.measured_nonneg
      measured_le := h.measured_le
      slice := fun hn => h.slice_declareQubits fresh (hat _ _ ▸ hn)
      measured := fun hn => h.measured (hat _ _ ▸ hn)
      controlled := fun hn => h.controlled (hat _ _ ▸ hn)
      participants := by
        intro q t n hn
        simp only [hat] at hn ⊢
        exact h.participants hn
      target := fun hn => h.target (hat _ _ ▸ hn)
      one_target := by
        intro q t n hn
        simp only [hat] at hn ⊢
        exact h.one_target hn }

theorem WellFormed.declareBits {c : Circuit} {r : Register} (h : c.WellFormed)
    (fresh : ∀ s ∈ c.classical, s.name ≠ r.name) : (c.declareBits r.name r.size).WellFormed := by
  have hbits : (c.declareBits r.name r.size).bits = c.bits ++ r.elements := by
    simp [bits, Circuit.declareBits]
  have hat (q : String) (t : Int) : (c.declareBits r.name r.size).at? q t = c.at? q t := rfl
  refine
    { quantum_names := h.quantum_names
      classical_names := nodup_names_concat h.classical_names fresh
      tracks := h.tracks
      notes := ?_
      mark_nonneg := h.mark_nonneg
      mark_le := h.mark_le
      measured_nonneg := h.measured_nonneg
      measured_le := h.measured_le
      slice := h.slice
      measured := ?_
      controlled := h.controlled
      participants := h.participants
      target := h.target
      one_target := h.one_target }
  · intro b
    have hn := h.notes b
    rw [hbits, List.mem_append]
    simp only [Circuit.declareBits, get?_foldl_insert]
    split
    · simp [*]
    · rename_i hb
      simpa [hb] using hn
  · intro q t n hn hm
    obtain ⟨h1, h2, h3, h4⟩ := h.measured (hat q t ▸ hn) hm
    refine ⟨h1, h2, h3, fun b hb => ?_⟩
    rw [hbits]
    exact List.mem_append_left _ (h4 b hb)

theorem wellFormed_new (name : String) : ({ name := name } : Circuit).WellFormed where
  quantum_names := List.nodup_nil
  classical_names := List.nodup_nil
  tracks q := by simp [Tracks, qubits, Assoc.get?, Assoc.find]
  notes b := by simp [bits, Assoc.get?, Assoc.find]
  mark_nonneg q := by simp [mark, Assoc.get?, Assoc.find]
  mark_le q := by simp [mark, Assoc.get?, Assoc.find]
  measured_nonneg := Int.le_refl 0
  measured_le := Int.le_refl 0
  slice h := by cases h
  measured h := by cases h
  controlled h := by cases h
  participants h := by cases h
  target h := by cases h
  one_target h := by cases h

-- ---------------------------------------------------------------------------
-- Circuits without operations
-- ---------------------------------------------------------------------------

structure Blank (c : Circuit) (quantum classical : List Register) : Prop where
  wellFormed : c.WellFormed
  quantum_eq : c.quantum = quantum
  classical_eq : c.classical = classical
  empty : ∀ q t, c.at? q t = none
  lastSlice_eq : c.lastSlice = 0
  lastMeasured_eq : c.lastMeasured = 0

theorem Blank.declareQubits {c : Circuit} {quantum classical : List Register}
    (h : c.Blank quantum classical) (registers : List Register)
    (fresh : ((quantum ++ registers).map Register.name).Nodup) :
    (registers.foldl (fun c r => c.declareQubits r.name r.size) c).Blank
      (quantum ++ registers) classical := by
  induction registers generalizing c quantum with
  | nil => simpa using h
  | cons r rest ih =>
    have hr : ∀ s ∈ c.quantum, s.name ≠ r.name := by
      intro s hs heq
      rw [h.quantum_eq] at hs
      rw [List.map_append] at fresh
      exact (List.nodup_append.mp fresh).2.2 _ (List.mem_map_of_mem hs) _ (by simp) heq
    have hnext : (c.declareQubits r.name r.size).Blank (quantum ++ [r]) classical :=
      { wellFormed := h.wellFormed.declareQubits hr
        quantum_eq := by simp [Circuit.declareQubits, h.quantum_eq]
        classical_eq := h.classical_eq
        empty := fun q t => by rw [at?_declareQubits h.wellFormed hr, h.empty]
        lastSlice_eq := h.lastSlice_eq
        lastMeasured_eq := h.lastMeasured_eq }
    simpa using ih hnext (by simpa using fresh)

theorem Blank.declareBits {c : Circuit} {quantum classical : List Register}
    (h : c.Blank quantum classical) (registers : List Register)
    (fresh : ((classical ++ registers).map Register.name).Nodup) :
    (registers.foldl (fun c r => c.declareBits r.name r.size) c).Blank
      quantum (classical ++ registers) := by
  induction registers generalizing c classical with
  | nil => simpa using h
  | cons r rest ih =>
    have hr : ∀ s ∈ c.classical, s.name ≠ r.name := by
      intro s hs heq
      rw [h.classical_eq] at hs
      rw [List.map_append] at fresh
      exact (List.nodup_append.mp fresh).2.2 _ (List.mem_map_of_mem hs) _ (by simp) heq
    have hnext : (c.declareBits r.name r.size).Blank quantum (classical ++ [r]) :=
      { wellFormed := h.wellFormed.declareBits hr
        quantum_eq := h.quantum_eq
        classical_eq := by simp [Circuit.declareBits, h.classical_eq]
        empty := h.empty
        lastSlice_eq := h.lastSlice_eq
        lastMeasured_eq := h.lastMeasured_eq }
    simpa using ih hnext (by simpa using fresh)

theorem blank_new (name : String) : ({ name := name } : Circuit).Blank [] [] :=
  ⟨wellFormed_new name, rfl, rfl, fun _ _ => rfl, rfl, rfl⟩

theorem WellFormed.skeleton {c : Circuit} (h : c.WellFormed) :
    c.skeleton.Blank c.quantum c.classical := by
  have hquantum := (blank_new c.name).declareQubits c.quantum (by simpa using h.quantum_names)
  simpa [Circuit.skeleton, ofRegisters] using
    hquantum.declareBits c.classical (by simpa using h.classical_names)

/-- What holds of a circuit without registers, and of each declaration of a new
one, holds of empty registers. -/
theorem WellFormed.skeleton_induct {c : Circuit} (h : c.WellFormed) {P : Circuit → Prop} (start : P { name := c.name })
    (quantum : ∀ {d : Circuit} {r : Register}, d.WellFormed → (∀ s ∈ d.quantum, s.name ≠ r.name) → P d →
      P (d.declareQubits r.name r.size))
    (classical : ∀ {d : Circuit} {r : Register}, d.WellFormed → (∀ s ∈ d.classical, s.name ≠ r.name) → P d →
      P (d.declareBits r.name r.size)) : P c.skeleton := by
  have apart {l₁ l₂ : List Register} {r : Register} (hnodup : ((l₁ ++ r :: l₂).map Register.name).Nodup) :
      ∀ s ∈ l₁, s.name ≠ r.name := by
    rw [List.map_append] at hnodup
    intro s hs heq
    exact (List.nodup_append.mp hnodup).2.2 _ (List.mem_map_of_mem hs) _ (by simp) heq
  have hquantum (registers : List Register) : ∀ d : Circuit, d.WellFormed → P d →
      ((d.quantum ++ registers).map Register.name).Nodup →
      (registers.foldl (fun d r => d.declareQubits r.name r.size) d).WellFormed ∧
        (registers.foldl (fun d r => d.declareQubits r.name r.size) d).classical = d.classical ∧
        P (registers.foldl (fun d r => d.declareQubits r.name r.size) d) := by
    induction registers with
    | nil => exact fun d wf hd _ => ⟨wf, rfl, hd⟩
    | cons r rest ih =>
      intro d wf hd hnodup
      exact ih _ (wf.declareQubits (apart hnodup)) (quantum wf (apart hnodup) hd)
        (by simpa [Circuit.declareQubits] using hnodup)
  have hclassical (registers : List Register) : ∀ d : Circuit, d.WellFormed → P d →
      ((d.classical ++ registers).map Register.name).Nodup →
      P (registers.foldl (fun d r => d.declareBits r.name r.size) d) := by
    induction registers with
    | nil => exact fun d _ hd _ => hd
    | cons r rest ih =>
      intro d wf hd hnodup
      exact ih _ (wf.declareBits (apart hnodup)) (classical wf (apart hnodup) hd)
        (by simpa [Circuit.declareBits] using hnodup)
  obtain ⟨wf, hnone, hd⟩ := hquantum c.quantum _ (wellFormed_new c.name) start (by simpa using h.quantum_names)
  exact hclassical c.classical _ wf hd (by rw [hnone]; exact h.classical_names)

end Circuit
end Sequencer
