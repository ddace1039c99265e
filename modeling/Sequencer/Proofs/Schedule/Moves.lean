import Sequencer.Proofs.Checked
import Sequencer.Proofs.Circuit.Construction
import Sequencer.Proofs.Circuit.Visits
import Sequencer.Schedule.Strategy

/-!
# Moves

Rescheduling succeeds on a well-formed circuit whose register names have no
comma, and amounts to a list of moves, one per node. A move either follows an
earlier node of the same gate instance or takes the timeslice its strategy
chooses; `Strategy.Moves` says so rule by rule, without the circuit that is
being filled and without the keys under which instances are remembered.
-/

namespace Sequencer

-- ---------------------------------------------------------------------------
-- Instances
-- ---------------------------------------------------------------------------

namespace Visit

def SameInstance (a b : Visit) : Prop := a.1 = b.1 ∧ a.participants.Perm b.participants

theorem SameInstance.symm {a b : Visit} (h : a.SameInstance b) : b.SameInstance a :=
  ⟨h.1.symm, h.2.symm⟩

theorem SameInstance.trans {a b c : Visit} (h : a.SameInstance b) (h' : b.SameInstance c) :
    a.SameInstance c :=
  ⟨h.1.trans h'.1, h.2.trans h'.2⟩

theorem SameInstance.isMultiQubit {a b : Visit} (h : a.SameInstance b) (ahead : a.Before b) :
    a.2.2.isMultiQubit = true := by
  cases hp : a.2.2.partners with
  | cons p rest => simp [Node.isMultiQubit, hp]
  | nil =>
    exfalso
    have hperm := h.2
    have hmem : b.2.1 ∈ a.participants := hperm.mem_iff.mpr List.mem_cons_self
    simp only [participants, hp, List.mem_singleton] at hmem
    rcases ahead with hlt | ⟨-, hne⟩
    · have := h.1
      omega
    · exact hne hmem.symm

end Visit

def Visit.key (v : Visit) : InstanceKey := .of v.2.1 v.1 v.2.2

theorem Visit.key_eq (v : Visit) :
    v.key = ⟨v.1, ",".intercalate (v.participants.mergeSort fun a b => a ≤ b)⟩ := by
  cases hp : v.2.2.partners with
  | nil => simp [key, InstanceKey.of, Node.isMultiQubit, participants, hp]
  | cons p rest => simp [key, InstanceKey.of, Node.isMultiQubit, participants, hp]

theorem intercalate_comma_injective {a b : List String} (ha : ∀ s ∈ a, ',' ∉ s.toList)
    (hb : ∀ s ∈ b, ',' ∉ s.toList) (hane : a ≠ []) (hbne : b ≠ [])
    (h : ",".intercalate a = ",".intercalate b) : a = b := by
  have hl := congrArg String.toList h
  rw [String.toList_intercalate, String.toList_intercalate] at hl
  have hsplit := congrArg (List.splitOn ',') hl
  have hcomma : ",".toList = [','] := rfl
  rw [hcomma, List.splitOn_intercalate _ (by simpa using ha) (by simpa using hane),
    List.splitOn_intercalate _ (by simpa using hb) (by simpa using hbne)] at hsplit
  exact List.map_injective_iff.mpr (fun s t hst => String.toList_inj.mp hst) hsplit

theorem mergeSort_eq_iff_perm {a b : List String} :
    (a.mergeSort fun x y => x ≤ y) = (b.mergeSort fun x y => x ≤ y) ↔ a.Perm b := by
  constructor
  · intro h
    exact (List.mergeSort_perm a _).symm.trans (h ▸ List.mergeSort_perm b _)
  · intro h
    have hsorted (l : List String) :
        (l.mergeSort fun x y => x ≤ y).Pairwise fun x y => decide (x ≤ y) = true :=
      List.pairwise_mergeSort (by simpa using fun _ _ _ => String.le_trans)
        (by simpa using String.le_total) l
    refine List.Perm.eq_of_pairwise ?_ (hsorted a) (hsorted b)
      ((List.mergeSort_perm a _).trans (h.trans (List.mergeSort_perm b _).symm))
    intro x y _ _ hxy hyx
    exact String.le_antisymm (by simpa using hxy) (by simpa using hyx)

/-- Without commas in names, a key stands for one instance. -/
theorem Visit.key_eq_iff {a b : Visit} (ha : ∀ q ∈ a.participants, ',' ∉ q.toList)
    (hb : ∀ q ∈ b.participants, ',' ∉ q.toList) : a.key = b.key ↔ a.SameInstance b := by
  have hne (v : Visit) : (v.participants.mergeSort fun x y => x ≤ y) ≠ [] := by
    intro hnil
    have hlen := congrArg List.length hnil
    simp [participants] at hlen
  rw [key_eq, key_eq, InstanceKey.mk.injEq, SameInstance, ← mergeSort_eq_iff_perm]
  refine and_congr_right fun _ => ⟨fun h => ?_, fun h => by rw [h]⟩
  exact intercalate_comma_injective (by simpa using ha) (by simpa using hb) (hne a) (hne b) h

-- ---------------------------------------------------------------------------
-- Runs of a strategy
-- ---------------------------------------------------------------------------

structure Move where
  visit : Visit
  slot : Int

def Move.placed (m : Move) : String × Node := (m.visit.2.1, { m.visit.2.2 with timeslice := m.slot })

theorem Move.forall_concat {P : Move → Prop} {moves : List Move} {a : Move} (hold : ∀ b ∈ moves, P b)
    (hnew : P a) : ∀ b ∈ moves ++ [a], P b :=
  List.forall_mem_append.mpr ⟨hold, List.forall_mem_singleton.mpr hnew⟩

/-- The lists of moves a strategy can make on a circuit, with its memory after
them. -/
inductive Strategy.Moves (c : Circuit) (s : Strategy σ) : List Move → σ → Prop where
  | start : Moves c s [] s.start
  /-- A later node of an instance goes where an earlier one went. -/
  | follow : Moves c s moves memory → v ∈ c.visits → (∀ a ∈ moves, a.visit.Before v) →
      first ∈ moves → first.visit.SameInstance v →
      Moves c s (moves ++ [⟨v, first.slot⟩]) (s.moved memory v.2.1 v.1 first.slot)
  /-- The first node of an instance goes where the strategy says. -/
  | choose : Moves c s moves memory → v ∈ c.visits → (∀ a ∈ moves, a.visit.Before v) →
      (∀ a ∈ moves, ¬ a.visit.SameInstance v) →
      s.choose memory v.2.1 v.1 v.2.2 = (slot, memory') →
      Moves c s (moves ++ [⟨v, slot⟩]) (s.moved memory' v.2.1 v.1 slot)

/-- What is remembered about instances: where some node of them went, for
every instance of several qubits that was met. -/
structure Remembers (chosen : Assoc InstanceKey Int) (moves : List Move) : Prop where
  sound : ∀ {key slot}, chosen.get? key = some slot →
    ∃ m ∈ moves, m.visit.key = key ∧ m.slot = slot
  complete : ∀ m ∈ moves, m.visit.2.2.isMultiQubit = true → chosen.get? m.visit.key ≠ none

theorem Remembers.nil : Remembers {} [] where
  sound h := by simp [Assoc.get?, Assoc.find] at h
  complete m hm := by cases hm

theorem Remembers.snoc {chosen : Assoc InstanceKey Int} {moves : List Move}
    (h : Remembers chosen moves) (m : Move) :
    Remembers (if m.visit.2.2.isMultiQubit then chosen.insert m.visit.key m.slot else chosen)
      (moves ++ [m]) := by
  constructor
  · intro key slot hk
    split at hk
    · rw [Assoc.get?_insert] at hk
      split at hk
      · cases hk
        exact ⟨m, by simp, by assumption, rfl⟩
      · obtain ⟨a, ha, hkey⟩ := h.sound hk
        exact ⟨a, List.mem_append_left _ ha, hkey⟩
    · obtain ⟨a, ha, hkey⟩ := h.sound hk
      exact ⟨a, List.mem_append_left _ ha, hkey⟩
  · intro a ha hmulti
    rcases List.mem_append.mp ha with ha | ha
    · have hold := h.complete a ha hmulti
      split
      · rw [Assoc.get?_insert]
        split
        · simp
        · exact hold
      · exact hold
    · rw [List.mem_singleton.mp ha] at hmulti ⊢
      simp [hmulti]

namespace Circuit

def CommaFree (c : Circuit) : Prop := ∀ r ∈ c.quantum, ',' ∉ r.name.toList

instance (c : Circuit) : Decidable c.CommaFree := inferInstanceAs (Decidable (∀ r ∈ c.quantum, _))

theorem CommaFree.notMem {c : Circuit} (h : c.CommaFree) {q : String} (hq : q ∈ c.qubits) :
    ',' ∉ q.toList := by
  obtain ⟨r, hr, hrq⟩ := List.mem_flatMap.mp hq
  obtain ⟨i, -, rfl⟩ := mem_elements.mp hrq
  exact notMem_elementName (by decide) (by decide) (by decide) (h r hr) i

theorem placeAll_concat (c : Circuit) (nodes : List (String × Node)) (e : String × Node) :
    c.placeAll (nodes ++ [e]) = ((c.placeAll nodes).place e.1 e.2).1 := by
  simp [placeAll]

section
variable {c : Circuit} {s : Strategy σ} {r : Rescheduling σ} {moves : List Move} {v : Visit}
  {rest : List Visit}

structure Follows (c : Circuit) (s : Strategy σ) (moves : List Move) (r : Rescheduling σ) : Prop where
  run : s.Moves c moves r.memory
  circuit : r.circuit = c.skeleton.placeAll (moves.map Move.placed)
  chosen : Remembers r.chosen moves

theorem Follows.place_ok (h : c.WellFormed) (hf : c.Follows s moves r)
    (hvisits : c.visits = moves.map Move.visit ++ v :: rest) (slot : Int) :
    r.circuit.place v.2.1 { v.2.2 with timeslice := slot } =
      (c.skeleton.placeAll ((moves ++ [Move.mk v slot]).map Move.placed), none) := by
  have blank := h.skeleton
  have hv : v ∈ c.visits := by simp [hvisits]
  have hq : c.skeleton.qubits = c.qubits := by simp only [qubits, blank.quantum_eq]
  have hb : c.skeleton.bits = c.bits := by simp only [bits, blank.classical_eq]
  have tracked : ∀ e ∈ moves.map Move.placed, c.skeleton.Tracks e.1 := by
    intro e he
    obtain ⟨m, hm, rfl⟩ := List.mem_map.mp he
    rw [blank.wellFormed.tracks, hq]
    exact h.mem_qubits (h.mem_visits.mp (hvisits ▸ List.mem_append_left _ (List.mem_map_of_mem hm)))
  refine Prod.ext ?_ ?_
  · rw [List.map_append, hf.circuit]
    exact (placeAll_concat c.skeleton (moves.map Move.placed) (Move.mk v slot).placed).symm
  · refine place_snd ?_ fun hm b hbit => ?_
    · rw [hf.circuit, placeAll_tracks tracked, blank.wellFormed.tracks, hq]
      exact h.mem_qubits (h.mem_visits.mp hv)
    · rw [hf.circuit, placeAll_writes, blank.wellFormed.notes, hb]
      exact (h.measured (h.mem_visits.mp hv) hm).2.2.2 b hbit

theorem visit_ok (hslot : s.slotOf r v.2.1 v.1 v.2.2 = (slot, memory))
    (hplace : r.circuit.place v.2.1 { v.2.2 with timeslice := slot } = (next, none)) :
    s.visit r v.2.1 v.1 v.2.2 = .ok
      { circuit := next
        memory := s.moved memory v.2.1 v.1 slot
        chosen := if v.2.2.isMultiQubit then r.chosen.insert v.key slot else r.chosen } := by
  simp only [Strategy.visit, hslot, hplace]
  rfl

theorem Follows.visit (h : c.WellFormed) (comma : c.CommaFree) (hf : c.Follows s moves r)
    (hvisits : c.visits = moves.map Move.visit ++ v :: rest) :
    ∃ slot r', s.visit r v.2.1 v.1 v.2.2 = .ok r' ∧ c.Follows s (moves ++ [⟨v, slot⟩]) r' := by
  have hv : v ∈ c.visits := by simp [hvisits]
  have hmem : ∀ a ∈ moves, a.visit ∈ c.visits := fun a ha =>
    hvisits ▸ List.mem_append_left _ (List.mem_map_of_mem ha)
  have ahead : ∀ a ∈ moves, a.visit.Before v := by
    intro a ha
    have hordered := h.visits_ordered
    rw [hvisits] at hordered
    exact (List.pairwise_append.mp hordered).2.2 _ (List.mem_map_of_mem ha) _ List.mem_cons_self
  have hkey : ∀ a ∈ moves, a.visit.key = v.key ↔ a.visit.SameInstance v := fun a ha =>
    Visit.key_eq_iff (fun q hq => comma.notMem (h.mem_participants (hmem a ha) hq))
      (fun q hq => comma.notMem (h.mem_participants hv hq))
  cases hc : r.chosen.get? v.key with
  | some slot =>
    obtain ⟨first, hfirst, hsame, rfl⟩ := hf.chosen.sound hc
    have hslot : s.slotOf r v.2.1 v.1 v.2.2 = (first.slot, r.memory) := by
      simp only [Strategy.slotOf]
      rw [show r.chosen.get? (.of v.2.1 v.1 v.2.2) = some first.slot from hc]
    exact ⟨first.slot, _, visit_ok hslot (hf.place_ok h hvisits _),
      .follow hf.run hv ahead hfirst ((hkey first hfirst).mp hsame), rfl,
      hf.chosen.snoc ⟨v, first.slot⟩⟩
  | none =>
    have hslot : s.slotOf r v.2.1 v.1 v.2.2 = s.choose r.memory v.2.1 v.1 v.2.2 := by
      simp only [Strategy.slotOf]
      rw [show r.chosen.get? (.of v.2.1 v.1 v.2.2) = none from hc]
    have hnew : ∀ a ∈ moves, ¬ a.visit.SameInstance v := by
      intro a ha hsame
      have hk := (hkey a ha).mpr hsame
      exact hf.chosen.complete a ha (hsame.isMultiQubit (ahead a ha)) (hk ▸ hc)
    exact ⟨_, _, visit_ok hslot (hf.place_ok h hvisits _), .choose hf.run hv ahead hnew rfl, rfl,
      hf.chosen.snoc ⟨v, _⟩⟩

end

/-- Rescheduling a circuit moves each of its nodes once, as its strategy can. -/
theorem WellFormed.reschedule_moves {c : Circuit} (h : c.WellFormed) (comma : c.CommaFree) (s : Strategy σ) :
    ∃ moves memory, s.Moves c moves memory ∧ moves.map Move.visit = c.visits ∧
      c.reschedule s = .ok (c.skeleton.placeAll (moves.map Move.placed)) := by
  obtain ⟨r, hr, moves, hvisits, hf⟩ := foldlM_succeeds
    (P := fun done r => ∃ moves, moves.map Move.visit = done ∧ c.Follows s moves r)
    (f := fun r v => s.visit r v.2.1 v.1 v.2.2) (l := c.visits)
    (b := { circuit := c.skeleton, memory := s.start })
    ⟨[], rfl, .start, rfl, .nil⟩
    (fun done v rest r hl ⟨moves, hdone, hf⟩ => by
      obtain ⟨slot, r', hr', hf'⟩ := hf.visit h comma (hdone ▸ hl)
      exact ⟨r', hr', _, by simp [hdone], hf'⟩)
  refine ⟨moves, r.memory, hf.run, hvisits, ?_⟩
  simp only [reschedule, bind_eq_ok, pure_eq_ok]
  exact ⟨r, hr, hf.circuit⟩

end Circuit
end Sequencer
