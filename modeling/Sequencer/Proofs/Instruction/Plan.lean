import Sequencer.Proofs.Circuit.Visits
import Sequencer.Proofs.Instruction.Groups
import Sequencer.Proofs.Instruction.SliceBuffers
import Sequencer.Proofs.Timelines

/-!
# What a circuit is encoded to

The contents of the timeslices of a program, read off the visits of the
circuit without running the encoder: every visit has at most one group, in its
own timeslice, and the measurements fall into batches, each closed by a visit
that waits for it and written at its last timeslice. Encoding that succeeds
writes exactly these contents: its buffers hold those of the visits so far, and
are closed for the timeslices that have ended.
-/

namespace Sequencer

-- ---------------------------------------------------------------------------
-- Batches
-- ---------------------------------------------------------------------------

namespace Visit

def isMeasured (v : Visit) : Bool := v.2.2.measurement && !v.2.2.barrier

def waits (v : Visit) : Bool := Emission.needsMeasured v.2.2

end Visit

structure Batches where
  closed : List (List Visit) := []
  current : List Visit := []

namespace Batches

def close (b : Batches) : Batches :=
  if b.current.isEmpty then b else ⟨b.closed ++ [b.current], []⟩

def measure (b : Batches) (v : Visit) : Batches :=
  if v.isMeasured then { b with current := b.current ++ [v] } else b

def visit (b : Batches) (v : Visit) : Batches := (if v.waits then b.close else b).measure v

def ofVisits (vs : List Visit) : Batches := vs.foldl visit {}

def slice (batch : List Visit) : Int := (batch.map Prod.fst).foldl max 0

theorem ofVisits_concat (vs : List Visit) (v : Visit) :
    ofVisits (vs ++ [v]) = (ofVisits vs).visit v := by
  simp [ofVisits]

theorem slice_concat (batch : List Visit) (v : Visit) : slice (batch ++ [v]) = max (slice batch) v.1 := by
  simp [slice]

theorem slice_le {batch : List Visit} {t : Int} (ht : 0 ≤ t) (h : ∀ v ∈ batch, v.1 ≤ t) :
    slice batch ≤ t :=
  foldl_max_le ht (List.forall_mem_map.mpr h)

theorem le_slice {batch : List Visit} {v : Visit} (h : v ∈ batch) : v.1 ≤ slice batch :=
  le_foldl_max_of_mem (List.mem_map_of_mem h)

theorem exists_slice_eq {batch : List Visit} (hne : batch ≠ []) (hpos : ∀ v ∈ batch, 1 ≤ v.1) :
    ∃ v ∈ batch, v.1 = slice batch := by
  rcases foldl_max_mem 0 (batch.map Prod.fst) with h | h
  · obtain ⟨v, hv⟩ := List.exists_mem_of_ne_nil _ hne
    have h1 := hpos v hv
    have h2 := le_slice hv
    simp only [slice] at h2
    omega
  · obtain ⟨v, hv, heq⟩ := List.mem_map.mp h
    exact ⟨v, hv, heq⟩

def measurements (b : Batches) : List Visit := b.closed.flatten ++ b.current

theorem close_current (b : Batches) : b.close.current = [] := by
  cases h : b.current <;> simp [close, h]

theorem measurements_close (b : Batches) : b.close.measurements = b.measurements := by
  cases h : b.current <;> simp [close, measurements, h]

theorem measurements_visit (b : Batches) (v : Visit) :
    (b.visit v).measurements = b.measurements ++ [v].filter Visit.isMeasured := by
  have hstep (b : Batches) :
      (b.measure v).measurements = b.measurements ++ [v].filter Visit.isMeasured := by
    cases h : v.isMeasured <;> simp [measure, measurements, h]
  rw [visit, hstep]
  split
  · rw [measurements_close]
  · rfl

theorem measurements_foldl (b : Batches) (vs : List Visit) :
    (vs.foldl visit b).measurements = b.measurements ++ vs.filter Visit.isMeasured := by
  induction vs generalizing b with
  | nil => simp
  | cons v rest ih =>
    rw [List.foldl_cons, ih, measurements_visit, List.append_assoc, ← List.filter_append,
      List.singleton_append]

theorem flatten_close_ofVisits (vs : List Visit) :
    (ofVisits vs).close.closed.flatten = vs.filter Visit.isMeasured := by
  have h := measurements_foldl {} vs
  have hclose := measurements_close (ofVisits vs)
  simp only [measurements, close_current, List.append_nil] at h hclose
  exact hclose.trans h

def Filled (b : Batches) : Prop := ∀ batch ∈ b.closed, batch ≠ []

theorem Filled.close {b : Batches} (h : b.Filled) : b.close.Filled := by
  cases hb : b.current with
  | nil => simpa [Batches.close, hb] using h
  | cons v rest =>
    intro batch hbatch
    simp only [Batches.close, hb, List.isEmpty_cons, Bool.false_eq_true, if_false,
      List.mem_append, List.mem_singleton] at hbatch
    rcases hbatch with hbatch | rfl
    · exact h batch hbatch
    · simp

theorem Filled.foldl {b : Batches} (h : b.Filled) (vs : List Visit) : (vs.foldl visit b).Filled := by
  induction vs generalizing b with
  | nil => exact h
  | cons v rest ih =>
    refine ih ?_
    rw [visit, measure]
    split <;> split
    · exact h.close
    · exact h
    · exact h.close
    · exact h

end Batches

-- ---------------------------------------------------------------------------
-- Contents
-- ---------------------------------------------------------------------------

def SliceContent.present? (s : SliceContent) : Option SliceContent :=
  if s.groups.isEmpty && s.measured.isEmpty then none else some s

theorem SliceContent.eq_empty_of_present? {s : SliceContent} (h : s.present? = none) : s = {} := by
  obtain ⟨groups, measured⟩ := s
  cases groups <;> cases measured <;> first | rfl | cases h

theorem SliceContent.marker?_ne_none {s : SliceContent} (h : s.present?.isSome = true) : s.marker? ≠ none := by
  unfold present? at h
  unfold marker?
  split at h
  · cases h
  · rename_i hne
    simp [hne]

namespace Circuit
variable (c : Circuit)

def layout : Layout := .ofCount c.numQubits

/-- The group that a visit adds to its timeslice, with its lane. -/
def written? (v : Visit) : Option (Lane × Group) :=
  if v.2.2.barrier || v.2.2.measurement then none
  else (c.groupOf c.layout v.1 (c.position v.2.1) v.2.2).toOption.join

def batchWords (batch : List Visit) : List Word :=
  Sequencer.batchWords c.layout.qubitBits (batch.map fun v => c.position v.2.1)

def content (vs : List Visit) (batches : List (List Visit)) (t : Int) : SliceContent where
  groups := (vs.filter fun v => v.1 = t).filterMap c.written?
  measured := (batches.filter fun b => Batches.slice b = t).flatMap c.batchWords

def batches : List (List Visit) := (Batches.ofVisits c.visits).close.closed

def contentAt (t : Int) : SliceContent := c.content c.visits c.batches t

def writtenSlices : List Int := c.slices.filter fun t => (c.contentAt t).present?.isSome

/-- The encoder passes the visit: it may be conditioned, its operands are
known, and it fits a word. -/
structure Accepts (v : Visit) : Prop where
  condition : v.2.2.isConditioned = true → v.2.2.takesCondition (Gate.isChannel v.2.2.gate) = true
  group : v.2.2.barrier = false → v.2.2.measurement = false →
    c.groupOf c.layout v.1 (c.position v.2.1) v.2.2 = .ok (c.written? v)
  field : v.isMeasured = true → c.layout.qubitBits ≤ headerRoom

variable {c}

theorem groupOf_of_written {v : Visit} {l : Lane} {g : Group} (h : c.written? v = some (l, g)) :
    c.groupOf c.layout v.1 (c.position v.2.1) v.2.2 = .ok (some (l, g)) ∧ v.2.2.barrier = false ∧
      v.2.2.measurement = false := by
  unfold written? at h
  split at h
  · cases h
  · rename_i hskip
    simp only [Bool.or_eq_true, not_or, Bool.not_eq_true] at hskip
    exact ⟨toOption_eq_some.mp (Option.join_eq_some_iff.mp h), hskip⟩

theorem qubits_layout : c.layout.qubits = max c.numQubits 1 := by
  simp only [layout, Layout.ofCount]
  omega

theorem position_lt {q : String} (hq : q ∈ c.qubits) : c.position q < c.layout.qubits := by
  have hlt := position_lt_numQubits hq
  rw [qubits_layout]
  omega

theorem content_visit (vs : List Visit) (batches : List (List Visit)) (v : Visit) (t : Int) :
    c.content (vs ++ [v]) batches t =
      if v.1 = t then
        { c.content vs batches t with
          groups := (c.content vs batches t).groups ++ (c.written? v).toList }
      else c.content vs batches t := by
  by_cases h : v.1 = t
  · cases he : c.written? v <;> simp [content, h, he]
  · simp [content, h]

theorem content_close (vs : List Visit) (batches : List (List Visit)) (b : List Visit) (t : Int) :
    c.content vs (batches ++ [b]) t =
      if Batches.slice b = t then
        { c.content vs batches t with
          measured := (c.content vs batches t).measured ++ c.batchWords b }
      else c.content vs batches t := by
  by_cases h : Batches.slice b = t <;> simp [content, h]

end Circuit

-- ---------------------------------------------------------------------------
-- The encoder writes the contents
-- ---------------------------------------------------------------------------

namespace Emission

/-- The emission has written the groups of the visits and the closed batches,
and the open batch is pending. The timeslices in `ended` take no more groups. -/
structure Holds (c : Circuit) (ended : List Int) (vs : List Visit) (b : Batches) (e : Emission) : Prop where
  present : ∀ t, (e.slices.get? t).isSome = (c.content vs b.closed t).present?.isSome
  opened : ∀ t ∉ ended, (e.slice t).Holds c.layout (c.content vs b.closed t)
  closed : ∀ t ∈ ended, (e.slice t).Closed c.layout (c.content vs b.closed t)
  pending : e.pending.Holds c.layout.qubitBits (b.current.map fun v => c.position v.2.1)
    (Batches.slice b.current)

variable {c : Circuit} {ended : List Int} {vs : List Visit} {b : Batches} {e e' : Emission} {v : Visit}

@[simp] theorem slice_insert (e : Emission) (pending : MeasurementBuffer) (t s : Int) (buffer : SliceBuffer) :
    slice ⟨e.slices.insert t buffer, pending⟩ s = if t = s then buffer else e.slice s := by
  simp only [slice, Timeline.get?_insert]
  split <;> rfl

theorem holds_start (c : Circuit) : Holds c [] [] {} { pending := .ofWidth c.layout.qubitBits } where
  present _ := rfl
  opened _ _ := SliceBuffer.holds_empty c.layout
  closed _ h := nomatch h
  pending := .flushed 0

theorem Holds.rewrite {vs' : List Visit} {b' : Batches} {pending : MeasurementBuffer} {t : Int}
    {buffer : SliceBuffer} (h : Holds c ended vs b e)
    (other : ∀ s, t ≠ s → c.content vs' b'.closed s = c.content vs b.closed s)
    (present : (c.content vs' b'.closed t).present?.isSome = true)
    (opened : t ∉ ended → buffer.Holds c.layout (c.content vs' b'.closed t))
    (closed : t ∈ ended → buffer.Closed c.layout (c.content vs' b'.closed t))
    (hpending : pending.Holds c.layout.qubitBits (b'.current.map fun v => c.position v.2.1)
      (Batches.slice b'.current)) : Holds c ended vs' b' ⟨e.slices.insert t buffer, pending⟩ := by
  refine ⟨fun s => ?_, fun s hs => ?_, fun s hs => ?_, hpending⟩
  all_goals by_cases hts : t = s
  · subst hts
    simp [present]
  · simpa [hts, other s hts] using h.present s
  · subst hts
    simpa using opened hs
  · simpa [hts, other s hts] using h.opened s hs
  · subst hts
    simpa using closed hs
  · simpa [hts, other s hts] using h.closed s hs

theorem isLast_of_mem_batchWords {batch : List Visit} {w : Word} (h : w ∈ c.batchWords batch) :
    w.isLast = false := by
  obtain ⟨piece, hpiece, rfl⟩ := List.mem_map.mp h
  exact Word.isLast_of_holds (holds_measuredWord (length_mul_le (length_le_of_mem_chunks hpiece)) false)

theorem Holds.flush (h : Holds c ended vs b e) (he : e.flush = .ok e') : Holds c ended vs b.close e' := by
  rw [Emission.flush] at he
  cases hb : b.current with
  | nil =>
    have hflushed : e.pending.isFlushed = true := h.pending.isFlushed_iff.mpr (by simp [hb])
    rw [if_pos hflushed, Except.ok.injEq] at he
    simpa [Batches.close, hb, ← he] using h
  | cons v rest =>
    have hne : b.current.map (fun v => c.position v.2.1) ≠ [] := by simp [hb]
    have hflushed : e.pending.isFlushed ≠ true := mt h.pending.isFlushed_iff.mp hne
    obtain ⟨empty, hclose, hempty⟩ := h.pending.close hne
    simp only [if_neg hflushed, hclose, Except.ok.injEq] at he
    have hb' : b.close = ⟨b.closed ++ [b.current], []⟩ := by simp [Batches.close, hb]
    have hwords : c.batchWords b.current ≠ [] := h.pending.batchWords_ne_nil hne
    have hplain (w : Word) (hw : w ∈ c.batchWords b.current) : w.isLast = false := isLast_of_mem_batchWords hw
    have hcontent := Circuit.content_close (c := c) vs b.closed b.current
    rw [hb', ← he]
    refine h.rewrite (fun s hs => ?_) ?_ (fun ht => ?_) (fun ht => ?_) hempty
    · rw [hcontent, if_neg hs]
    · simp [hcontent, SliceContent.present?, hwords]
    · rw [hcontent, if_pos rfl]
      exact (h.opened _ ht).addMeasured hwords hplain
    · rw [hcontent, if_pos rfl]
      exact (h.closed _ ht).addMeasured hwords hplain

theorem Holds.measure (h : Holds c ended vs b e) (hm : v.isMeasured = true) (hq : v.2.1 ∈ c.qubits)
    (hbound : c.layout.qubitBits ≤ 64) (he : e.measure (c.position v.2.1) v.1 = .ok e') :
    Holds c ended vs (b.measure v) e' ∧ c.layout.qubitBits ≤ headerRoom := by
  by_cases hwide : c.layout.qubitBits ≤ headerRoom
  · refine ⟨?_, hwide⟩
    obtain ⟨next, hadd, hnext⟩ := h.pending.add c.layout.qubitBits_pos hwide
      (Layout.lt_two_pow (Circuit.position_lt hq)) v.1
    simp only [Emission.measure, hadd, Except.ok.injEq] at he
    rw [Batches.measure, if_pos hm, ← he]
    exact ⟨h.present, h.opened, h.closed, by simpa [Batches.slice_concat] using hnext⟩
  · have hfault := h.pending.add_wide (Nat.lt_of_not_le hwide) hbound (c.position v.2.1) v.1
    rw [Emission.measure] at he
    split at he
    · cases he
    · rename_i hadd
      rw [hadd] at hfault
      exact absurd rfl hfault

theorem Holds.skip (h : Holds c ended vs b e) (hv : c.written? v = none) : Holds c ended (vs ++ [v]) b e := by
  have hcontent (t : Int) : c.content (vs ++ [v]) b.closed t = c.content vs b.closed t := by
    rw [Circuit.content_visit]
    simp [hv]
  refine ⟨fun t => ?_, fun t ht => ?_, fun t ht => ?_, h.pending⟩
  all_goals rw [hcontent]
  · exact h.present t
  · exact h.opened t ht
  · exact h.closed t ht

theorem Holds.addGroup {l : Lane} {g : Group} (h : Holds c ended vs b e) (ht : v.1 ∉ ended)
    (hv : c.written? v = some (l, g)) (he : e.addGroup c.layout v.1 l g = .ok e') :
    Holds c ended (vs ++ [v]) b e' := by
  simp only [Emission.addGroup, bind_eq_ok, pure_eq_ok, orFault, mapError_eq_ok] at he
  obtain ⟨s, hs, rfl⟩ := he
  have hsuits := (Circuit.groupOf_ok (Circuit.groupOf_of_written hv).1).suits
  have hcontent := Circuit.content_visit (c := c) vs b.closed v
  rcases (h.opened v.1 ht).add hsuits with ⟨-, hadd⟩ | ⟨-, s', hadd, hs'⟩
  · rw [hs] at hadd
    cases hadd
  · obtain rfl := Except.ok.inj (hs.symm.trans hadd)
    refine h.rewrite (fun s hs => ?_) ?_ (fun _ => ?_) (fun hmem => absurd hmem ht) h.pending
    · rw [hcontent, if_neg hs]
    · simp [hcontent, hv, SliceContent.present?]
    · rw [hcontent, if_pos rfl, hv]
      exact hs'

theorem before_ok (wf : c.WellFormed) (hq : v.2.1 ∈ c.qubits) {r : Nat × Emission}
    (he : e.before c v.1 v.2.1 v.2.2 = .ok r) :
    (v.2.2.isConditioned = true → v.2.2.takesCondition (Gate.isChannel v.2.2.gate) = true) ∧
      r.1 = c.position v.2.1 ∧ (if v.waits then e.flush else .ok e) = .ok r.2 := by
  simp only [before, orFault, wf.qubitIndex_eq hq, bind_eq_ok, mapError_eq_ok, Except.ok.injEq] at he
  obtain ⟨_, rfl, he⟩ := he
  split at he
  · obtain ⟨_, hthrow, _⟩ := he
  · rename_i hcond
    refine ⟨by simpa using hcond, ?_⟩
    by_cases hw : v.waits = true
    · simp only [show needsMeasured v.2.2 = true from hw, if_true, bind_eq_ok, pure_eq_ok] at he
      obtain ⟨flushed, hflush, rfl⟩ := he
      exact ⟨rfl, by rw [if_pos hw, hflush]⟩
    · simp only [show ¬ needsMeasured v.2.2 = true from hw] at he
      cases he
      exact ⟨rfl, by rw [if_neg hw]⟩

theorem Holds.ready (h : Holds c ended vs b e) (hflush : (if v.waits then e.flush else .ok e) = .ok e') :
    Holds c ended vs (if v.waits then b.close else b) e' := by
  by_cases hw : v.waits = true
  · rw [if_pos hw] at hflush ⊢
    exact h.flush hflush
  · rw [if_neg hw] at hflush ⊢
    cases hflush
    exact h

theorem Holds.visit (wf : c.WellFormed) (hbound : c.layout.qubitBits ≤ 64) (h : Holds c ended vs b e)
    (ht : v.1 ∉ ended) (hq : v.2.1 ∈ c.qubits) (he : e.visit c c.layout v.1 v.2.1 v.2.2 = .ok e') :
    c.Accepts v ∧ Holds c ended (vs ++ [v]) (b.visit v) e' := by
  rw [Emission.visit, bind_eq_ok] at he
  obtain ⟨⟨index, ready⟩, hbefore, he⟩ := he
  obtain ⟨hcond, rfl, hflush⟩ := before_ok wf hq hbefore
  have hready := h.ready hflush
  by_cases hbarrier : v.2.2.barrier = true
  · -- a barrier writes nothing
    simp only [hbarrier, if_true, pure_eq_ok] at he
    have hm : v.isMeasured = false := by simp [Visit.isMeasured, hbarrier]
    refine ⟨⟨hcond, by simp [hbarrier], by simp [hm]⟩, ?_⟩
    rw [← he, Batches.visit, Batches.measure, if_neg (by simp [hm])]
    exact hready.skip (by simp [Circuit.written?, hbarrier])
  by_cases hmeasure : v.2.2.measurement = true
  · simp only [hbarrier, hmeasure, if_true] at he
    have hm : v.isMeasured = true := by simp [Visit.isMeasured, hbarrier, hmeasure]
    obtain ⟨hnext, hwidth⟩ := hready.measure hm hq hbound he
    exact ⟨⟨hcond, by simp [hmeasure], fun _ => hwidth⟩,
      hnext.skip (by simp [Circuit.written?, hmeasure])⟩
  · dsimp only at he
    rw [if_neg hbarrier, if_neg hmeasure, bind_eq_ok] at he
    have hm : v.isMeasured = false := by simp [Visit.isMeasured, hmeasure]
    obtain ⟨entry, hentry, he⟩ := he
    have heq : c.written? v = entry := by
      simp [Circuit.written?, hbarrier, hmeasure, hentry, Except.toOption]
    refine ⟨⟨hcond, fun _ _ => heq ▸ hentry, by simp [hm]⟩, ?_⟩
    rw [Batches.visit, Batches.measure, if_neg (by simp [hm])]
    cases entry with
    | none =>
      cases he
      exact hready.skip heq
    | some r => exact hready.addGroup ht heq he

theorem Holds.finish (h : Holds c ended vs b e) {t : Int} (ht : t ∉ ended) :
    Holds c (ended ++ [t]) vs b (e.finish t) := by
  rw [Emission.finish]
  cases hget : e.slices.get? t with
  | none =>
    have hempty : c.content vs b.closed t = {} := by
      have hpresent := h.present t
      rw [hget] at hpresent
      exact SliceContent.eq_empty_of_present? (by simpa using hpresent)
    refine ⟨h.present, fun s hs => h.opened s (by simp_all), ?_, h.pending⟩
    refine List.forall_mem_append.mpr ⟨h.closed, ?_⟩
    simpa [hempty, slice, hget] using SliceBuffer.closed_empty c.layout
  | some s =>
    have hs : e.slice t = s := by rw [slice, hget, Option.getD_some]
    have hflush := hs ▸ (h.opened t ht).flush
    refine ⟨fun r => ?_, fun r hr => ?_, ?_, h.pending⟩
    · have hpresent := h.present r
      by_cases hr : t = r
      · subst hr
        simpa [hget] using hpresent
      · simpa [hr] using hpresent
    · simp only [List.mem_append, List.mem_singleton, not_or] at hr
      simpa [Ne.symm hr.2] using h.opened r hr.1
    · refine List.forall_mem_append.mpr ⟨fun r hr => ?_, by simpa using hflush⟩
      have hne : t ≠ r := fun h => ht (h ▸ hr)
      simpa [hne] using h.closed r hr

theorem Holds.encodeSlice (wf : c.WellFormed) (hbound : c.layout.qubitBits ≤ 64)
    (h : Holds c ended vs (Batches.ofVisits vs) e) {t : Int} (ht : t ∉ ended)
    (he : c.encodeSlice c.layout e t = .ok e') :
    (∀ v ∈ c.visitsAt t, c.Accepts v) ∧
      Holds c (ended ++ [t]) (vs ++ c.visitsAt t) (Batches.ofVisits (vs ++ c.visitsAt t)) e' := by
  simp only [Circuit.encodeSlice, bind_eq_ok, pure_eq_ok] at he
  obtain ⟨e₁, hrun, rfl⟩ := he
  have hall := foldlM_keeps
    (P := fun done e => (∀ v ∈ done, c.Accepts v) ∧ Holds c ended (vs ++ done) (Batches.ofVisits (vs ++ done)) e)
    ⟨by simp, by simpa using h⟩
    (fun done v rest e e' hsplit ih hv => by
      have hmem : v ∈ c.visitsAt t := hsplit ▸ by simp
      obtain ⟨hslice, hq, -⟩ := Circuit.mem_visitsAt.mp hmem
      obtain ⟨haccepts, hnext⟩ := ih.2.visit wf hbound (hslice ▸ ht) hq hv
      rw [← List.append_assoc, Batches.ofVisits_concat]
      exact ⟨List.forall_mem_append.mpr ⟨ih.1, by simpa using haccepts⟩, hnext⟩)
    hrun
  exact ⟨hall.1, hall.2.finish ht⟩

end Emission
namespace Circuit
variable {c : Circuit}

theorem flatten_batches : c.batches.flatten = c.visits.filter Visit.isMeasured :=
  Batches.flatten_close_ofVisits c.visits

theorem ne_nil_of_mem_batches {batch : List Visit} (h : batch ∈ c.batches) : batch ≠ [] :=
  (Batches.Filled.foldl (b := {}) (by simp [Batches.Filled]) c.visits).close batch h

theorem mem_of_mem_batches {batch : List Visit} {v : Visit} (h : batch ∈ c.batches) (hv : v ∈ batch) :
    v ∈ c.visits ∧ v.isMeasured = true := by
  have : v ∈ c.batches.flatten := List.mem_flatten_of_mem h hv
  rwa [flatten_batches, List.mem_filter] at this

theorem slice_mem_slices {batch : List Visit} (h : batch ∈ c.batches) :
    Batches.slice batch ∈ c.slices := by
  have hslice (v : Visit) (hv : v ∈ batch) : v.1 ∈ c.slices :=
    mem_slices.mpr (mem_visits.mp (mem_of_mem_batches h hv).1).1
  obtain ⟨v, hv, heq⟩ := Batches.exists_slice_eq (ne_nil_of_mem_batches h)
    fun v hv => (mem_slices.mp (hslice v hv)).1
  exact heq ▸ hslice v hv

theorem mem_slices_of_present {t : Int} {s : SliceContent} (h : (c.contentAt t).present? = some s) :
    t ∈ c.slices := by
  by_contra ht
  have hgroups : (c.contentAt t).groups = [] := by
    refine List.filterMap_eq_nil_iff.mpr fun v hv => ?_
    obtain ⟨hv, hvt⟩ := List.mem_filter.mp hv
    exact absurd (mem_slices.mpr (mem_visits.mp hv).1) (of_decide_eq_true hvt ▸ ht)
  have hmeasured : (c.contentAt t).measured = [] := by
    refine List.flatMap_eq_nil_iff.mpr fun b hb => ?_
    obtain ⟨hb, hbt⟩ := List.mem_filter.mp hb
    exact absurd (slice_mem_slices hb) (of_decide_eq_true hbt ▸ ht)
  simp [SliceContent.present?, hgroups, hmeasured] at h

/-- Encoding that succeeds accepts every visit and writes the contents of the
timeslices that have any. -/
theorem WellFormed.encode_ok (wf : c.WellFormed) (hbound : c.numQubits < Integer.bound)
    {p : InstructionProgram} (he : c.encode = .ok p) :
    (∀ v ∈ c.visits, c.Accepts v) ∧
      p.slices = c.writtenSlices.map fun t => ⟨t, (c.contentAt t).words c.layout⟩ := by
  have hbits : c.layout.qubitBits ≤ 64 := by
    refine Layout.qubitBits_le ?_
    rw [qubits_layout]
    unfold Integer.bound at hbound ⊢
    omega
  simp only [encode, bind_eq_ok, pure_eq_ok] at he
  obtain ⟨e, hrun, flushed, hflush, rfl⟩ := he
  have hall := foldlM_keeps
    (P := fun ended e => (∀ v ∈ ended.flatMap c.visitsAt, c.Accepts v) ∧
      Emission.Holds c ended (ended.flatMap c.visitsAt) (Batches.ofVisits (ended.flatMap c.visitsAt)) e)
    ⟨by simp, Emission.holds_start c⟩
    (fun ended t rest e e' hsplit ih ht => by
      have hnew : t ∉ ended := fun h => List.disjoint_of_nodup_append (hsplit ▸ c.nodup_slices) h (by simp)
      obtain ⟨haccepts, hnext⟩ := ih.2.encodeSlice wf hbits hnew ht
      rw [List.flatMap_append, List.flatMap_singleton]
      exact ⟨List.forall_mem_append.mpr ⟨ih.1, haccepts⟩, hnext⟩)
    hrun
  refine ⟨hall.1, ?_⟩
  have hholds := hall.2.flush hflush
  have hentries : flushed.slices.entries = c.writtenSlices.map fun t => (t, flushed.slice t) := by
    refine Timeline.entries_eq (c.slices_ordered.filter _) fun t s => ?_
    have hpresent : (flushed.slices.get? t).isSome = (c.contentAt t).present?.isSome := hholds.present t
    rw [writtenSlices, List.mem_filter, ← hpresent, Emission.slice]
    constructor
    · intro h
      rw [h] at hpresent ⊢
      obtain ⟨content, hcontent⟩ := Option.isSome_iff_exists.mp hpresent.symm
      exact ⟨⟨mem_slices_of_present hcontent, rfl⟩, rfl⟩
    · rintro ⟨⟨-, h⟩, rfl⟩
      obtain ⟨s, hs⟩ := Option.isSome_iff_exists.mp h
      rw [hs, Option.getD_some]
  have hwords (t : Int) (ht : t ∈ c.writtenSlices) :
      (flushed.slice t).words = (c.contentAt t).words c.layout := by
    obtain ⟨hslice, hpresent⟩ := List.mem_filter.mp ht
    exact (hholds.closed t hslice).words_eq (SliceContent.marker?_ne_none hpresent)
  rw [hentries, List.map_map]
  exact List.map_congr_left fun t ht => by simp [hwords t ht]

end Circuit
end Sequencer
