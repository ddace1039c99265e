import Sequencer.Proofs.Circuit.Targets
import Sequencer.Proofs.Instruction.MeasuredFirst
import Sequencer.Proofs.Instruction.RoundTrip

/-!
# The operations of a qubit in a program

Every operation on a qubit is encoded once: a controlled gate at its target, any
other operation at the qubit itself. In the stream the operations of a qubit
keep the order of its timeline, but for measurements. A measurement is written
with its batch, and operations that its qubit performs meanwhile come first.
-/

namespace Sequencer

-- ---------------------------------------------------------------------------
-- The order of the stream
-- ---------------------------------------------------------------------------

namespace Circuit
variable (c : Circuit)

/-- The measurement is written after a later operation that does not wait for
it: its batch reaches further than the operation, or to its timeslice, where
measurements are written before resets and the category that ends it only. -/
structure Postponed (m v : Visit) : Prop where
  measured : m.isMeasured = true
  other : v.isMeasured = false
  free : v.waits = false
  reaches : (∃ t, v.1 < t ∧ c.Joined m t) ∨ c.Joined m v.1 ∧
    ∀ l g, c.written? v = some (l, g) → l.category ≠ .reset ∧ l.category ≠ (c.contentAt v.1).closing

/-- The operation may come before a measurement of an earlier timeslice: the
measurement is postponed behind it, or it overtakes the measurement although
it waits. -/
def MayPass (v m : Visit) : Prop := c.Postponed m v ∨ v.waits = true ∧ c.Overtakes v m

variable {c}

theorem places_ordered : c.places.Pairwise fun x y =>
    x.1 < y.1 ∨ x.1 = y.1 ∧
      [x.2, y.2].Sublist (Stream.order ((c.contentAt x.1).closingLane? c.layout)) := by
  refine List.pairwise_flatMap.mpr ⟨fun t _ => List.pairwise_map.mpr ?_, ?_⟩
  · exact List.pairwise_iff_forall_sublist.mpr fun h => .inr ⟨rfl, h⟩
  · refine c.writtenSlices_ordered.imp fun hst x hx y hy => ?_
    obtain ⟨_, -, rfl⟩ := List.mem_map.mp hx
    obtain ⟨_, -, rfl⟩ := List.mem_map.mp hy
    exact .inl hst

theorem isMeasured_of_written {v : Visit} {e : Lane × Group} (h : c.written? v = some e) :
    v.isMeasured = false := by
  cases hm : v.isMeasured with
  | false => rfl
  | true =>
    rw [written?_of_isMeasured hm] at h
    cases h

theorem Carried.isMeasured {v : Visit} {t : Int} (h : c.Carried v t none) : v.isMeasured = true := by
  obtain ⟨batch, hbatch, hv, -⟩ := h
  exact (mem_of_mem_batches hbatch hv).2

theorem Carried.le {v : Visit} {t : Int} (h : c.Carried v t none) : v.1 ≤ t := by
  obtain ⟨batch, -, hv, rfl⟩ := h
  exact Batches.le_slice hv

theorem not_postponed_by_measured {u v : Visit} (hv : v.isMeasured = true) : ¬ c.Postponed u v := by
  intro h
  rw [h.other] at hv
  cases hv

theorem not_postponed_of_written {u v : Visit} {e : Lane × Group} (hu : c.written? u = some e) :
    ¬ c.Postponed u v := by
  intro h
  have := isMeasured_of_written hu
  rw [h.measured] at this
  cases this

theorem closingLane?_ne_none {v : Visit} {e : Lane × Group} (hv : v ∈ c.visits)
    (he : c.written? v = some e) : (c.contentAt v.1).closingLane? c.layout ≠ none := by
  intro hnone
  have hgroups := ((c.contentAt v.1).closingLane?_spec c.layout).1 hnone
  have hmem : e ∈ (c.contentAt v.1).groups :=
    List.mem_filterMap.mpr ⟨v, List.mem_filter.mpr ⟨hv, by simp⟩, he⟩
  rw [hgroups] at hmem
  cases hmem

theorem order_closing_iff {v : Visit} {l : Lane} {g : Group} (hv : v ∈ c.visits)
    (he : c.written? v = some (l, g)) :
    ([none, some l].Sublist (Stream.order ((c.contentAt v.1).closingLane? c.layout)) ↔
      l.category = .reset ∨ l.category = (c.contentAt v.1).closing) ∧
    ([some l, none].Sublist (Stream.order ((c.contentAt v.1).closingLane? c.layout)) ↔
      l.category ≠ .reset ∧ l.category ≠ (c.contentAt v.1).closing) := by
  have hlast := closingLane?_ne_none hv he
  obtain ⟨hfirst, hsecond⟩ := Stream.order_iff l ((c.contentAt v.1).closingLane? c.layout)
  rw [SliceContent.closing_eq _ c.layout]
  refine ⟨hfirst.trans ?_, hsecond.trans ?_⟩
  · simp [hlast, or_comm]
  · simp [hlast, and_comm]

namespace WellFormed
variable (wf : c.WellFormed)
include wf

theorem postponed_iff {m v : Visit} {t : Int} {l : Lane} {g : Group} (hm : c.Carried m t none)
    (he : c.written? v = some (l, g)) (hfree : v.waits = false) (hlt : m.1 < v.1) :
    c.Postponed m v ↔
      v.1 < t ∨ t = v.1 ∧ l.category ≠ .reset ∧ l.category ≠ (c.contentAt v.1).closing := by
  obtain ⟨batch, hbatch, hmb, rfl⟩ := hm
  have hjoined {t : Int} (ht : v.1 ≤ t) : c.Joined m t ↔ ∃ w ∈ batch, w.1 = t :=
    wf.joined_iff hbatch hmb (by omega)
  constructor
  · rintro ⟨-, -, -, ⟨t, ht, hj⟩ | ⟨hj, hcategory⟩⟩
    · obtain ⟨w, hw, rfl⟩ := (hjoined (by omega)).mp hj
      have := Batches.le_slice hw
      exact .inl (by omega)
    · obtain ⟨w, hw, hwt⟩ := (hjoined (by omega)).mp hj
      have := Batches.le_slice hw
      by_cases hslice : Batches.slice batch = v.1
      · exact .inr ⟨hslice, hcategory l g he⟩
      · exact .inl (by omega)
  · intro h
    refine ⟨(mem_of_mem_batches hbatch hmb).2, isMeasured_of_written he, hfree, ?_⟩
    rcases h with h | ⟨h, hcategory⟩
    · exact .inl ⟨_, h, (hjoined (by omega)).mpr (exists_last hbatch)⟩
    · refine .inr ⟨(hjoined (Int.le_refl _)).mpr (h ▸ exists_last hbatch), fun k f hkf => ?_⟩
      rw [he, Option.some.injEq, Prod.mk.injEq] at hkf
      exact hkf.1 ▸ hcategory

theorem mayPass {m v : Visit} {t : Int} {l : Lane} {g : Group} (hm : c.Carried m t none)
    (hv : v ∈ c.visits) (he : c.written? v = some (l, g)) (hlt : m.1 < v.1)
    (hfirst : v.1 < t ∨ t = v.1 ∧ l.category ≠ .reset ∧ l.category ≠ (c.contentAt v.1).closing) :
    c.MayPass v m := by
  cases hwaits : v.waits with
  | false => exact .inl ((wf.postponed_iff hm he hwaits hlt).mpr hfirst)
  | true =>
    obtain ⟨batch, hbatch, hmb, rfl⟩ := hm
    obtain ⟨hle, hreaches⟩ := wf.slice_batch hbatch hmb hv hwaits hlt
    rcases hfirst with hlate | ⟨hslice, -, hclosing⟩
    · omega
    · exact .inr ⟨hwaits, hreaches.mp hslice, by simp [he, hclosing]⟩

theorem le_of_batches {u v : Visit} {s t : Int} (hu : c.Carried u s none) (hv : c.Carried v t none)
    (hst : s < t) : u.1 ≤ v.1 := by
  obtain ⟨a, ha, hua, rfl⟩ := hu
  obtain ⟨b, hb, hvb, rfl⟩ := hv
  -- one of the batches comes first, and it is the one with the smaller timeslice
  have hboth := wf.batches_ordered.and (List.pairwise_flatten.mp wf.flatten_batches_ordered).2
  have hne : a ≠ b := fun hab => absurd (hab ▸ hst) (Int.lt_irrefl _)
  obtain ⟨front, rest, hsplit⟩ := List.append_of_mem ha
  rw [hsplit] at hb hboth
  obtain ⟨-, hrest, hfront⟩ := List.pairwise_append.mp hboth
  rcases List.mem_append.mp hb with hb | hb
  · have := (hfront b hb a List.mem_cons_self).1
    omega
  · rcases List.mem_cons.mp hb with hb | hb
    · exact absurd hb.symm hne
    · exact ((List.pairwise_cons.mp hrest).1 b hb).2 u hua v hvb

theorem streamVisits_ordered (t : Int) (s : Stream) :
    (c.streamVisits t s).Pairwise fun u v => u.1 ≤ v.1 := by
  cases s with
  | none =>
    obtain ⟨hbatch, hbatches⟩ := List.pairwise_flatten.mp wf.flatten_batches_ordered
    exact List.pairwise_flatten.mpr ⟨fun b hb => hbatch b (List.mem_filter.mp hb).1, hbatches.filter _⟩
  | some l => exact (wf.visits_ordered.imp Visit.Before.le).filter _

/-- Of visits carried in different streams, the one whose stream comes first
either is earlier and not postponed, or it may pass the other one. -/
theorem carried_before {u v : Visit} {s t : Int} {a b : Stream} (hu : c.Carried u s a)
    (hv : c.Carried v t b) (hst : s < t ∨ s = t ∧
      [a, b].Sublist (Stream.order ((c.contentAt s).closingLane? c.layout))) :
    (u.1 < v.1 → ¬ c.Postponed u v) ∧ (v.1 < u.1 → c.MayPass u v) := by
  have hle : s ≤ t := by
    rcases hst with hst | ⟨hst, -⟩ <;> omega
  cases a with
  | none =>
    have hus := hu.le
    cases b with
    | none =>
      have hlt : s < t := by
        rcases hst with hst | ⟨-, hsub⟩
        · exact hst
        · exact absurd (hsub.nodup (nodup_order _)) (by simp)
      have := wf.le_of_batches hu hv hlt
      exact ⟨fun _ => not_postponed_by_measured hv.isMeasured, by omega⟩
    | some l =>
      obtain ⟨hvv, rfl, he⟩ := hv
      refine ⟨fun hlt hp => ?_, by omega⟩
      rcases (wf.postponed_iff hu he hp.free hlt).mp hp with hlate | ⟨rfl, hreset, hclosing⟩
      · omega
      · rcases hst with hst | ⟨-, hsub⟩
        · exact Int.lt_irrefl _ hst
        · exact ((order_closing_iff hvv he).1.mp hsub).elim hreset hclosing
  | some k =>
    obtain ⟨huv, rfl, he⟩ := hu
    refine ⟨fun _ => not_postponed_of_written he, fun hlt => ?_⟩
    cases b with
    | none =>
      refine wf.mayPass hv huv he hlt ?_
      rcases hst with hst | ⟨rfl, hsub⟩
      · exact .inl hst
      · exact .inr ⟨rfl, (order_closing_iff huv he).2.mp hsub⟩
    | some l =>
      obtain ⟨-, rfl, -⟩ := hv
      omega

/-- Of two carried visits that stand in different timeslices the earlier one is
written first, unless it is a measurement that the other may pass. -/
theorem carried_ordered : (c.places.flatMap fun x => c.streamVisits x.1 x.2).Pairwise fun u v =>
    (u.1 < v.1 → ¬ c.Postponed u v) ∧ (v.1 < u.1 → c.MayPass u v) := by
  refine List.pairwise_flatMap.mpr ⟨fun x _ => ?_, ?_⟩
  · refine (wf.streamVisits_ordered x.1 x.2).imp_of_mem fun {u v} hu hv hle => ⟨fun hlt => ?_, by omega⟩
    have hu := mem_streamVisits.mp hu
    have hv := mem_streamVisits.mp hv
    cases hs : x.2 with
    | none =>
      rw [hs] at hv
      exact not_postponed_by_measured hv.isMeasured
    | some l =>
      rw [hs] at hu
      exact not_postponed_of_written hu.2.2
  · exact places_ordered.imp fun hxy u hu v hv =>
      wf.carried_before (mem_streamVisits.mp hu) (mem_streamVisits.mp hv) hxy

end WellFormed
end Circuit

-- ---------------------------------------------------------------------------
-- The operations of a qubit
-- ---------------------------------------------------------------------------

def Operation.involves (o : StreamOperation) (i : Nat) : Bool := o.qubit = i ∨ (i : Int) ∈ o.controls

/-- The gate is encoded at its target, with the other participants as controls. -/
def Node.onControls (n : Node) : Bool :=
  !n.barrier && !n.measurement && !n.reset && !Gate.isChannel n.gate && n.controlled

theorem Node.joint_onControls : Node.Joint Node.onControls where
  same h := by simp only [onControls, h.barrier, h.measurement, h.reset, h.gate, h.controlled]
  controlled h := by
    simp only [onControls, Bool.and_eq_true] at h
    exact h.2

namespace Circuit
variable (c : Circuit)

/-- The operation that a visit is encoded to; none for a barrier and for a
control, whose gate is encoded at its target. -/
def encoded? (v : Visit) : Option StreamOperation :=
  if v.isMeasured then some (c.measurement v) else c.operation? v

def involves (q : String) (v : Visit) : Bool :=
  (c.encoded? v).any fun o => Operation.involves o (c.position q)

def encodedFor (q : String) : List Visit := (Packet.visitsOf c.sent).filter (c.involves q)

variable {c}

theorem encoded?_cases (v : Visit) :
    (c.encoded? v = none ∧ (v.2.2.barrier = true ∨ v.2.2.onControls = true ∧ v.2.2.target = false)) ∨
      ∃ o, c.encoded? v = some o ∧ v.2.2.barrier = false ∧
        (v.2.2.onControls = true → v.2.2.target = true) ∧ o.qubit = c.position v.2.1 ∧
        o.controls = if v.2.2.onControls then c.controls v.2.2 else [] := by
  obtain ⟨t, q, n⟩ := v
  simp only [encoded?, Visit.isMeasured, operation?, measurement, Node.onControls]
  by_cases hbarrier : n.barrier = true
  · simp [hbarrier]
  by_cases hmeasured : n.measurement = true
  · simp [hbarrier, hmeasured]
  by_cases hreset : n.reset = true
  · simp [hbarrier, hmeasured, hreset]
  by_cases hchannel : Gate.isChannel n.gate = true
  · simp [hbarrier, hmeasured, hreset, hchannel]
  by_cases hcontrolled : n.controlled = true
  · by_cases htarget : n.target = true <;>
      simp [hbarrier, hmeasured, hreset, hchannel, hcontrolled, htarget]
  · simp [hbarrier, hmeasured, hreset, hchannel, hcontrolled]

theorem mem_controls {n : Node} {i : Int} :
    i ∈ c.controls n ↔ ∃ p ∈ n.partners, (c.position p : Int) = i := by
  simp [controls]

theorem involves_iff {q : String} {v : Visit} (hq : q ∈ c.qubits) :
    c.involves q v = true ↔ v.2.2.barrier = false ∧ v.StandsFor Node.onControls q := by
  have hindex (p : String) : (c.position p : Int) = c.position q ↔ p = q := by
    rw [Int.natCast_inj, eq_comm, position_inj hq, eq_comm]
  rw [involves]
  rcases encoded?_cases v with ⟨hnone, hskip⟩ | ⟨o, ho, hbarrier, htarget, hqubit, hcontrols⟩
  · rw [hnone]
    refine iff_of_false (by simp) ?_
    rintro ⟨hbarrier, hstands⟩
    rcases hskip with h | ⟨hon, h⟩
    · simp [hbarrier] at h
    · simp [hstands.target hon] at h
  · have hreaches : Operation.involves o (c.position q) = true ↔
        v.2.1 = q ∨ v.2.2.onControls = true ∧ q ∈ v.2.2.partners := by
      rw [Operation.involves, decide_eq_true_eq, hqubit, hcontrols, hindex]
      refine or_congr_right ?_
      by_cases hon : v.2.2.onControls = true
      · simp only [hon, if_true, mem_controls, hindex, exists_eq_right, true_and]
      · simp [hon]
    rw [ho, Option.any_some, hreaches]
    exact ⟨fun h => ⟨hbarrier, htarget, h⟩, fun h => h.2.reaches⟩

namespace Accepted
variable (h : c.Accepted)
include h

theorem exists_carried {v : Visit} (hv : v ∈ c.visits) (he : (c.encoded? v).isSome = true) :
    ∃ t s, c.Carried v t s := by
  rw [encoded?] at he
  split at he
  · rename_i hm
    obtain ⟨batch, hbatch, hvb⟩ := exists_batch hv hm
    exact ⟨_, none, batch, hbatch, hvb, rfl⟩
  · rcases h.wellFormed.legible h.bits_counted hv (h.accepts v hv) with ⟨-, hnone⟩ | ⟨l, g, o, hlg, -, -⟩
    · simp [hnone] at he
    · exact ⟨_, some l, hv, rfl, by simp [group, hlg]⟩

theorem mem_visitsOf_sent {v : Visit} :
    v ∈ Packet.visitsOf c.sent ↔ v ∈ c.visits ∧ (c.encoded? v).isSome = true := by
  rw [h.visitsOf_sent]
  constructor
  · intro hv
    obtain ⟨⟨t, s⟩, -, hv⟩ := List.mem_flatMap.mp hv
    have hcarried := mem_streamVisits.mp hv
    cases s with
    | none =>
      obtain ⟨batch, hbatch, hvb, -⟩ := id hcarried
      exact ⟨(mem_of_mem_batches hbatch hvb).1, by simp [encoded?, hcarried.isMeasured]⟩
    | some l =>
      obtain ⟨hvisit, -, he⟩ := hcarried
      have hmeasured : v.isMeasured ≠ true := fun hm => by simp [written?_of_isMeasured hm] at he
      obtain ⟨o, ho, -⟩ := h.legible_group hvisit he
      exact ⟨hvisit, by simp [encoded?, hmeasured, ho]⟩
  · rintro ⟨hv, hsome⟩
    obtain ⟨t, s, hcarried⟩ := h.exists_carried hv hsome
    exact List.mem_flatMap.mpr ⟨(t, s), mem_places.mpr (h.mem_writtenSlices_of_carried hcarried),
      mem_streamVisits.mpr hcarried⟩

theorem mem_encodedFor {q : String} {v : Visit} :
    v ∈ c.encodedFor q ↔ v ∈ c.visits ∧ c.involves q v = true := by
  rw [encodedFor, List.mem_filter, h.mem_visitsOf_sent]
  refine and_congr_left fun hq => and_iff_left ?_
  cases ho : c.encoded? v with
  | none => simp [involves, ho] at hq
  | some o => rfl

end Accepted

/-- The operations that involve a qubit are those of its timeline, one for each
node but barriers. Of any two the earlier one comes first, unless it is a
measurement that is postponed behind the other. The order is left open where
the other overtakes it although it waits. -/
structure EncodedAlong (c : Circuit) (q : String) (ops : List Visit) : Prop where
  encoded : ∀ {t n}, c.at? q t = some n → n.barrier = false →
    ∃ v ∈ ops, v.1 = t ∧ v.2.2.SameOperation n
  only : ∀ v ∈ ops, ∃ n, c.at? q v.1 = some n ∧ n.barrier = false ∧ v.2.2.SameOperation n
  ordered : ops.Pairwise fun u v =>
    u.1 < v.1 ∧ ¬ c.Postponed u v ∨ v.1 < u.1 ∧ c.MayPass u v

theorem Accepted.encodedAlong (h : c.Accepted) {q : String} (hq : q ∈ c.qubits) :
    c.EncodedAlong q (c.encodedFor q) := by
  have wf := h.wellFormed
  have hmem {v : Visit} : v ∈ c.encodedFor q ↔
      v ∈ c.visits ∧ v.2.2.barrier = false ∧ v.StandsFor Node.onControls q :=
    h.mem_encodedFor.trans (and_congr_right fun _ => involves_iff hq)
  refine ⟨fun hn hbarrier => ?_, fun v hv => ?_, ?_⟩
  · obtain ⟨v, hv, ht, hstands, hsame⟩ := wf.exists_standsFor Node.joint_onControls hn
    exact ⟨v, hmem.mpr ⟨hv, hsame.barrier.trans hbarrier, hstands⟩, ht, hsame⟩
  · obtain ⟨hv, hbarrier, hstands⟩ := hmem.mp hv
    obtain ⟨n, hn, hsame, -⟩ := wf.standsFor_spec Node.joint_onControls hv hstands
    exact ⟨n, hn, hsame.barrier ▸ hbarrier, hsame⟩
  · have hordered := (wf.carried_ordered.and wf.nodup_carried).filter (c.involves q)
    rw [← h.visitsOf_sent] at hordered
    refine hordered.imp_of_mem fun {u v} hu hv hboth => ?_
    obtain ⟨⟨hfirst, hlast⟩, hne⟩ := hboth
    obtain ⟨hu, -, hqu⟩ := hmem.mp hu
    obtain ⟨hv, -, hqv⟩ := hmem.mp hv
    rcases Int.lt_trichotomy u.1 v.1 with hlt | heq | hlt
    · exact .inl ⟨hlt, hfirst hlt⟩
    · exact absurd (wf.standsFor_unique Node.joint_onControls hu hv hqu hqv heq) hne
    · exact .inr ⟨hlt, hlast hlt⟩

end Circuit

/-- In every program of a circuit the operations that involve a qubit are in
the order of its timeline, but for measurements that a later one may pass. -/
theorem qubit_order (k : Construction) {p : InstructionProgram} (he : k.circuit.encode = .ok p)
    {q : String} (hq : q ∈ k.circuit.qubits) :
    p.words = Packet.wordsOf k.circuit k.circuit.sent ∧
      k.circuit.EncodedAlong q (k.circuit.encodedFor q) := by
  obtain ⟨haccepted, hslices⟩ := k.encode_ok he
  exact ⟨haccepted.words_eq_sent hslices, haccepted.encodedAlong hq⟩

/-- The second measurement joins the batch of the first, and the gate between
them comes before both. -/
def Construction.remeasured : Construction where
  name := "remeasured"
  steps := [
    .quantum ⟨"q", 1⟩, .classical ⟨"c", 1⟩,
    .call (.measure ["q[0]"] ["c[0]"] none),
    .call (.gate "x" "q[0]" [] none),
    .call (.measure ["q[0]"] ["c[0]"] none)]
  quantum_fresh := by decide
  classical_fresh := by decide
  counted := by decide
  qubits_counted := by decide
  bits_counted := by decide

theorem qubit_order_remeasured :
    ∃ p, Construction.remeasured.circuit.encode = .ok p ∧
      p.words = Packet.wordsOf Construction.remeasured.circuit Construction.remeasured.circuit.sent ∧
      Construction.remeasured.circuit.EncodedAlong "q[0]"
        (Construction.remeasured.circuit.encodedFor "q[0]") := by
  have hsome : Construction.remeasured.circuit.encode.toOption.isSome = true := by decide +kernel
  obtain ⟨p, he⟩ := isSome_toOption.mp hsome
  exact ⟨p, he, qubit_order .remeasured he (by decide +kernel)⟩

/-- The order of a timeline is not always kept: the gate of the second timeslice
is written before the measurement of the first. -/
theorem not_encodedFor_ordered :
    ∃ p, Construction.remeasured.circuit.encode = .ok p ∧
      p.words = [0x80ffffffffffffff, 0xd3ffffffffffffff] ∧
      (Construction.remeasured.circuit.encodedFor "q[0]").map (fun v => (v.1, v.2.2.gate)) =
        [(2, "x"), (1, "M"), (3, "M")] ∧
      ¬ (Construction.remeasured.circuit.encodedFor "q[0]").Pairwise fun u v => u.1 < v.1 := by
  have hwords : Construction.remeasured.circuit.encode.toOption.map InstructionProgram.words =
      some [0x80ffffffffffffff, 0xd3ffffffffffffff] := by decide +kernel
  have hops : (Construction.remeasured.circuit.encodedFor "q[0]").map (fun v => (v.1, v.2.2.gate)) =
      [(2, "x"), (1, "M"), (3, "M")] := by decide +kernel
  obtain ⟨p, he, hp⟩ := Option.map_eq_some_iff.mp hwords
  refine ⟨p, toOption_eq_some.mp he, hp, hops, fun hordered => ?_⟩
  have hpairs : ((Construction.remeasured.circuit.encodedFor "q[0]").map
      fun v => (v.1, v.2.2.gate)).Pairwise fun a b => a.1 < b.1 := List.pairwise_map.mpr hordered
  simp [hops] at hpairs

end Sequencer
