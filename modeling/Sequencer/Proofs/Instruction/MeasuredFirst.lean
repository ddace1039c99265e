import Sequencer.Proofs.Instruction.Positions

/-!
# Measurements and the operations that wait for them

A conditioned operation closes the batch of measurements that is open, so the
measurements of earlier timeslices are written at its own timeslice at the
latest. They are written before it unless two things meet: the batch reaches
into the timeslice of the operation, because a measurement of that timeslice
joined it, and another category ends that timeslice.
-/

namespace Sequencer

-- ---------------------------------------------------------------------------
-- Where batches end
-- ---------------------------------------------------------------------------

theorem Visit.isMeasured_of_waits {v : Visit} (h : v.waits = true) : v.isMeasured = false := by
  simp only [Visit.waits, Emission.needsMeasured, Bool.and_eq_true, Bool.not_eq_true'] at h
  simp [Visit.isMeasured, h.1.2]

theorem Visit.waits_of_isMeasured {v : Visit} (h : v.isMeasured = true) : v.waits = false := by
  cases hw : v.waits with
  | false => rfl
  | true =>
    rw [Visit.isMeasured_of_waits hw] at h
    cases h

namespace Batches

theorem visit_of_waits {v : Visit} (h : v.waits = true) (b : Batches) : b.visit v = b.close := by
  simp [visit, measure, h, Visit.isMeasured_of_waits h]

theorem visit_of_not_waits {v : Visit} (h : v.waits = false) (b : Batches) : b.visit v = b.measure v := by
  simp [visit, h]

theorem visit_closed (closed : List (List Visit)) (b : Batches) (v : Visit) :
    visit ⟨closed ++ b.closed, b.current⟩ v = ⟨closed ++ (b.visit v).closed, (b.visit v).current⟩ := by
  cases hw : v.waits with
  | true =>
    rw [visit_of_waits hw, visit_of_waits hw]
    cases hb : b.current <;> simp [close, hb]
  | false =>
    rw [visit_of_not_waits hw, visit_of_not_waits hw]
    cases hm : v.isMeasured <;> simp [measure, hm]

theorem foldl_closed (closed : List (List Visit)) (b : Batches) (vs : List Visit) :
    vs.foldl visit ⟨closed ++ b.closed, b.current⟩ =
      ⟨closed ++ (vs.foldl visit b).closed, (vs.foldl visit b).current⟩ := by
  induction vs generalizing b with
  | nil => rfl
  | cons v rest ih => rw [List.foldl_cons, visit_closed, ih, List.foldl_cons]

theorem close_closed (closed : List (List Visit)) (b : Batches) :
    (close ⟨closed ++ b.closed, b.current⟩).closed = closed ++ b.close.closed := by
  cases hb : b.current <;> simp [close, hb]

theorem foldl_close (b : Batches) (vs : List Visit) :
    (vs.foldl visit b.close).close.closed = b.close.closed ++ (ofVisits vs).close.closed := by
  have hcurrent := close_current b
  cases hb : b.close with
  | mk closed current =>
    rw [hb] at hcurrent
    subst hcurrent
    have hfold := foldl_closed closed {} vs
    rw [List.append_nil] at hfold
    rw [hfold]
    exact close_closed closed _

/-- A visit that waits separates the batches before it from those after it. -/
theorem closed_append {x : Visit} (hx : x.waits = true) (a b : List Visit) :
    (ofVisits (a ++ x :: b)).close.closed =
      (ofVisits a).close.closed ++ (ofVisits b).close.closed := by
  rw [← foldl_close, ofVisits, List.foldl_append, List.foldl_cons, visit_of_waits hx]
  rfl

theorem foldl_of_not_waits {vs : List Visit} (h : ∀ v ∈ vs, v.waits = false) (b : Batches) :
    vs.foldl visit b = ⟨b.closed, b.current ++ vs.filter Visit.isMeasured⟩ := by
  induction vs generalizing b with
  | nil => simp
  | cons v rest ih =>
    rw [List.foldl_cons, visit_of_not_waits (h v List.mem_cons_self),
      ih fun w hw => h w (List.mem_cons_of_mem _ hw)]
    cases hm : v.isMeasured <;> simp [measure, hm]

theorem exists_closed {b : Batches} (hne : b.current ≠ []) (vs : List Visit) :
    ∃ batch ∈ (vs.foldl visit b).close.closed, b.current ⊆ batch := by
  have hclose (b : Batches) (hne : b.current ≠ []) : b.current ∈ b.close.closed := by
    simp [close, hne]
  induction vs generalizing b with
  | nil => exact ⟨b.current, hclose b hne, List.Subset.refl _⟩
  | cons v rest ih =>
    rw [List.foldl_cons]
    cases hw : v.waits with
    | true =>
      -- the batch is closed here, and stays closed
      rw [visit_of_waits hw, foldl_close]
      exact ⟨b.current, List.mem_append_left _ (hclose b hne), List.Subset.refl _⟩
    | false =>
      rw [visit_of_not_waits hw]
      have hsub : b.current ⊆ (b.measure v).current := by
        cases hm : v.isMeasured <;> simp [measure, hm]
      have hne' : (b.measure v).current ≠ [] := fun hnil => hne (List.subset_nil.mp (hnil ▸ hsub))
      obtain ⟨batch, hbatch, hcurrent⟩ := ih hne'
      exact ⟨batch, hbatch, List.Subset.trans hsub hcurrent⟩

end Batches

namespace Circuit
variable {c : Circuit}

theorem exists_batch {v : Visit} (hv : v ∈ c.visits) (hm : v.isMeasured = true) :
    ∃ batch ∈ c.batches, v ∈ batch := by
  have hmem : v ∈ c.batches.flatten := by
    rw [flatten_batches]
    exact List.mem_filter.mpr ⟨hv, hm⟩
  exact List.mem_flatten.mp hmem

/-- A measurement of the timeslice joins the batch of the visit, as nothing
between them waits. -/
def Joined (c : Circuit) (m : Visit) (t : Int) : Prop :=
  ∃ done between later rest, c.visits = done ++ m :: (between ++ later :: rest) ∧
    later.isMeasured = true ∧ later.1 = t ∧ ∀ v ∈ between, v.waits = false

namespace WellFormed
variable (wf : c.WellFormed) {a b : List Visit} {x y : Visit} (hsplit : c.visits = a ++ x :: b)
include wf hsplit

theorem mem_before (hy : y ∈ c.visits) (hlt : y.1 < x.1) : y ∈ a := by
  have hordered := wf.visits_ordered
  rw [hsplit] at hy hordered
  rcases List.mem_append.mp hy with hy | hy
  · exact hy
  · rcases List.mem_cons.mp hy with rfl | hy
    · exact absurd hlt (Int.lt_irrefl _)
    · have := ((List.pairwise_cons.mp (List.pairwise_append.mp hordered).2.1).1 y hy).le
      omega

theorem mem_after (hy : y ∈ c.visits) (hlt : x.1 < y.1) : y ∈ b := by
  have hordered := wf.visits_ordered
  rw [hsplit] at hy hordered
  rcases List.mem_append.mp hy with hy | hy
  · have := ((List.pairwise_append.mp hordered).2.2 y hy x List.mem_cons_self).le
    omega
  · rcases List.mem_cons.mp hy with rfl | hy
    · exact absurd hlt (Int.lt_irrefl _)
    · exact hy

theorem batch_before (hx : x.waits = true) {batch : List Visit} (hbatch : batch ∈ c.batches)
    (hy : y ∈ batch) (hya : y ∈ a) : ∀ v ∈ batch, v ∈ a := by
  rw [batches, hsplit, Batches.closed_append hx] at hbatch
  rcases List.mem_append.mp hbatch with hbatch | hbatch
  · intro v hv
    have := List.mem_flatten_of_mem hbatch hv
    rw [Batches.flatten_close_ofVisits] at this
    exact (List.mem_filter.mp this).1
  · have := List.mem_flatten_of_mem hbatch hy
    rw [Batches.flatten_close_ofVisits] at this
    have hyb : y ∈ x :: b := List.mem_cons_of_mem _ (List.mem_filter.mp this).1
    have hnodup := wf.nodup_visits
    rw [hsplit] at hnodup
    exact absurd rfl ((List.nodup_append.mp hnodup).2.2 y hya y hyb)

end WellFormed

/-- Two measurements are in one batch exactly if nothing between them waits. -/
theorem WellFormed.same_batch_iff (wf : c.WellFormed) {a between b : List Visit} {m n : Visit}
    (hsplit : c.visits = a ++ m :: (between ++ n :: b)) (hm : m.isMeasured = true)
    (hn : n.isMeasured = true) :
    (∃ batch ∈ c.batches, m ∈ batch ∧ n ∈ batch) ↔ ∀ v ∈ between, v.waits = false := by
  constructor
  · rintro ⟨batch, hbatch, hmb, hnb⟩ v hv
    by_contra hw
    rw [Bool.not_eq_false] at hw
    obtain ⟨before, after, rfl⟩ := List.append_of_mem hv
    have hsplit' : c.visits = (a ++ m :: before) ++ v :: (after ++ n :: b) := by simp [hsplit]
    have hna := wf.batch_before hsplit' hw hbatch hmb (by simp) n hnb
    have hnodup := wf.nodup_visits
    rw [hsplit'] at hnodup
    exact absurd rfl ((List.nodup_append.mp hnodup).2.2 n hna n (by simp))
  · intro hwaits
    have hjoin : ∀ v ∈ m :: (between ++ [n]), v.waits = false := by
      refine List.forall_mem_cons.mpr ⟨Visit.waits_of_isMeasured hm, ?_⟩
      exact List.forall_mem_append.mpr ⟨hwaits, by simpa using Visit.waits_of_isMeasured hn⟩
    have hopen := Batches.foldl_of_not_waits hjoin (Batches.ofVisits a)
    have hboth : ∀ v ∈ [m, n], v ∈ ((m :: (between ++ [n])).foldl Batches.visit (Batches.ofVisits a)).current := by
      rw [hopen]
      simp [hm, hn]
    obtain ⟨batch, hbatch, hsub⟩ := Batches.exists_closed (List.ne_nil_of_mem (hboth m (by simp))) b
    refine ⟨batch, ?_, hsub (hboth m (by simp)), hsub (hboth n (by simp))⟩
    rw [batches, hsplit, Batches.ofVisits, List.foldl_append, ← List.singleton_append (l := b),
      ← List.append_assoc, ← List.cons_append, List.foldl_append]
    exact hbatch

theorem WellFormed.joined_iff (wf : c.WellFormed) {batch : List Visit} {m : Visit} {t : Int}
    (hbatch : batch ∈ c.batches) (hm : m ∈ batch) (hlt : m.1 < t) :
    c.Joined m t ↔ ∃ w ∈ batch, w.1 = t := by
  obtain ⟨hmv, hmeasured⟩ := mem_of_mem_batches hbatch hm
  constructor
  · rintro ⟨done, between, later, rest, hsplit, hlm, hslice, hbetween⟩
    obtain ⟨other, hother, hmo, hlo⟩ := (wf.same_batch_iff hsplit hmeasured hlm).mpr hbetween
    obtain rfl := wf.batch_unique hother hbatch hmo hm
    exact ⟨later, hlo, hslice⟩
  · rintro ⟨later, hlater, rfl⟩
    obtain ⟨hlv, hlm⟩ := mem_of_mem_batches hbatch hlater
    obtain ⟨done, after, hsplit⟩ := List.append_of_mem hmv
    obtain ⟨between, rest, rfl⟩ := List.append_of_mem (wf.mem_after hsplit hlv hlt)
    exact ⟨done, between, later, rest, hsplit, hlm, rfl,
      (wf.same_batch_iff hsplit hmeasured hlm).mp ⟨batch, hbatch, hm, hlater⟩⟩

theorem exists_last {batch : List Visit} (hbatch : batch ∈ c.batches) :
    ∃ w ∈ batch, w.1 = Batches.slice batch :=
  Batches.exists_slice_eq (ne_nil_of_mem_batches hbatch) fun _ hv =>
    (Circuit.mem_visits.mp (mem_of_mem_batches hbatch hv).1).1.1

/-- Before a waiting visit of a later timeslice the batch of a measurement is
closed. It reaches the timeslice of that visit exactly if a measurement of
that timeslice joined it. -/
theorem WellFormed.slice_batch (wf : c.WellFormed) {batch : List Visit} {m o : Visit}
    (hbatch : batch ∈ c.batches) (hm : m ∈ batch) (ho : o ∈ c.visits) (hwaits : o.waits = true)
    (hlt : m.1 < o.1) :
    Batches.slice batch ≤ o.1 ∧ (Batches.slice batch = o.1 ↔ c.Joined m o.1) := by
  obtain ⟨hmv, -⟩ := mem_of_mem_batches hbatch hm
  have hle : Batches.slice batch ≤ o.1 := by
    obtain ⟨before, after, hsplit⟩ := List.append_of_mem ho
    have hbefore := wf.batch_before hsplit hwaits hbatch hm (wf.mem_before hsplit hmv hlt)
    have hordered := wf.visits_ordered
    rw [hsplit] at hordered
    have hpos : 1 ≤ o.1 := (Circuit.mem_visits.mp ho).1.1
    refine Batches.slice_le (by omega) fun v hv => ?_
    exact ((List.pairwise_append.mp hordered).2.2 v (hbefore v hv) o List.mem_cons_self).le
  refine ⟨hle, ?_⟩
  rw [wf.joined_iff hbatch hm hlt]
  constructor
  · intro heq
    exact heq ▸ exists_last hbatch
  · rintro ⟨later, hlater, heq⟩
    have := Batches.le_slice hlater
    omega

end Circuit

-- ---------------------------------------------------------------------------
-- Order within a timeslice
-- ---------------------------------------------------------------------------

/-- Operations are written before the measurements of their timeslice, unless
their category ends it. Resets come after measurements that do not end it. -/
theorem Stream.order_iff (l : Lane) (last : Stream) :
    ([none, some l].Sublist (order last) ↔
      l.category = category last ∨ l.category = .reset ∧ last ≠ none) ∧
    ([some l, none].Sublist (order last) ↔
      ¬ (l.category = category last ∨ l.category = .reset ∧ last ≠ none)) := by
  rcases last with _ | k
  · cases l <;> decide
  · cases l <;> cases k <;> decide

theorem Stream.order_measured {l : Lane} (hl : l.category = .singleCond ∨ l.category = .controlCond)
    (last : Stream) :
    (l.category = category last → [none, some l].Sublist (order last)) ∧
      (l.category ≠ category last → [some l, none].Sublist (order last)) := by
  have hreset : l.category ≠ .reset := by
    rcases hl with hl | hl <;> simp [hl]
  obtain ⟨hfirst, hlast⟩ := order_iff l last
  exact ⟨fun h => hfirst.mpr (.inl h), fun h => hlast.mpr (by simp [h, hreset])⟩

/-- An accepted conditioned operation waits for measurements, and has a group
with its test, a controlled one at its target. -/
theorem Circuit.Accepts.tested {c : Circuit} {v : Visit} (ha : c.Accepts v)
    (hcond : v.2.2.isConditioned = true) (htarget : v.2.2.controlled = true → v.2.2.target = true) :
    v.waits = true ∧ ∃ l g test, c.written? v = some (l, g) ∧
      (l.category = .singleCond ∨ l.category = .controlCond) ∧
      c.optionalTest c.layout v.1 v.2.2 = .ok (some test) := by
  have htakes := ha.condition hcond
  simp only [Node.takesCondition, Bool.and_eq_true, Bool.not_eq_true'] at htakes
  obtain ⟨⟨⟨hbarrier, hmeasurement⟩, hreset⟩, hchannel⟩ := htakes
  have hgroup := ha.group hbarrier hmeasurement
  have hch : Gate.channel? v.2.2.gate = none := by simpa [Gate.isChannel] using hchannel
  simp only [groupOf, hreset, hch, Bool.false_eq_true, if_false] at hgroup
  have hwaits : v.waits = if v.2.2.controlled then v.2.2.target && (Gate.controlled? v.2.2.gate).isSome
      else (Gate.single? v.2.2.gate).isSome := by
    simp [Visit.waits, Emission.needsMeasured, hcond, hbarrier, hmeasurement]
  by_cases hcontrolled : v.2.2.controlled = true
  · have htarget := htarget hcontrolled
    rw [if_pos hcontrolled, if_pos htarget] at hgroup
    rw [if_pos hcontrolled] at hwaits
    obtain ⟨⟨l, g⟩, hg, heq⟩ := map_eq_ok.mp hgroup
    obtain ⟨p, test, f, hp, htest, -, rfl, -⟩ := controlledGroup_ok hg
    have hsome := (optionalTest_isSome htest).trans hcond
    obtain ⟨r, rfl⟩ := Option.isSome_iff_exists.mp hsome
    refine ⟨by simp [hwaits, htarget, hp], _, g, r, heq.symm, .inr ?_, htest⟩
    rw [controlLane_category, hsome, if_pos rfl]
  · rw [if_neg hcontrolled] at hgroup hwaits
    obtain ⟨⟨l, g⟩, hg, heq⟩ := map_eq_ok.mp hgroup
    obtain ⟨p, test, hp, htest, rfl, -⟩ := singleGroup_ok hg
    have hsome := (optionalTest_isSome htest).trans hcond
    obtain ⟨r, rfl⟩ := Option.isSome_iff_exists.mp hsome
    refine ⟨by simp [hwaits, hp], _, g, r, heq.symm, .inl ?_, htest⟩
    rw [singleLane_category, hsome, if_pos rfl]

theorem Circuit.Accepts.conditioned {c : Circuit} {v : Visit} (ha : c.Accepts v)
    (hcond : v.2.2.isConditioned = true) (htarget : v.2.2.controlled = true → v.2.2.target = true) :
    v.waits = true ∧ ∃ l g, c.written? v = some (l, g) ∧
      (l.category = .singleCond ∨ l.category = .controlCond) := by
  obtain ⟨hwaits, l, g, -, he, hl, -⟩ := ha.tested hcond htarget
  exact ⟨hwaits, l, g, he, hl⟩

-- ---------------------------------------------------------------------------
-- Measurements and conditioned operations
-- ---------------------------------------------------------------------------

/-- The operation overtakes the measurement: a measurement of its timeslice
joins the batch, and another category ends that timeslice. -/
structure Circuit.Overtakes (c : Circuit) (o m : Visit) : Prop where
  joined : c.Joined m o.1
  passed : ∀ l g, c.written? o = some (l, g) → l.category ≠ (c.contentAt o.1).closing

theorem Circuit.Accepted.heldAt_lt_iff {c : Circuit} (h : c.Accepted) {p : InstructionProgram}
    {m o : Visit} {t : Int} {l : Lane} {i j : Nat} (hm : c.Carried m t none)
    (ho : c.Carried o o.1 (some l)) (hwaits : o.waits = true)
    (hl : l.category = .singleCond ∨ l.category = .controlCond) (hlt : m.1 < o.1)
    (hi : c.HeldAt p m i) (hj : c.HeldAt p o j) : i < j ↔ ¬ c.Overtakes o m := by
  obtain ⟨hov, -, he⟩ := ho
  have hslice : t ≤ o.1 ∧ (t = o.1 ↔ c.Joined m o.1) := by
    obtain ⟨batch, hbatch, hmb, rfl⟩ := hm
    exact h.wellFormed.slice_batch hbatch hmb hov hwaits hlt
  have hpassed : (∀ k g, c.written? o = some (k, g) → k.category ≠ (c.contentAt o.1).closing) ↔
      l.category ≠ (c.contentAt o.1).closing := by
    simp [he]
  have hwritten := h.mem_writtenSlices_of_carried hm
  obtain ⟨hfirst, hlast⟩ := Stream.order_measured hl ((c.contentAt o.1).closingLane? c.layout)
  rw [← SliceContent.closing_eq] at hfirst hlast
  by_cases ht : t = o.1
  · subst ht
    by_cases hclosing : l.category = (c.contentAt o.1).closing
    · have hij := h.heldAt_lt (places_of_order hwritten (hfirst hclosing)) hm ⟨hov, rfl, he⟩ hi hj
      exact iff_of_true hij fun hover => hpassed.mp hover.passed hclosing
    · have hji := h.heldAt_lt (places_of_order hwritten (hlast hclosing)) ⟨hov, rfl, he⟩ hm hj hi
      exact iff_of_false (by omega) (not_not_intro ⟨hslice.2.mp rfl, hpassed.mpr hclosing⟩)
  · have hlater := mem_writtenSlices_of_written hov he
    have hij := h.heldAt_lt (places_of_slice_lt none (some l) hwritten hlater (by omega)) hm
      ⟨hov, rfl, he⟩ hi hj
    exact iff_of_true hij fun hover => ht (hslice.2.mpr hover.joined)

/-- In every program of a circuit, a measurement and a conditioned operation of
a later timeslice are each held by one word, the measurement by the earlier
one exactly if the operation does not overtake it. The group of a controlled
operation stands at its target. -/
theorem measured_first_iff (k : Construction) {p : InstructionProgram} (he : k.circuit.encode = .ok p)
    {q r : String} {s t : Int} {m n : Node} (hm : k.circuit.at? q s = some m)
    (hmeasured : m.measurement = true) (hn : k.circuit.at? r t = some n) (hcond : n.isConditioned = true)
    (htarget : n.controlled = true → n.target = true) (hst : s < t) :
    (∃! i, k.circuit.HeldAt p (s, q, m) i) ∧ (∃! j, k.circuit.HeldAt p (t, r, n) j) ∧
      ∀ i j, k.circuit.HeldAt p (s, q, m) i → k.circuit.HeldAt p (t, r, n) j →
        (i < j ↔ ¬ k.circuit.Overtakes (t, r, n) (s, q, m)) := by
  obtain ⟨haccepted, hslices⟩ := k.encode_ok he
  have hmv : ((s, q, m) : Visit) ∈ k.circuit.visits := k.wellFormed.mem_visits.mpr hm
  have hnv : ((t, r, n) : Visit) ∈ k.circuit.visits := k.wellFormed.mem_visits.mpr hn
  have hbarrier := (k.wellFormed.measured hm hmeasured).2.2.1
  obtain ⟨batch, hbatch, hmb⟩ := Circuit.exists_batch hmv (by simp [Visit.isMeasured, hmeasured, hbarrier])
  have hmc : k.circuit.Carried (s, q, m) (Batches.slice batch) none := ⟨batch, hbatch, hmb, rfl⟩
  obtain ⟨hwaits, l, g, hlg, hl⟩ := (haccepted.accepts _ hnv).conditioned hcond htarget
  have hnc : k.circuit.Carried (t, r, n) t (some l) := ⟨hnv, rfl, by simp [Circuit.group, hlg]⟩
  obtain ⟨i, hi⟩ := haccepted.exists_heldAt hslices hmc
  obtain ⟨j, hj⟩ := haccepted.exists_heldAt hslices hnc
  exact ⟨⟨i, hi, fun _ h => haccepted.heldAt_unique h hi⟩, ⟨j, hj, fun _ h => haccepted.heldAt_unique h hj⟩,
    fun i j hi hj => haccepted.heldAt_lt_iff hmc hnc hwaits hl hst hi hj⟩

/-- The operation on `q[2]` waits for the measurement of `q[1]`. The one of
`q[0]` joins its batch in the timeslice of that operation, which ends with an
operation on `q[3]`. -/
def Construction.overtaking : Construction where
  name := "overtaking"
  steps := [
    .quantum ⟨"q", 4⟩, .classical ⟨"c", 2⟩,
    .call (.measure ["q[1]"] ["c[0]"] none),
    .call (.gate "x" "q[2]" [] (some ⟨"c[0]", 1, .bit⟩)),
    .call (.gate "h" "q[0]" [] none),
    .call (.measure ["q[0]"] ["c[1]"] none),
    .call (.gate "z" "q[3]" [] none),
    .call (.gate "z" "q[3]" [] none)]
  quantum_fresh := by decide
  classical_fresh := by decide
  counted := by decide
  qubits_counted := by decide
  bits_counted := by decide

theorem measured_first_iff_overtaking :
    ∃ p m n i j, Construction.overtaking.circuit.encode = .ok p ∧
      Construction.overtaking.circuit.at? "q[1]" 1 = some m ∧ m.measurement = true ∧
      Construction.overtaking.circuit.at? "q[2]" 2 = some n ∧ n.isConditioned = true ∧
      Construction.overtaking.circuit.HeldAt p (1, "q[1]", m) i ∧
      Construction.overtaking.circuit.HeldAt p (2, "q[2]", n) j ∧ ¬ i < j := by
  have hvisits : (Construction.overtaking.circuit.visits.map fun v : Visit =>
      (v.1, v.2.1, v.isMeasured, v.waits)) =
      [(1, "q[0]", false, false), (1, "q[1]", true, false), (1, "q[3]", false, false),
       (2, "q[0]", true, false), (2, "q[2]", false, true), (2, "q[3]", false, false)] := by decide +kernel
  have hlanes : ∀ v : Visit, v ∈ Construction.overtaking.circuit.visits → v.waits = true →
      (Construction.overtaking.circuit.written? v).map Prod.fst = some .singleBit := by decide +kernel
  have hclosing : (Construction.overtaking.circuit.contentAt 2).closing = .single := by decide +kernel
  have hsome : Construction.overtaking.circuit.encode.toOption.isSome = true := by decide +kernel
  simp only [List.map_eq_cons_iff, List.map_eq_nil_iff] at hvisits
  obtain ⟨first, _, hsplit, -, ⟨s, q, m⟩, _, rfl, hm, between, _, rfl, hbetween, later, _, rfl, hlater,
    ⟨t, r, n⟩, _, rfl, hn, last, _, rfl, -, rfl⟩ := hvisits
  obtain ⟨rfl, rfl, hmeasured, -⟩ := by simpa using hm
  obtain ⟨rfl, rfl, -, hwaits⟩ := by simpa using hn
  have hwf := Construction.overtaking.wellFormed
  have hmv := hwf.mem_visits.mp (show ((1, "q[1]", m) : Visit) ∈ _ by rw [hsplit]; simp)
  have hnv : ((2, "q[2]", n) : Visit) ∈ Construction.overtaking.circuit.visits := by rw [hsplit]; simp
  have hlane := hlanes _ hnv hwaits
  have hovertakes : Construction.overtaking.circuit.Overtakes (2, "q[2]", n) (1, "q[1]", m) :=
    { joined := ⟨[first], [between], later, _, hsplit, by simp_all, by simp_all, by simp_all⟩
      passed := fun l g hlg => by
        have hl : l = .singleBit := by simpa [hlg] using hlane
        rw [hl, hclosing]
        decide }
  obtain ⟨p, he⟩ := isSome_toOption.mp hsome
  simp only [Visit.isMeasured, Visit.waits, Emission.needsMeasured, Bool.and_eq_true] at hmeasured hwaits
  have htarget : n.controlled = true → n.target = true := by
    intro hcontrolled
    have hgate := hwaits.2
    rw [if_pos hcontrolled, Bool.and_eq_true] at hgate
    exact hgate.1
  obtain ⟨⟨i, hi, -⟩, ⟨j, hj, -⟩, hiff⟩ := measured_first_iff .overtaking he hmv hmeasured.1
    (hwf.mem_visits.mp hnv) hwaits.1.1.1 htarget (show (1 : Int) < 2 by decide)
  exact ⟨p, m, n, i, j, he, hmv, hmeasured.1, hwf.mem_visits.mp hnv, hwaits.1.1.1, hi, hj,
    fun hij => (hiff i j hi hj).mp hij hovertakes⟩

end Sequencer
