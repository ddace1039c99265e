import Mathlib.Data.Nat.Bitwise
import Mathlib.Tactic.Ring
import Sequencer.Simulation.StateVector

/-!
# Controlled operators

A gate replaces the amplitudes of two basis states that differ in its target
bit by the product of its matrix with them, wherever all controls are set. The
pairs are visited by their members without the target bit, and what a visit
writes is read again by no other one. So the amplitudes after all visits are
those of `Matrix2.act`, which takes them all from the state before the gate.

`StateVector.controlled_update`: the state after a gate is the only one in which
these pairs are replaced and all other amplitudes kept, and gates without a
common qubit commute.
-/

namespace Sequencer

-- ---------------------------------------------------------------------------
-- Bits of basis states
-- ---------------------------------------------------------------------------

theorem or_two_pow {k i : Nat} (h : k.testBit i = false) : k ||| 2 ^ i = k ^^^ 2 ^ i := by
  refine Nat.eq_of_testBit_eq fun j => ?_
  rw [Nat.testBit_or, Nat.testBit_xor, Nat.testBit_two_pow]
  by_cases hj : i = j
  · subst hj
    simp [h]
  · simp [hj]

theorem flip_lt {n target k : Nat} (ht : target < n) (hk : k < 2 ^ n) : k ^^^ 2 ^ target < 2 ^ n :=
  Nat.xor_lt_two_pow hk (Nat.pow_lt_pow_right (by decide) ht)

theorem and_two_pow_eq_zero {k i : Nat} : k &&& 2 ^ i = 0 ↔ k.testBit i = false := by
  rw [Nat.and_two_pow]
  cases k.testBit i <;> simp

theorem testBit_bitMask (bits : List Nat) (i : Nat) :
    (StateVector.bitMask bits).testBit i = decide (i ∈ bits) := by
  have hfold (mask : Nat) : (bits.foldl (fun mask b => mask ||| 1 <<< b) mask).testBit i =
      (mask.testBit i || decide (i ∈ bits)) := by
    induction bits generalizing mask with
    | nil => simp
    | cons b rest ih =>
      rw [List.foldl_cons, ih, Nat.testBit_or, Nat.one_shiftLeft, Nat.testBit_two_pow, Bool.or_assoc]
      simp [eq_comm]
  rw [StateVector.bitMask, hfold, Nat.zero_testBit, Bool.false_or]

theorem and_bitMask {bits : List Nat} {k : Nat} :
    k &&& StateVector.bitMask bits = StateVector.bitMask bits ↔ ∀ b ∈ bits, k.testBit b = true := by
  constructor
  · intro h b hb
    have hbit := congrArg (fun mask => mask.testBit b) h
    simpa [testBit_bitMask, hb] using hbit
  · intro h
    refine Nat.eq_of_testBit_eq fun i => ?_
    rw [Nat.testBit_and, testBit_bitMask]
    by_cases hi : i ∈ bits
    · simp [hi, h i hi]
    · simp [hi]

/-- The member without the target bit of the pair that a basis state belongs to. -/
def pairBase (target k : Nat) : Nat := if k.testBit target then k ^^^ 2 ^ target else k

theorem testBit_pairBase (target k : Nat) : (pairBase target k).testBit target = false := by
  rw [pairBase]
  split <;> simp_all

theorem pairBase_flip (target k : Nat) : pairBase target (k ^^^ 2 ^ target) = pairBase target k := by
  cases h : k.testBit target <;> simp [pairBase, h]

theorem pairBase_eq_iff {target i k : Nat} (hi : i.testBit target = false) :
    pairBase target k = i ↔ k = i ∨ k = i ^^^ 2 ^ target := by
  constructor
  · rintro rfl
    cases h : k.testBit target <;> simp [pairBase, h]
  · rintro (rfl | rfl) <;> simp [pairBase, hi]

theorem pairBase_le (target k : Nat) : pairBase target k ≤ k := by
  rcases (pairBase_eq_iff (testBit_pairBase target k)).mp rfl with h | h
  · exact h.symm.le
  · rw [← or_two_pow (testBit_pairBase target k)] at h
    exact Nat.left_le_or.trans h.symm.le

/-- The controls are set in a basis state, and the target is none of them. -/
def controlsHold (target : Nat) (controls : List Nat) (k : Nat) : Bool :=
  controls.all fun c => k.testBit c && decide (target ≠ c)

theorem controlsHold_iff {target : Nat} {controls : List Nat} {k : Nat} :
    controlsHold target controls k = true ↔
      target ∉ controls ∧ ∀ c ∈ controls, k.testBit c = true := by
  simp only [controlsHold, List.all_eq_true, Bool.and_eq_true, decide_eq_true_eq]
  constructor
  · intro h
    exact ⟨fun hmem => (h target hmem).2 rfl, fun c hc => (h c hc).1⟩
  · rintro ⟨htarget, h⟩ c hc
    exact ⟨h c hc, fun heq => htarget (heq ▸ hc)⟩

theorem controlsHold_flip {target i : Nat} {controls : List Nat} (hi : i ∉ controls) (k : Nat) :
    controlsHold target controls (k ^^^ 2 ^ i) = controlsHold target controls k := by
  rw [controlsHold, controlsHold, Bool.eq_iff_iff, List.all_eq_true, List.all_eq_true]
  refine forall₂_congr fun c hc => ?_
  have hne : i ≠ c := fun h => hi (h ▸ hc)
  simp [hne]

theorem controlsHold_partner (target : Nat) (controls : List Nat) (k : Nat) :
    controlsHold target controls (k ^^^ 2 ^ target) = controlsHold target controls k := by
  by_cases ht : target ∈ controls
  · rw [Bool.eq_iff_iff, controlsHold_iff, controlsHold_iff]
    simp [ht]
  · exact controlsHold_flip ht k

theorem controlsHold_pairBase (target : Nat) (controls : List Nat) (k : Nat) :
    controlsHold target controls (pairBase target k) = controlsHold target controls k := by
  rw [pairBase]
  split
  · exact controlsHold_partner target controls k
  · rfl

theorem controlsHold_of_clear {target : Nat} {controls : List Nat} {i : Nat} (hi : i.testBit target = false) :
    controlsHold target controls i = true ↔ ∀ c ∈ controls, i.testBit c = true := by
  refine controlsHold_iff.trans ⟨And.right, fun h => ⟨fun hmem => ?_, h⟩⟩
  rw [h target hmem] at hi
  cases hi

theorem begins_iff {target : Nat} {controls : List Nat} {i : Nat} :
    (i &&& 1 <<< target = 0 ∧ i &&& StateVector.bitMask controls = StateVector.bitMask controls) ↔
      i.testBit target = false ∧ controlsHold target controls i = true := by
  rw [Nat.one_shiftLeft, and_two_pow_eq_zero, and_bitMask]
  exact and_congr_right fun hi => (controlsHold_of_clear hi).symm

section
variable {R : Type*} [CommRing R]

-- ---------------------------------------------------------------------------
-- Gates as maps of amplitudes
-- ---------------------------------------------------------------------------

namespace Matrix2

def kept (m : Matrix2 R) (bit : Bool) : R := if bit then m.m11 else m.m00

def crossed (m : Matrix2 R) (bit : Bool) : R := if bit then m.m10 else m.m01

def act (m : Matrix2 R) (target : Nat) (controls : List Nat) (f : Nat → R) (k : Nat) : R :=
  if controlsHold target controls k then
    m.kept (k.testBit target) * f k + m.crossed (k.testBit target) * f (k ^^^ 2 ^ target)
  else f k

theorem act_congr_pair {m : Matrix2 R} {target : Nat} {controls : List Nat} {f g : Nat → R} {k : Nat}
    (h : f k = g k) (hflip : f (k ^^^ 2 ^ target) = g (k ^^^ 2 ^ target)) :
    m.act target controls f k = m.act target controls g k := by
  rw [act, act, h, hflip]

theorem act_congr {m : Matrix2 R} {n target : Nat} {controls : List Nat} {f g : Nat → R}
    (ht : target < n) (h : ∀ k < 2 ^ n, f k = g k) {k : Nat} (hk : k < 2 ^ n) :
    m.act target controls f k = m.act target controls g k :=
  act_congr_pair (h k hk) (h _ (flip_lt ht hk))

theorem act_comm (m m' : Matrix2 R) {i j : Nat} {controls controls' : List Nat} (hne : i ≠ j)
    (hi : i ∉ controls') (hj : j ∉ controls) (f : Nat → R) :
    m.act i controls (m'.act j controls' f) = m'.act j controls' (m.act i controls f) := by
  funext k
  have hbit : (k ^^^ 2 ^ j).testBit i = k.testBit i := by simp [Ne.symm hne]
  have hbit' : (k ^^^ 2 ^ i).testBit j = k.testBit j := by simp [hne]
  simp only [act, hbit, hbit', controlsHold_flip hi, controlsHold_flip hj,
    Nat.xor_right_comm k (2 ^ j) (2 ^ i)]
  split_ifs <;> ring

theorem act_base {m : Matrix2 R} {target : Nat} {controls : List Nat} {f : Nat → R} {i : Nat}
    (hbit : i.testBit target = false) (hold : controlsHold target controls i = true) :
    m.act target controls f i = m.m00 * f i + m.m01 * f (i ^^^ 2 ^ target) := by
  simp [act, hbit, hold, kept, crossed]

theorem act_partner {m : Matrix2 R} {target : Nat} {controls : List Nat} {f : Nat → R} {i : Nat}
    (hbit : i.testBit target = false) (hold : controlsHold target controls i = true) :
    m.act target controls f (i ^^^ 2 ^ target) = m.m10 * f i + m.m11 * f (i ^^^ 2 ^ target) := by
  simp [act, hbit, controlsHold_partner, hold, kept, crossed, add_comm]

end Matrix2

namespace StateVector

-- ---------------------------------------------------------------------------
-- The visits of a gate
-- ---------------------------------------------------------------------------

section
variable (m : Matrix2 R) (target : Nat) (controls : List Nat)

@[simp] theorem size_applyAt (bit mask : Nat) (a : Array R) (i : Nat) :
    (applyAt m bit mask a i).size = a.size := by
  rw [applyAt]
  split <;> simp

theorem getD_setIfInBounds (a : Array R) (i : Nat) (x : R) {k : Nat} (hk : k < a.size) :
    (a.setIfInBounds i x).getD k 0 = if i = k then x else a.getD k 0 := by
  simp [Array.getD, hk, Array.getElem_setIfInBounds]

theorem getD_applyAt (a : Array R) (i : Nat) {k : Nat} (hk : k < a.size) :
    (applyAt m (1 <<< target) (bitMask controls) a i).getD k 0 =
      if pairBase target k = i then m.act target controls (a.getD · 0) k else a.getD k 0 := by
  by_cases hbegins : i.testBit target = false ∧ controlsHold target controls i = true
  · have ⟨hbit, hold⟩ := hbegins
    have hflip : i ^^^ 2 ^ target ≠ i := fun h => absurd (congrArg (·.testBit target) h) (by simp)
    rw [applyAt, if_pos (begins_iff.mpr hbegins), Nat.one_shiftLeft, or_two_pow hbit,
      getD_setIfInBounds _ _ _ (by simpa using hk), getD_setIfInBounds _ _ _ hk]
    by_cases hpair : pairBase target k = i
    · rw [if_pos hpair]
      rcases (pairBase_eq_iff hbit).mp hpair with rfl | rfl
      · rw [if_neg hflip, if_pos rfl, Matrix2.act_base hbit hold]
      · rw [if_pos rfl, Matrix2.act_partner hbit hold]
    · obtain ⟨hi, hj⟩ := not_or.mp (mt (pairBase_eq_iff hbit).mpr hpair)
      rw [if_neg (Ne.symm hj), if_neg (Ne.symm hi), if_neg hpair]
  · rw [applyAt, if_neg (mt begins_iff.mp hbegins)]
    by_cases hpair : pairBase target k = i
    · -- a base has no target bit, so it is the controls that do not hold
      have hold : controlsHold target controls k = false := by
        rw [← controlsHold_pairBase, hpair]
        exact Bool.eq_false_iff.mpr fun hold => hbegins ⟨hpair ▸ testBit_pairBase target k, hold⟩
      rw [if_pos hpair, Matrix2.act, if_neg (by simp [hold])]
    · rw [if_neg hpair]

/-- After the visits of the basis states below `t`, the pairs with a base below `t`
are replaced, all from the amplitudes before. -/
theorem visits_spec (a : Array R) (t : Nat) :
    let visited := (List.range t).foldl (applyAt m (1 <<< target) (bitMask controls)) a
    visited.size = a.size ∧ ∀ k < a.size, visited.getD k 0 =
      if pairBase target k < t then m.act target controls (a.getD · 0) k else a.getD k 0 := by
  induction t with
  | zero => simp
  | succ t ih =>
    simp only [List.range_succ, List.foldl_append, List.foldl_cons, List.foldl_nil]
    generalize (List.range t).foldl (applyAt m (1 <<< target) (bitMask controls)) a = visited at ih ⊢
    obtain ⟨hsize, ih⟩ := ih
    refine ⟨(size_applyAt ..).trans hsize, fun k hk => ?_⟩
    rw [getD_applyAt _ _ _ _ _ (hsize ▸ hk)]
    -- no pair with base `t` has been visited, so both of its amplitudes are those before
    have hfresh : ∀ k, pairBase target k = t → visited.getD k 0 = a.getD k 0 := by
      intro k hbase
      by_cases hk : k < a.size
      · rw [ih k hk, if_neg (by omega)]
      · simp [Array.getD, hsize, hk]
    by_cases hbase : pairBase target k = t
    · rw [if_pos hbase, if_pos (by omega)]
      exact Matrix2.act_congr_pair (hfresh k hbase) (hfresh _ ((pairBase_flip target k).trans hbase))
    · rw [if_neg hbase, ih k hk]
      exact if_congr (by omega) rfl rfl

end

@[simp] theorem size_apply (s : StateVector R) (m : Matrix2 R) (target : Nat) (controls : List Nat) :
    (s.apply m target controls).amplitudes.size = s.amplitudes.size :=
  (visits_spec m target controls s.amplitudes s.amplitudes.size).1

theorem amp_apply {s : StateVector R} {m : Matrix2 R} {target : Nat} {controls : List Nat} {k : Nat}
    (hk : k < s.amplitudes.size) :
    (s.apply m target controls).amp k = m.act target controls s.amp k := by
  have hbase : pairBase target k < s.amplitudes.size := (pairBase_le target k).trans_lt hk
  exact ((visits_spec m target controls s.amplitudes _).2 k hk).trans (if_pos hbase)

theorem eq_of_amp {s t : StateVector R} (hqubits : s.qubits = t.qubits)
    (hsize : s.amplitudes.size = t.amplitudes.size)
    (h : ∀ k < s.amplitudes.size, s.amp k = t.amp k) : s = t := by
  obtain ⟨n, a⟩ := s
  obtain ⟨m, b⟩ := t
  refine StateVector.mk.injEq .. |>.mpr ⟨hqubits, Array.ext hsize fun k hk hk' => ?_⟩
  simpa [amp, Array.getD, show k < a.size from hk, show k < b.size from hk'] using h k hk

theorem apply_comm {n : Nat} {s : StateVector R} (hsize : s.amplitudes.size = 2 ^ n) (m m' : Matrix2 R)
    {i j : Nat} {controls controls' : List Nat} (hi : i < n) (hj : j < n) (hne : i ≠ j)
    (hi' : i ∉ controls') (hj' : j ∉ controls) :
    (s.apply m i controls).apply m' j controls' = (s.apply m' j controls').apply m i controls := by
  refine eq_of_amp rfl (by simp) fun k hk => ?_
  have hk : k < 2 ^ n := by simpa [hsize] using hk
  rw [amp_apply (by simpa [hsize] using hk), amp_apply (by simpa [hsize] using hk)]
  calc m'.act j controls' (s.apply m i controls).amp k
      = m'.act j controls' (m.act i controls s.amp) k :=
        Matrix2.act_congr hj (fun k hk => amp_apply (hsize ▸ hk)) hk
    _ = m.act i controls (m'.act j controls' s.amp) k :=
        congrFun (Matrix2.act_comm m' m hne.symm hj' hi' s.amp) k
    _ = m.act i controls (s.apply m' j controls').amp k :=
        Matrix2.act_congr hi (fun k hk => (amp_apply (hsize ▸ hk)).symm) hk

end StateVector

-- ---------------------------------------------------------------------------
-- The update of a gate
-- ---------------------------------------------------------------------------

/-- The state `after` is the state `before` with a matrix applied to the target
wherever all controls are set. If the target is one of the controls, nothing
changes. -/
structure Matrix2.ControlledUpdate (m : Matrix2 R) (target : Nat) (controls : List Nat)
    (before after : StateVector R) : Prop where
  qubits : after.qubits = before.qubits
  size : after.amplitudes.size = before.amplitudes.size
  kept : ∀ k < before.amplitudes.size, (target ∈ controls ∨ ∃ c ∈ controls, k.testBit c = false) →
    after.amp k = before.amp k
  replaced : ∀ i j, i < before.amplitudes.size → i.testBit target = false →
    (∀ c ∈ controls, i.testBit c = true) → j = i ||| 2 ^ target →
    j < before.amplitudes.size ∧ after.amp i = m.m00 * before.amp i + m.m01 * before.amp j ∧
      after.amp j = m.m10 * before.amp i + m.m11 * before.amp j

section
variable {m : Matrix2 R} {target : Nat} {controls : List Nat} {before after : StateVector R}

theorem Matrix2.ControlledUpdate.amp_eq (h : m.ControlledUpdate target controls before after) {k : Nat}
    (hk : k < before.amplitudes.size) : after.amp k = m.act target controls before.amp k := by
  cases hold : controlsHold target controls k with
  | false =>
    rw [act, if_neg (by simp [hold])]
    refine h.kept k hk ?_
    have hnot := mt controlsHold_iff.mpr (Bool.eq_false_iff.mp hold)
    by_contra hall
    push Not at hall
    exact hnot ⟨hall.1, fun c hc => by simpa using hall.2 c hc⟩
  | true =>
    have hbit := testBit_pairBase target k
    have hhold := (controlsHold_pairBase target controls k).trans hold
    have hsize := (pairBase_le target k).trans_lt hk
    obtain ⟨-, hbase, hpartner⟩ :=
      h.replaced _ _ hsize hbit (controlsHold_iff.mp hhold).2 rfl
    rw [or_two_pow hbit] at hbase hpartner
    rcases (pairBase_eq_iff hbit).mp rfl with heq | heq
    · rw [heq, hbase, act_base hbit hhold]
    · rw [heq, hpartner, act_partner hbit hhold]

theorem StateVector.apply_updates {n : Nat} (hsize : before.amplitudes.size = 2 ^ n) (ht : target < n) :
    m.ControlledUpdate target controls before (before.apply m target controls) where
  qubits := rfl
  size := by simp
  kept := by
    intro k hk hkept
    have hnot : ¬ controlsHold target controls k = true := by
      rw [controlsHold_iff]
      rintro ⟨hmem, hall⟩
      rcases hkept with hmem' | ⟨c, hc, hclear⟩
      · exact hmem hmem'
      · simp [hall c hc] at hclear
    rw [amp_apply hk, Matrix2.act, if_neg hnot]
  replaced := by
    rintro i j hi hbit hall rfl
    have hold := (controlsHold_of_clear hbit).mpr hall
    have hj : i ^^^ 2 ^ target < before.amplitudes.size := by
      rw [hsize] at hi ⊢
      exact flip_lt ht hi
    rw [or_two_pow hbit, amp_apply hi, amp_apply hj]
    exact ⟨hj, Matrix2.act_base hbit hold, Matrix2.act_partner hbit hold⟩

end

/-- Applying a gate gives the controlled update, and no other state is one. Two
gates without a common qubit may be applied in either order. -/
theorem StateVector.controlled_update {n : Nat} (s : StateVector R) (hsize : s.amplitudes.size = 2 ^ n)
    (m : Matrix2 R) {target : Nat} (ht : target < n) (controls : List Nat) :
    (∀ after, after = s.apply m target controls ↔ m.ControlledUpdate target controls s after) ∧
      ∀ (m' : Matrix2 R) (target' : Nat) (controls' : List Nat), target' < n →
        (∀ q ∈ target :: controls, q ∉ target' :: controls') →
        (s.apply m target controls).apply m' target' controls' =
          (s.apply m' target' controls').apply m target controls := by
  refine ⟨fun after => ⟨?_, fun h => ?_⟩, fun m' target' controls' ht' hapart => ?_⟩
  · rintro rfl
    exact apply_updates hsize ht
  · refine eq_of_amp h.qubits (by simp [h.size]) fun k hk => ?_
    rw [h.size] at hk
    rw [h.amp_eq hk, amp_apply hk]
  · have ⟨hne, hmem⟩ := not_or.mp (mt List.mem_cons.mpr (hapart target List.mem_cons_self))
    exact apply_comm hsize m m' ht ht' hne hmem fun hmem' =>
      hapart target' (List.mem_cons_of_mem _ hmem') List.mem_cons_self

end

/-- The basis states of four qubits with their own numbers as amplitudes. -/
def StateVector.numbered : StateVector Int :=
  ⟨4, #[0, 1, 2, 3, 4, 5, 6, 7, 8, 9, 10, 11, 12, 13, 14, 15]⟩

theorem StateVector.controlled_update_numbered :
    numbered.amplitudes.size = 2 ^ 4 ∧ (∀ q ∈ [2, 0], q ∉ [3, 1]) ∧
      Matrix2.ControlledUpdate ⟨1, 2, 3, 4⟩ 2 [0] numbered
        ⟨4, #[0, 11, 2, 17, 4, 23, 6, 37, 8, 35, 10, 41, 12, 79, 14, 93]⟩ ∧
      (numbered.apply ⟨1, 2, 3, 4⟩ 2 [0]).apply ⟨0, 1, 1, 1⟩ 3 [1] =
        (numbered.apply ⟨0, 1, 1, 1⟩ 3 [1]).apply ⟨1, 2, 3, 4⟩ 2 [0] := by
  have hsize : numbered.amplitudes.size = 2 ^ 4 := rfl
  have hapart : ∀ q ∈ [2, 0], q ∉ [3, 1] := by decide
  have h := controlled_update numbered hsize ⟨1, 2, 3, 4⟩ (by decide : 2 < 4) [0]
  exact ⟨hsize, hapart, (h.1 _).mp (by rfl), h.2 ⟨0, 1, 1, 1⟩ 3 [1] (by decide) hapart⟩

end Sequencer
