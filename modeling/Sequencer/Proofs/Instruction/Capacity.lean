import Sequencer.Proofs.Instruction.Operands
import Sequencer.Proofs.Qasm.Elaborated
import Sequencer.Proofs.Schedule.BitAccesses

/-!
# Only capacity stops the encoder

A circuit of the front end holds nothing that the encoder does not know, so
the encoder can fail on it for one reason only: an operand is too large. The
error says which: a group that does not fit a header word, the number of a
register test, or the index of a classical bit. Whatever the encoder does
write fits the room and the widths that are set aside for it.
-/

namespace Sequencer

open BitField

/-- The lane of the group of a node. Barriers, measurements and the controls of
a gate have no group. -/
def Node.lane? (n : Node) : Option Lane :=
  if n.barrier || n.measurement then none
  else if n.reset then some .reset
  else if Gate.isChannel n.gate then some .decoherence
  else if n.controlled && !n.target then none
  else
    let mask := decide (1 < n.partners.length)
    match n.cond with
    | none => some (if n.controlled then if mask then .controlMany else .controlOne else .single)
    | some k =>
      let range := decide (k.kind = .register)
      some (if n.controlled then .controlCond mask range else if range then .singleRange else .singleBit)

namespace Circuit

inductive Exceeds (c : Circuit) : EncodeError → Prop
  | group {v : Visit} {l : Lane} (visited : v ∈ c.visits) (lane : v.2.2.lane? = some l)
      (wide : l.room < c.layout.width l) : Exceeds c (.tooWide l.category (c.layout.width l))
  | value {v : Visit} {k : Condition} (visited : v ∈ c.visits) (guarded : v.2.2.cond = some k)
      (several : k.kind = .register) (large : 2 ^ c.numQubits ≤ k.value) :
      Exceeds c (.conditionValue v.1 v.2.2.gate k.value c.numQubits)
  | bit {v : Visit} {k : Condition} {b : String} {i : Nat} (visited : v ∈ c.visits)
      (guarded : v.2.2.cond = some k) (tested : c.Tests k b) (index : c.bits[i]? = some b)
      (large : 2 ^ c.layout.qubitBits ≤ i) :
      Exceeds c (.conditionBit v.1 v.2.2.gate i c.layout.qubitBits)

/-- What is written for a visit fits: the group in the room that is left in its
header word, and every value, as it is given, in its field. -/
structure WritesWhole (c : Circuit) (v : Visit) : Prop where
  room : ∀ {l g}, c.written? v = some (l, g) → ∀ groups,
    g.width ≤ Packing.freeFor l.room (c.layout.width l) groups
  fields : ∀ {l g}, c.written? v = some (l, g) → ∀ f ∈ g.fields, f.value < 2 ^ f.width
  test : ∀ {l g}, c.written? v = some (l, g) → ∀ {test},
    c.optionalTest c.layout v.1 v.2.2 = .ok (some test) → test.Fits c.layout
  measured : v.isMeasured = true →
    c.layout.qubitBits ≤ headerRoom ∧ c.position v.2.1 < 2 ^ c.layout.qubitBits

-- ---------------------------------------------------------------------------
-- Conditions
-- ---------------------------------------------------------------------------

namespace WellFormed
variable {c : Circuit} (wf : c.WellFormed)
include wf

theorem bitIndex_eq {b : String} {i : Nat} (h : c.bits[i]? = some b) : c.bitIndex b = .ok i := by
  simp only [bitIndex, (lastIndexOf?_eq_some wf.nodup_bits).mpr h]

omit wf in
theorem exists_bits {r : Register} (hr : r ∈ c.classical) :
    ∃ low : Nat, ∀ j : Nat, (j : Int) < r.size → c.bits[low + j]? = some (elementName r.name j) := by
  obtain ⟨before, after, hsplit⟩ := List.append_of_mem hr
  refine ⟨(before.flatMap Register.elements).length, fun j hj => ?_⟩
  rw [bits, hsplit, List.flatMap_append, List.flatMap_cons, List.getElem?_append_right (Nat.le_add_right _ _),
    Nat.add_sub_cancel_left, List.getElem?_append_left (by simp [Register.elements]; omega)]
  simp only [Register.elements, List.getElem?_map]
  rw [List.getElem?_range (by omega)]
  rfl

theorem bitTest_error (counted : c.bits.length < Integer.bound) {y : Layout} {t : Int} {gate : String}
    {k : Condition} {e : EncodeError} (hk : k.Resolved c.classical) (h : c.bitTest y t gate k = .error e) :
    (k.kind = .register ∧ 2 ^ y.qubits ≤ k.value ∧ e = .conditionValue t gate k.value y.qubits) ∨
      ∃ b, ∃ i : Nat, c.Tests k b ∧ c.bits[i]? = some b ∧ 2 ^ y.qubitBits ≤ i ∧
        e = .conditionBit t gate i y.qubitBits := by
  cases hk with
  | @register r value declared several low high =>
    obtain ⟨first, hbits⟩ := exists_bits declared
    have hfirst : c.bitIndex (elementName r.name 0) = .ok first := wf.bitIndex_eq (hbits 0 (by omega))
    have hsize : c.classicalSize r.name = r.size := sizeOf_eq wf.classical_names declared
    obtain ⟨j, hj⟩ : ∃ j : Nat, r.size = j + 1 := ⟨(r.size - 1).toNat, by omega⟩
    have hlast := hbits j (by omega)
    have htop : Integer.wrap (first + r.size - 1) = (first + j : Nat) := by
      have := (List.getElem?_eq_some_iff.mp hlast).1
      rw [Integer.wrap_of_lt (by unfold Integer.bound; omega) (by omega)]
      omega
    simp only [bitTest, ↓reduceIte, orFault, hfirst, mapError_ok, bind_eq_error, check_eq_error,
      reduceCtorEq, false_or, Except.ok.injEq, exists_eq_left', pure_ne_error, pure_eq_ok, and_false, or_false,
      hsize, htop, BitTest.top, Nat.pow_eq] at h
    rcases h with ⟨hvalue, rfl⟩ | ⟨-, hindex, rfl⟩
    · exact .inl ⟨rfl, by exact_mod_cast (hvalue.resolve_left (by omega)).2, rfl⟩
    · refine .inr ⟨elementName r.name j, first + j, ?_, hlast, by exact_mod_cast hindex, rfl⟩
      simp only [Tests, ↓reduceIte, hsize]
      exact mem_elements.mpr ⟨j, show j < r.size.toNat by omega, rfl⟩
  | @bit r i value declared inside low high =>
    obtain ⟨first, hbits⟩ := exists_bits declared
    have hbit := hbits i inside
    simp only [bitTest, reduceCtorEq, ↓reduceIte, orFault, wf.bitIndex_eq hbit, mapError_ok, bind_eq_error,
      false_or, Except.ok.injEq, exists_eq_left', pure_ne_error, pure_eq_ok] at h
    rw [check_eq_error] at h
    simp only [pure_ne_error, and_false, or_false, BitTest.top, Nat.pow_eq] at h
    obtain ⟨hindex, rfl⟩ := h
    exact .inr ⟨elementName r.name i, first + i, by simp [Tests], hbit, by exact_mod_cast hindex, rfl⟩

end WellFormed

theorem isRange_of_bitTest {c : Circuit} {y : Layout} {t : Int} {gate : String} {k : Condition} {test : BitTest}
    (h : c.bitTest y t gate k = .ok test) : test.isRange = decide (k.kind = .register) := by
  by_cases hk : k.kind = .register
  · simp only [bitTest, hk, ↓reduceIte, bind_eq_ok, check_eq_ok, pure_eq_ok] at h
    obtain ⟨low, -, -, _, rfl, -, rfl⟩ := h
    simp [BitTest.isRange, hk]
  · simp only [bitTest, hk, ↓reduceIte, bind_eq_ok, check_eq_ok, pure_eq_ok] at h
    obtain ⟨index, -, _, rfl, -, rfl⟩ := h
    simp [BitTest.isRange, hk]

end Circuit

-- ---------------------------------------------------------------------------
-- Groups
-- ---------------------------------------------------------------------------

theorem Layout.checked_error {y : Layout} {l : Lane} {e : EncodeError} (h : y.checked l = .error e) :
    l.room < y.width l ∧ e = .tooWide l.category (y.width l) := by
  rw [checked] at h
  split at h
  · cases h
  · rename_i hfits
    exact ⟨by simpa [fits] using hfits, (Except.error.inj h).symm⟩

theorem Lane.qubits_of_testsRange {y : Layout} {l : Lane} (hfits : y.width l ≤ l.room)
    (h : l.testsRange = true) : y.qubits < 63 := by
  have hroom := l.room_le
  simp only [headerRoom] at hroom
  cases l <;> simp_all only [Lane.testsRange, Bool.false_eq_true, Layout.width, Layout.rangeTest] <;> omega

theorem controlMask_lt {n : Nat} {indices : List Nat} (h : ∀ i ∈ indices, i < n) :
    controlMask indices < 2 ^ n := by
  have hfold : ∀ m < 2 ^ n,
      indices.foldl (fun m i => m ||| (if i < 64 then Nat.pow 2 i else 0)) m < 2 ^ n := by
    induction indices with
    | nil => exact fun m hm => hm
    | cons i rest ih =>
      obtain ⟨hi, hrest⟩ := List.forall_mem_cons.mp h
      refine fun m hm => ih hrest _ (Nat.or_lt_two_pow hm ?_)
      split
      · exact Nat.pow_lt_pow_right (by decide) hi
      · exact Nat.two_pow_pos n
  exact hfold 0 (Nat.two_pow_pos n)

theorem BitTest.value_lt {y : Layout} (test : BitTest) : ∀ f ∈ test.fields y, f.value < 2 ^ f.width := by
  have hofInt (x : Int) (w : Nat) : (BitField.ofInt x w).value < 2 ^ (BitField.ofInt x w).width := by
    have hpos : (0 : Int) < (2 ^ w : Nat) := by exact_mod_cast Nat.two_pow_pos w
    have := Int.emod_lt_of_pos x hpos
    simp only [BitField.ofInt, Nat.pow_eq]
    omega
  cases test with
  | bit index value => exact List.forall_mem_cons.mpr ⟨hofInt _ _, by simpa using hofInt value 1⟩
  | range low high value =>
    exact List.forall_mem_cons.mpr ⟨hofInt _ _, List.forall_mem_cons.mpr ⟨hofInt _ _, by
      simpa using hofInt value y.qubits⟩⟩

theorem testFields_value_lt {y : Layout} (test : Option BitTest) :
    ∀ f ∈ testFields y test, f.value < 2 ^ f.width := by
  cases test with
  | none => simp [testFields]
  | some test => exact test.value_lt

namespace Circuit
variable {c : Circuit} {v : Visit} {e : EncodeError}

theorem controlField_ok (wf : c.WellFormed) {controls : List String} (h : ∀ q ∈ controls, q ∈ c.qubits) :
    ∃ f, c.controlField c.layout controls = .ok f ∧ f.value < 2 ^ f.width := by
  rw [controlField.eq_def]
  split
  · rename_i q
    have hq := h q List.mem_cons_self
    exact ⟨⟨c.position q, c.layout.qubitBits⟩, by rw [wf.qubitIndex_eq hq]; rfl,
      Layout.lt_two_pow (position_lt hq)⟩
  · have hindices := mapM_eq_map fun q hq => wf.qubitIndex_eq (h q hq)
    refine ⟨⟨controlMask (controls.map c.position), c.layout.qubits⟩, by rw [hindices]; rfl, ?_⟩
    exact controlMask_lt (List.forall_mem_map.mpr fun q hq => position_lt (h q hq))

theorem exceeds_of_checked {l : Lane} (hv : v ∈ c.visits) (hl : v.2.2.lane? = some l)
    (h : c.layout.checked l = .error e) : c.Exceeds e := by
  obtain ⟨hwide, rfl⟩ := Layout.checked_error h
  exact .group hv hl hwide

theorem exceeds_of_optionalTest (wf : c.WellFormed) (counted : c.bits.length < Integer.bound)
    (hv : v ∈ c.visits) (resolved : ∀ k ∈ v.2.2.cond, k.Resolved c.classical)
    (h : c.optionalTest c.layout v.1 v.2.2 = .error e) : c.Exceeds e := by
  rw [optionalTest] at h
  split at h
  · cases h
  · rename_i k hk
    have hqubits : c.layout.qubits = c.numQubits := by
      have := position_lt_numQubits (mem_visits.mp hv).2.1
      rw [qubits_layout]
      omega
    rcases wf.bitTest_error counted (resolved k hk) (map_eq_error.mp h) with
      ⟨hkind, hvalue, rfl⟩ | ⟨b, i, htests, hbit, hlarge, rfl⟩
    · rw [hqubits] at hvalue ⊢
      exact .value hv hk hkind hvalue
    · exact .bit hv hk htests hbit hlarge

theorem optionalTest_eq {t : Int} {n : Node} {test : Option BitTest}
    (h : c.optionalTest c.layout t n = .ok test) :
    test.map BitTest.isRange = n.cond.map fun k => decide (k.kind = .register) := by
  rw [optionalTest] at h
  split at h
  · rename_i hn
    simp [hn, ← Except.ok.inj h]
  · rename_i k hn
    obtain ⟨r, hr, rfl⟩ := map_eq_ok.mp h
    simp [hn, isRange_of_bitTest hr]

theorem exceeds_of_groupOf (wf : c.WellFormed) (counted : c.bits.length < Integer.bound) (hv : v ∈ c.visits)
    (admitted : v.2.2.Admitted c.classical) (hbarrier : v.2.2.barrier = false)
    (hmeasure : v.2.2.measurement = false)
    (h : c.groupOf c.layout v.1 (c.position v.2.1) v.2.2 = .error e) : c.Exceeds e := by
  obtain ⟨t, q, n⟩ := v
  simp only at admitted hbarrier hmeasure h
  cases admitted with
  | @gate name params cond slice known count resolved =>
    have hchannel := Gate.channel?_of_single? known
    obtain ⟨p, hp⟩ := Option.isSome_iff_exists.mp known
    simp only [groupOf, hchannel, Bool.false_eq_true, ↓reduceIte, map_eq_error, singleGroup, hp,
      bind_eq_error, pure_ne_error, and_false, exists_false, or_false] at h
    rcases h with h | ⟨test, htest, h⟩
    · exact exceeds_of_optionalTest wf counted hv resolved h
    · refine exceeds_of_checked hv ?_ h
      have hrange := optionalTest_eq htest
      cases test <;> cases cond <;>
        simp_all [Node.lane?, Gate.isChannel, singleLane]
  | @controlled name partners params target cond slice known count resolved =>
    have hchannel := Gate.channel?_of_controlled? known
    obtain ⟨p, hp⟩ := Option.isSome_iff_exists.mp known
    have hpartners : ∀ p ∈ partners, p ∈ c.qubits := fun p hp =>
      wf.mem_participants hv (List.mem_cons_of_mem _ hp)
    obtain ⟨f, hf, -⟩ := controlField_ok wf hpartners
    cases target with
    | false => simp [groupOf, hchannel] at h
    | true =>
      simp only [groupOf, hchannel, Bool.false_eq_true, ↓reduceIte, map_eq_error, controlledGroup, hp, hf,
        orFault, mapError_ok, bind_eq_error, pure_ne_error, and_false, exists_false, or_false,
        reduceCtorEq, Except.ok.injEq] at h
      rcases h with h | ⟨test, htest, h⟩
      · exact exceeds_of_optionalTest wf counted hv resolved h
      · refine exceeds_of_checked hv ?_ h
        have hrange := optionalTest_eq htest
        cases test <;> cases cond <;>
          simp_all [Node.lane?, Gate.isChannel, controlLane]
  | measure => simp at hmeasure
  | barrier => simp at hbarrier
  | reset =>
    simp only [groupOf, ↓reduceIte, map_eq_error, resetGroup, bind_eq_error, pure_ne_error, and_false,
      exists_false, or_false] at h
    exact exceeds_of_checked hv rfl h
  | @channel name partners params slice known count =>
    obtain ⟨ch, hch⟩ := Option.isSome_iff_exists.mp known
    simp only [groupOf, hch, Bool.false_eq_true, ↓reduceIte, map_eq_error, decoherenceGroup, bind_eq_error,
      pure_ne_error, and_false, exists_false, or_false] at h
    exact exceeds_of_checked hv (by simp [Node.lane?, known]) h

theorem takesCondition_of_admitted {n : Node} {classical : List Register} (h : n.Admitted classical)
    (hcond : n.isConditioned = true) : n.takesCondition (Gate.isChannel n.gate) = true := by
  cases h with
  | gate known => simp [Node.takesCondition, Gate.isChannel, Gate.channel?_of_single? known]
  | controlled known => simp [Node.takesCondition, Gate.isChannel, Gate.channel?_of_controlled? known]
  | measure | reset | barrier | channel => simp [Node.isConditioned] at hcond

-- ---------------------------------------------------------------------------
-- What is written fits
-- ---------------------------------------------------------------------------

theorem fields_lt_of_groupOf (wf : c.WellFormed) (hv : v ∈ c.visits) {l : Lane} {g : Group}
    (h : c.groupOf c.layout v.1 (c.position v.2.1) v.2.2 = .ok (some (l, g))) :
    ∀ f ∈ g.fields, f.value < 2 ^ f.width := by
  have hindex : c.position v.2.1 < 2 ^ c.layout.qubitBits :=
    Layout.lt_two_pow (position_lt (mem_visits.mp hv).2.1)
  have hpartners : ∀ p ∈ v.2.2.partners, p ∈ c.qubits := fun p hp =>
    wf.mem_participants hv (List.mem_cons_of_mem _ hp)
  cases groupOf_ok h with
  | reset => simpa using hindex
  | @decoherence channel => simpa using And.intro hindex channel.kind_lt
  | @controlled p test f _ _ _ hf =>
    obtain ⟨f', hf', hlt⟩ := controlField_ok wf hpartners
    obtain rfl := Except.ok.inj (hf.symm.trans hf')
    simpa [hlt, hindex, selectorField] using ⟨p.selector_lt, testFields_value_lt test⟩
  | @single p test => simpa [hindex, selectorField] using ⟨p.selector_lt, testFields_value_lt test⟩

/-- A lane that a group of the circuit goes to has room for the numbers of its
conditions, so that they are checked. -/
theorem test_fits_of_groupOf (wf : c.WellFormed) (counted : c.bits.length < Integer.bound)
    (admitted : v.2.2.Admitted c.classical) {l : Lane} {g : Group}
    (h : c.groupOf c.layout v.1 (c.position v.2.1) v.2.2 = .ok (some (l, g))) {test : BitTest}
    (htest : c.optionalTest c.layout v.1 v.2.2 = .ok (some test)) : test.Fits c.layout := by
  have htakes := takesCondition_of_admitted admitted (optionalTest_isSome htest).symm
  simp only [Node.takesCondition, Bool.and_eq_true, Bool.not_eq_true'] at htakes
  have hfits (hwidth : c.layout.width l ≤ l.room) (hrange : l.testsRange = test.isRange) :
      test.Fits c.layout := by
    refine wf.optionalTest_fits counted htest ?_ test rfl
    rintro r ⟨⟩ hr
    exact Lane.qubits_of_testsRange hwidth (hrange.trans hr)
  cases groupOf_ok h with
  | reset asked => simp [asked] at htakes
  | decoherence found => simp [Gate.isChannel, found] at htakes
  | single _ tested fits =>
    obtain rfl := Except.ok.inj (tested.symm.trans htest)
    exact hfits fits (testsRange_singleLane rfl)
  | controlled _ _ tested _ fits =>
    obtain rfl := Except.ok.inj (tested.symm.trans htest)
    exact hfits fits (testsRange_controlLane rfl)

/-- The front end's part in encoding: every node is known to the encoder, and
what can be counted in memory can be counted in a word. -/
structure Encodable (c : Circuit) : Prop where
  wellFormed : c.WellFormed
  admits : ∀ v ∈ c.visits, v.2.2.Admitted c.classical
  qubits : c.numQubits ≤ 2 ^ headerRoom
  bits : c.bits.length < Integer.bound

namespace Encodable
variable (h : c.Encodable)
include h

theorem qubitBits_le : c.layout.qubitBits ≤ headerRoom := by
  refine Layout.qubitBits_le_of_le (by decide) ?_
  rw [qubits_layout]
  have := h.qubits
  have : 1 ≤ 2 ^ headerRoom := by decide
  omega

theorem writesWhole (hv : v ∈ c.visits) : c.WritesWhole v := by
  have hq : v.2.1 ∈ c.qubits := (mem_visits.mp hv).2.1
  have admitted := h.admits v hv
  refine ⟨?_, ?_, ?_, fun _ => ⟨h.qubitBits_le, Layout.lt_two_pow (position_lt hq)⟩⟩
  · intro l g hw groups
    obtain ⟨hgroup, hbarrier, hmeasure⟩ := groupOf_of_written hw
    have accepts : c.Accepts v :=
      ⟨takesCondition_of_admitted admitted, fun _ _ => hw ▸ hgroup, by simp [Visit.isMeasured, hmeasure]⟩
    rcases h.wellFormed.legible h.bits hv accepts with ⟨hnone, -⟩ | ⟨l', g', o, hsome, -, hlegible⟩
    · rw [hnone] at hw
      cases hw
    · obtain ⟨rfl, rfl⟩ := Prod.mk.inj (Option.some.inj (hsome.symm.trans hw))
      rw [hlegible.width]
      unfold Packing.freeFor
      simp only
      split
      · assumption
      · exact hlegible.fits
  · intro l g hw
    exact fields_lt_of_groupOf h.wellFormed hv (groupOf_of_written hw).1
  · intro l g hw test htest
    exact test_fits_of_groupOf h.wellFormed h.bits admitted (groupOf_of_written hw).1 htest

end Encodable
end Circuit

-- ---------------------------------------------------------------------------
-- The run
-- ---------------------------------------------------------------------------

namespace Emission
variable {c : Circuit} {ended : List Int} {vs : List Visit} {b : Batches} {e : Emission} {v : Visit}

theorem Holds.flush_ok (h : Holds c ended vs b e) : ∃ e', e.flush = .ok e' := by
  unfold Emission.flush
  split
  · exact ⟨e, rfl⟩
  · rename_i hflushed
    obtain ⟨rest, hclose, -⟩ := h.pending.close (mt h.pending.isFlushed_iff.mpr hflushed)
    simp only [hclose]
    exact ⟨_, rfl⟩

theorem Holds.before_succeeds (wf : c.WellFormed) (h : Holds c ended vs b e) (hq : v.2.1 ∈ c.qubits)
    (hcond : v.2.2.isConditioned = true → v.2.2.takesCondition (Gate.isChannel v.2.2.gate) = true) :
    ∃ r, e.before c v.1 v.2.1 v.2.2 = .ok r := by
  obtain ⟨flushed, hflush⟩ := h.flush_ok
  have hallowed : ¬ (v.2.2.isConditioned && !v.2.2.takesCondition (Gate.isChannel v.2.2.gate)) = true := by
    simpa using hcond
  refine ⟨(c.position v.2.1, if needsMeasured v.2.2 then flushed else e), ?_⟩
  rw [before, orFault, wf.qubitIndex_eq hq, bind_eq_ok]
  refine ⟨_, rfl, check_eq_ok.mpr ⟨hallowed, ?_⟩⟩
  by_cases hw : needsMeasured v.2.2 = true
  · simp only [if_pos hw, hflush]
    rfl
  · simp only [if_neg hw]
    rfl

theorem Holds.exceeds (enc : c.Encodable) (h : Holds c ended vs b e) (hv : v ∈ c.visits) (ht : v.1 ∉ ended)
    {err : EncodeError} (he : e.visit c c.layout v.1 v.2.1 v.2.2 = .error err) : c.Exceeds err := by
  have wf := enc.wellFormed
  have hq : v.2.1 ∈ c.qubits := (Circuit.mem_visits.mp hv).2.1
  obtain ⟨⟨index, ready⟩, hbefore⟩ :=
    h.before_succeeds wf hq (Circuit.takesCondition_of_admitted (enc.admits v hv))
  obtain ⟨-, rfl, hflush⟩ := before_ok wf hq hbefore
  have hready := h.ready hflush
  rw [Emission.visit, hbefore] at he
  by_cases hbarrier : v.2.2.barrier = true
  · simp [hbarrier, bind, Except.bind, pure, Except.pure] at he
  by_cases hmeasure : v.2.2.measurement = true
  · obtain ⟨next, hadd, -⟩ := hready.pending.add c.layout.qubitBits_pos enc.qubitBits_le
      (Layout.lt_two_pow (Circuit.position_lt hq)) v.1
    simp [hbarrier, hmeasure, Emission.measure, hadd, bind, Except.bind] at he
  · change (if _ then _ else if _ then _ else _ >>= _) = _ at he
    rw [if_neg hbarrier, if_neg hmeasure, bind_eq_error] at he
    simp only [Bool.not_eq_true] at hbarrier hmeasure
    rcases he with he | ⟨entry, hentry, he⟩
    · exact Circuit.exceeds_of_groupOf wf enc.bits hv (enc.admits v hv) hbarrier hmeasure he
    · cases entry with
      | none => cases he
      | some r =>
        obtain ⟨l, g⟩ := r
        have hwritten : c.written? v = some (l, g) := by
          simp [Circuit.written?, hbarrier, hmeasure, hentry, Except.toOption]
        have hsuits := (Circuit.groupOf_ok hentry).suits
        rcases (hready.opened v.1 ht).add hsuits with ⟨hwide, -⟩ | ⟨-, s, hadd, -⟩
        · exact absurd ((enc.writesWhole hv).room hwritten _) (Nat.not_le.mpr hwide)
        · simp [Emission.addGroup, orFault, hadd, mapError_ok, bind, Except.bind, pure, Except.pure] at he

theorem Holds.encodeSlice_outcome (enc : c.Encodable) (hbound : c.layout.qubitBits ≤ 64)
    (h : Holds c ended vs (Batches.ofVisits vs) e) {t : Int} (hslice : t ∈ c.slices) (ht : t ∉ ended) :
    (∃ e', c.encodeSlice c.layout e t = .ok e') ∨ ∃ err, c.encodeSlice c.layout e t = .error err ∧ c.Exceeds err := by
  have hrun := foldlM_outcome
    (f := fun (e : Emission) (v : Visit) => e.visit c c.layout v.1 v.2.1 v.2.2) (l := c.visitsAt t)
    (P := fun done e => Holds c ended (vs ++ done) (Batches.ofVisits (vs ++ done)) e) (E := c.Exceeds)
    (by simpa using h)
    (fun done v rest e hsplit ih => by
      have hmem : v ∈ c.visitsAt t := hsplit ▸ by simp
      obtain ⟨rfl, hq, -⟩ := Circuit.mem_visitsAt.mp hmem
      have hvisit : v ∈ c.visits := List.mem_flatMap.mpr ⟨v.1, hslice, hmem⟩
      cases hv : e.visit c c.layout v.1 v.2.1 v.2.2 with
      | ok e' =>
        refine .inl ⟨e', rfl, ?_⟩
        rw [← List.append_assoc, Batches.ofVisits_concat]
        exact (ih.visit enc.wellFormed hbound ht hq hv).2
      | error err => exact .inr ⟨err, rfl, ih.exceeds enc hvisit ht hv⟩)
  rcases hrun with ⟨e', he, -⟩ | ⟨err, he, hexceeds⟩
  · exact .inl ⟨_, bind_eq_ok.mpr ⟨e', he, rfl⟩⟩
  · exact .inr ⟨err, bind_eq_error.mpr (.inl he), hexceeds⟩

end Emission

namespace Circuit
variable {c d : Circuit}

theorem Encodable.encode_outcome (h : c.Encodable) :
    (∃ p, c.encode = .ok p) ∨ ∃ e, c.encode = .error e ∧ c.Exceeds e := by
  have hbits : c.layout.qubitBits ≤ 64 := Nat.le_trans h.qubitBits_le (by decide)
  have hrun := foldlM_outcome (f := c.encodeSlice c.layout) (l := c.slices)
    (P := fun ended e => Emission.Holds c ended (ended.flatMap c.visitsAt)
      (Batches.ofVisits (ended.flatMap c.visitsAt)) e)
    (E := c.Exceeds) (Emission.holds_start c)
    (fun ended t rest e hsplit ih => by
      have hslice : t ∈ c.slices := hsplit ▸ by simp
      have hnew : t ∉ ended := fun h => List.disjoint_of_nodup_append (hsplit ▸ c.nodup_slices) h (by simp)
      rcases ih.encodeSlice_outcome h hbits hslice hnew with ⟨e', he⟩ | hfails
      · refine .inl ⟨e', he, ?_⟩
        rw [List.flatMap_append, List.flatMap_singleton]
        exact (ih.encodeSlice h.wellFormed hbits hnew he).2
      · exact .inr hfails)
  rcases hrun with ⟨e, he, hholds⟩ | ⟨err, he, hexceeds⟩
  · obtain ⟨flushed, hflush⟩ := hholds.flush_ok
    exact .inl ⟨_, bind_eq_ok.mpr ⟨e, he, bind_eq_ok.mpr ⟨flushed, hflush, rfl⟩⟩⟩
  · refine .inr ⟨err, ?_, hexceeds⟩
    rw [encode, bind_eq_error]
    exact .inl he

theorem Encodable.scheduled (h : c.Encodable) (comma : c.CommaFree) (mode : Mode) :
    ∃ d, c.schedule ⟨true, mode.code⟩ = .ok d ∧ d.Encodable := by
  obtain ⟨d, slot, hd, hs⟩ := h.wellFormed.schedule_ok comma mode
  refine ⟨d, hd, h.wellFormed.schedule_wellFormed comma hd, ?_, ?_, ?_⟩
  · intro w hw
    obtain ⟨v, hv, rfl⟩ := (hs.mem_visits h.wellFormed).mp hw
    rw [hs.classical]
    exact (h.admits v hv).moved _
  · rw [numQubits, hs.qubits_eq]
    exact h.qubits
  · rw [Circuit.bits, hs.classical]
    exact h.bits

end Circuit

namespace Qasm

theorem Elaborated.commaFree {c : Circuit} (h : Elaborated c) : c.CommaFree := by
  intro r hr
  exact (h.register (List.mem_append_left _ hr)).1.notMem (by decide)

theorem Elaborated.encodable {c : Circuit} (h : Elaborated c) (size : c.Addressable) : c.Encodable := by
  have wf := h.wellFormed size.slices
  exact ⟨wf, fun v hv => h.admits (wf.mem_visits.mp hv), size.qubits, size.bits⟩

/-- The front end leaves only capacity errors to the encoder. -/
theorem encode_of_readCircuit {name text : String} {c : Circuit} (h : readCircuit name text = .ok c)
    (size : c.Addressable) (o : ScheduleOptions) (valid : o.enabled = true → ∃ mode : Mode, mode.code = o.mode) :
    ∃ d, c.schedule o = .ok d ∧
      ((∃ p, d.encode = .ok p) ∨ ∃ e, d.encode = .error e ∧ d.Exceeds e) ∧ ∀ v ∈ d.visits, d.WritesWhole v := by
  have he := elaborated_of_readCircuit h
  have henc := he.encodable size
  have hscheduled : ∃ d, c.schedule o = .ok d ∧ d.Encodable := by
    obtain ⟨enabled, mode⟩ := o
    cases enabled with
    | false => exact ⟨c, rfl, henc⟩
    | true =>
      obtain ⟨mode, rfl⟩ := valid rfl
      exact henc.scheduled he.commaFree mode
  obtain ⟨d, hd, hdenc⟩ := hscheduled
  exact ⟨d, hd, hdenc.encode_outcome, fun v hv => hdenc.writesWhole hv⟩

/-- A test of three bits over two qubits. -/
def largeTest : String :=
  "OPENQASM 2.0;\nqreg q[2];\ncreg c[3];\nmeasure q[0] -> c[0];\nif (c == 7) x q[1];\n"

theorem encode_of_readCircuit_largeTest :
    ∃ c d e, readCircuit "main" largeTest = .ok c ∧ c.Addressable ∧ c.schedule .standard = .ok d ∧
      d.encode = .error e ∧ d.Exceeds e := by
  have hread : (readCircuit "main" largeTest).toOption.any (fun c => decide c.Addressable &&
      (c.schedule .standard).toOption.any fun d => d.encode.toOption.isNone) = true := by
    decide +kernel
  obtain ⟨c, hc, hread⟩ := (Option.any_eq_true _ _).mp hread
  rw [toOption_eq_some] at hc
  simp only [Bool.and_eq_true, decide_eq_true_eq] at hread
  obtain ⟨size, hfails⟩ := hread
  obtain ⟨d, hd, ⟨p, hp⟩ | ⟨e, he, hexceeds⟩, -⟩ :=
    encode_of_readCircuit hc size .standard fun _ => ⟨.packed, rfl⟩
  · simp [hd, hp, Except.toOption] at hfails
  · exact ⟨c, d, e, hc, size, hd, he, hexceeds⟩

end Qasm
end Sequencer
