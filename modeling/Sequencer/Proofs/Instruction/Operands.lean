import Mathlib.Data.List.Sort
import Sequencer.Proofs.GateNames
import Sequencer.Proofs.Instruction.BitTests

/-!
# Operands

The operation that a visit stands for, and that the group the encoder writes
for it is read back as that operation: its fields one after the other, and what
follows the header word when it has parameters.
-/

namespace Sequencer

open BitField

-- ---------------------------------------------------------------------------
-- Names
-- ---------------------------------------------------------------------------

theorem Primitive.ofSelector?_selector (p : Primitive) : ofSelector? p.selector = some p := by
  cases p <;> decide

theorem Primitive.selector_lt (p : Primitive) : p.selector < 2 ^ Layout.selectorBits := by
  cases p <;> decide

theorem Channel.ofKind?_kind (ch : Channel) : ofKind? ch.kind = some ch := by
  cases ch <;> decide

theorem Channel.kind_lt (ch : Channel) : ch.kind < 2 ^ 1 := by
  cases ch <;> decide

theorem Channel.encodesAngle_name (ch : Channel) : Gate.encodesAngle ch.name = false := by
  cases ch <;> decide

theorem Gate.encodesAngle_empty : Gate.encodesAngle "" = false := by decide

-- ---------------------------------------------------------------------------
-- Controls
-- ---------------------------------------------------------------------------

theorem testBit_controlMask {indices : List Nat} (i : Nat) (hi : i < 64) :
    (controlMask indices).testBit i = decide (i ∈ indices) := by
  have hfold (m : Nat) : (indices.foldl (fun m i => m ||| (if i < 64 then Nat.pow 2 i else 0)) m).testBit i =
      (m.testBit i || decide (i ∈ indices)) := by
    induction indices generalizing m with
    | nil => simp
    | cons j rest ih =>
      have hbit : (if j < 64 then Nat.pow 2 j else 0).testBit i = decide (i = j) := by
        by_cases hj : j < 64
        · rw [if_pos hj, Nat.pow_eq, Nat.testBit_two_pow]
          exact decide_eq_decide.mpr eq_comm
        · have : i ≠ j := by omega
          simp [hj, this]
      rw [List.foldl_cons, ih, Nat.testBit_or, hbit]
      simp [Bool.or_assoc]
  rw [controlMask, hfold, Nat.zero_testBit, Bool.false_or]

theorem maskBits_controlMask {n : Nat} {indices : List Nat} (hn : n ≤ 64) (nodup : indices.Nodup)
    (hlt : ∀ i ∈ indices, i < n) :
    HeaderWord.maskBits n (controlMask indices % 2 ^ n) =
      (indices.mergeSort (· ≤ ·)).map fun (i : Nat) => (i : Int) := by
  have hbits : HeaderWord.maskBits n (controlMask indices % 2 ^ n) =
      ((List.range n).filter fun i => i ∈ indices).map fun (i : Nat) => (i : Int) := by
    rw [HeaderWord.maskBits, ← List.filterMap_eq_map, List.filterMap_filter]
    refine List.filterMap_congr fun i hi => ?_
    have hi := List.mem_range.mp hi
    simp [Nat.testBit_mod_two_pow, hi, testBit_controlMask i (by omega)]
  rw [hbits]
  congr 1
  have hperm : ((List.range n).filter fun i => i ∈ indices).Perm (indices.mergeSort (· ≤ ·)) := by
    refine .trans ?_ (List.mergeSort_perm indices _).symm
    refine (List.perm_ext_iff_of_nodup (List.nodup_range.filter _) nodup).mpr fun i => ?_
    simp only [List.mem_filter, List.mem_range, decide_eq_true_eq]
    exact ⟨fun h => h.2, fun h => ⟨hlt i h, h⟩⟩
  have hrange : ((List.range n).filter fun i => i ∈ indices).Pairwise (· ≤ ·) :=
    (List.pairwise_lt_range.filter _).imp Nat.le_of_lt
  have hsorted : (indices.mergeSort (· ≤ ·)).Pairwise fun a b => decide (a ≤ b) = true :=
    List.pairwise_mergeSort (by simp; omega) (by simp; omega) indices
  exact hperm.eq_of_pairwise (fun a b _ _ => Nat.le_antisymm) hrange (hsorted.imp of_decide_eq_true)

-- ---------------------------------------------------------------------------
-- Numbers
-- ---------------------------------------------------------------------------

namespace Fixed

def InRange (v : Fixed) : Prop := Int.bmod v (Nat.pow 2 32) = v

theorem inRange_ofFloat (x : Float) : InRange (ofFloat x) := Int.bmod_bmod

theorem ofBits_field {v : Fixed} (h : InRange v) : ofBits v.field.bits = v :=
  (bmod_bits_ofInt v 32).trans h

theorem toNat_halves (a : Fixed) (f : BitField) (hf : f.width = 32) :
    (Word.ofFields [a.field, f]).toNat = a.field.bits * 2 ^ 32 + f.bits := by
  rw [Word.toNat_ofFields (by simp [field, hf])]
  simp [concat_cons, hf]

theorem high_ofFields {a : Fixed} {f : BitField} (h : InRange a) (hf : f.width = 32) :
    high (Word.ofFields [a.field, f]) = a := by
  have hlt : f.bits < 2 ^ 32 := hf ▸ f.bits_lt
  rw [high, toNat_halves a f hf, Nat.pow_eq, Nat.mul_comm, Nat.mul_add_div (by decide),
    Nat.div_eq_of_lt hlt, Nat.add_zero, ofBits_field h]

theorem low_pair {a b : Fixed} (h : InRange b) : low (pair a b) = b := by
  have hlt : b.field.bits < 2 ^ 32 := b.field.bits_lt
  rw [low, pair, toNat_halves a b.field rfl, Nat.pow_eq, Nat.mul_comm, Nat.mul_add_mod,
    Nat.mod_eq_of_lt hlt, ofBits_field h]

theorem high_pair {a b : Fixed} (h : InRange a) : high (pair a b) = a := high_ofFields h rfl

end Fixed

-- ---------------------------------------------------------------------------
-- Operations
-- ---------------------------------------------------------------------------

def Node.angle? (n : Node) : Option (Fixed × Fixed) :=
  if Gate.encodesAngle n.gate then
    n.params.head?.map fun theta =>
      let angle := if Gate.halvesAngle n.gate then theta / 2.0 else theta
      (Fixed.ofFloat (Angle.cos angle), Fixed.ofFloat (Angle.sin angle))
  else none

namespace Circuit
variable (c : Circuit)

def operands (v : Visit) : Option DecodedTest :=
  (c.optionalTest c.layout v.1 v.2.2).toOption.join.map BitTest.decoded

def controls (n : Node) : List Int :=
  ((n.partners.map c.position).mergeSort (· ≤ ·)).map fun (i : Nat) => (i : Int)

/-- The operation of a visit other than a measurement; a controlled gate has
one at its target. -/
def operation? (v : Visit) : Option StreamOperation :=
  let n := v.2.2
  if n.barrier || n.measurement then none
  else if n.reset then some { category := .reset, qubit := c.position v.2.1 }
  else if Gate.isChannel n.gate then
    some { category := .decoherence, gate := n.gate, qubit := c.position v.2.1,
           probability := some (Fixed.ofFloat (n.params.headD 0.0)) }
  else if n.controlled then
    if n.target then
      some { category := if n.isConditioned then .controlCond else .control, gate := n.gate,
             qubit := c.position v.2.1, controls := c.controls n, cond := c.operands v,
             angle := n.angle? }
    else none
  else
    some { category := if n.isConditioned then .singleCond else .single, gate := n.gate,
           qubit := c.position v.2.1, cond := c.operands v, angle := n.angle? }

end Circuit

namespace Operation

def bare (o : StreamOperation) : StreamOperation := { o with angle := none, probability := none }

def Carries (o : StreamOperation) : Trail → Prop
  | .none => Gate.encodesAngle o.gate = false ∧ o.angle = none ∧ o.probability = none
  | .angle w =>
    Gate.encodesAngle o.gate = true ∧ o.angle = some (Fixed.high w, Fixed.low w) ∧ o.probability = none
  | .probability p =>
    Gate.encodesAngle o.gate = false ∧ o.angle = none ∧ o.probability = some p ∧ Fixed.InRange p

end Operation

/-- A group of a lane is read back as an operation. A rotation without a
parameter is followed by no word, and is not asked to be read back. -/
structure Legible (y : Layout) (l : Lane) (g : Group) (o : StreamOperation) : Prop where
  width : g.width = y.width l
  fits : y.width l ≤ l.room
  category : o.category = l.category
  index : ∃ i : Nat, i < y.qubits ∧ o.qubit = i ∧ ⟨i, y.qubitBits⟩ ∈ g.fields
  read : ∀ {h : HeaderWord} {pos : Nat} {rest : List BitField}, h.bits.Holds pos (g.fields ++ rest) →
    h.readGroup y l pos = .ok (o.bare, pos - y.width l)
  carries : (Gate.encodesAngle o.gate = true → o.angle ≠ none) → o.Carries g.trail
  probability : l = .decoherence ↔ ∃ p, g.trail = .probability p

-- ---------------------------------------------------------------------------
-- Reading groups
-- ---------------------------------------------------------------------------

theorem Node.carries_angleTrail {n : Node} {o : StreamOperation} (hgate : o.gate = n.gate)
    (hangle : o.angle = n.angle?) (hprobability : o.probability = none)
    (hrotation : Gate.encodesAngle o.gate = true → o.angle ≠ none) : o.Carries n.angleTrail := by
  rw [hgate, hangle] at hrotation
  rw [angle?] at hangle hrotation
  rw [angleTrail]
  by_cases he : Gate.encodesAngle n.gate = true
  · rw [if_pos he] at hangle hrotation
    cases hn : n.params with
    | nil => simp [hn, he] at hrotation
    | cons theta rest =>
      rw [hn] at hangle
      simp only [he, if_true]
      refine ⟨hgate ▸ he, ?_, hprobability⟩
      rw [hangle, Fixed.angleWord, Fixed.high_pair (Fixed.inRange_ofFloat _),
        Fixed.low_pair (Fixed.inRange_ofFloat _)]
      rfl
  · have hf : Gate.encodesAngle n.gate = false := by simpa using he
    rw [if_neg he] at hangle
    cases n.params <;> simp only [hf] <;> exact ⟨hgate ▸ hf, hangle, hprobability⟩

namespace HeaderWord
variable {h : HeaderWord} {pos : Nat} {rest : List BitField}

theorem read_index {y : Layout} {i : Nat} (hi : i < y.qubits)
    (hw : h.bits.Holds pos (⟨i, y.qubitBits⟩ :: rest)) :
    h.read pos y.qubitBits = .ok (i, pos - y.qubitBits) := by
  have hread := read_eq hw
  rwa [bits_eq (f := ⟨i, y.qubitBits⟩) (Layout.lt_two_pow hi)] at hread

theorem readOptionalTest_eq {y : Layout} {l : Lane} {test : Option BitTest}
    (hl : (l.category = .singleCond ∨ l.category = .controlCond) ↔ test.isSome = true)
    (hrange : ∀ r, test = some r → l.testsRange = r.isRange) (fits : ∀ r, test = some r → r.Fits y)
    (hw : h.bits.Holds pos (testFields y test ++ rest)) :
    h.readOptionalTest y l pos =
      .ok (test.map BitTest.decoded, pos - totalWidth (testFields y test)) := by
  cases test with
  | none => simp [readOptionalTest, hl, testFields, pure, Except.pure]
  | some r =>
    have hread := readTest_eq (fits r rfl) (hrange r rfl) hw
    simp [readOptionalTest, hl, hread, testFields, bind, Except.bind, pure, Except.pure]

theorem readSingle_eq {y : Layout} {l : Lane} {i : Nat} {p : Primitive} {test : Option BitTest}
    (hi : i < y.qubits)
    (hl : (l.category = .singleCond ∨ l.category = .controlCond) ↔ test.isSome = true)
    (hrange : ∀ r, test = some r → l.testsRange = r.isRange) (fits : ∀ r, test = some r → r.Fits y)
    (hw : h.bits.Holds pos (⟨i, y.qubitBits⟩ :: selectorField p :: (testFields y test ++ rest))) :
    h.readSingle y l pos =
      .ok ({ category := l.category, gate := p.name, qubit := i, cond := test.map BitTest.decoded },
        pos - y.qubitBits - Layout.selectorBits - totalWidth (testFields y test)) := by
  have hindex := read_index hi hw
  have hselector := read_eq hw.tail
  have htest := readOptionalTest_eq hl hrange fits hw.tail.tail
  rw [bits_eq (f := selectorField p) p.selector_lt] at hselector
  simp only [selectorField] at hselector htest
  simp [readSingle, hindex, hselector, Primitive.ofSelector?_selector, htest, bind, Except.bind, pure,
    Except.pure]

theorem readControlled_eq {y : Layout} {l : Lane} {i : Nat} {p : Primitive} {test : Option BitTest}
    {f : BitField} {controls : List Int} (hi : i < y.qubits)
    (hl : (l.category = .singleCond ∨ l.category = .controlCond) ↔ test.isSome = true)
    (hrange : ∀ r, test = some r → l.testsRange = r.isRange) (fits : ∀ r, test = some r → r.Fits y)
    (hcontrols : h.readControls y l pos = .ok (controls, pos - f.width))
    (hw : h.bits.Holds pos
      (f :: ⟨i, y.qubitBits⟩ :: selectorField p :: (testFields y test ++ rest))) :
    h.readControlled y l pos =
      .ok ({ category := l.category, gate := "c" ++ p.name, qubit := i, controls := controls,
             cond := test.map BitTest.decoded },
        pos - f.width - y.qubitBits - Layout.selectorBits - totalWidth (testFields y test)) := by
  have hindex := read_index hi hw.tail
  have hselector := read_eq hw.tail.tail
  have htest := readOptionalTest_eq hl hrange fits hw.tail.tail.tail
  rw [bits_eq (f := selectorField p) p.selector_lt] at hselector
  simp only [selectorField] at hselector htest
  simp [readControlled, hcontrols, hindex, hselector, Primitive.ofSelector?_selector, htest, bind,
    Except.bind, pure, Except.pure]

end HeaderWord

-- ---------------------------------------------------------------------------
-- Groups of the encoder
-- ---------------------------------------------------------------------------

section
variable {c : Circuit} {y : Layout} {t : Int} {n : Node} {test : Option BitTest}

theorem Circuit.optionalTest_isSome (h : c.optionalTest y t n = .ok test) :
    test.isSome = n.isConditioned := by
  rw [optionalTest] at h
  split at h
  · rename_i hn
    simp [← Except.ok.inj h, Node.isConditioned, hn]
  · rename_i k hn
    obtain ⟨r, -, rfl⟩ := map_eq_ok.mp h
    simp [Node.isConditioned, hn]

theorem Circuit.WellFormed.optionalTest_fits (wf : c.WellFormed)
    (counted : c.bits.length < Integer.bound) (h : c.optionalTest y t n = .ok test)
    (narrow : ∀ r, test = some r → r.isRange = true → y.qubits < 63) :
    ∀ r, test = some r → r.Fits y := by
  intro r hr
  rw [optionalTest] at h
  split at h
  · rw [hr] at h
    cases h
  · obtain ⟨s, hs, hst⟩ := map_eq_ok.mp h
    obtain rfl : s = r := Option.some.inj (hst.trans hr)
    exact wf.bitTest_fits counted hs (narrow s hr)

end

theorem singleLane_category (test : Option BitTest) :
    (singleLane test).category = if test.isSome then .singleCond else .single := by
  rcases test with _ | ⟨_, _⟩ | ⟨_, _, _⟩ <;> rfl

theorem testsRange_singleLane {test : Option BitTest} {r : BitTest} (h : test = some r) :
    (singleLane test).testsRange = r.isRange := by
  subst h
  cases r <;> rfl

theorem width_singleLane (y : Layout) (test : Option BitTest) :
    y.width (singleLane test) =
      y.qubitBits + (Layout.selectorBits + totalWidth (testFields y test)) := by
  rcases test with _ | ⟨_, _⟩ | ⟨_, _, _⟩ <;>
    simp [singleLane, testFields, BitTest.fields, BitTest.isRange, Layout.width, Layout.bitTest,
      Layout.rangeTest] <;> omega

theorem controlLane_category (mask : Bool) (test : Option BitTest) :
    (controlLane mask test).category = if test.isSome then .controlCond else .control := by
  rcases test with _ | ⟨_, _⟩ | ⟨_, _, _⟩ <;> cases mask <;> rfl

theorem testsRange_controlLane {mask : Bool} {test : Option BitTest} {r : BitTest} (h : test = some r) :
    (controlLane mask test).testsRange = r.isRange := by
  subst h
  cases r <;> cases mask <;> rfl

theorem hasMask_controlLane (mask : Bool) (test : Option BitTest) :
    (controlLane mask test).hasMask = mask := by
  rcases test with _ | ⟨_, _⟩ | ⟨_, _, _⟩ <;> cases mask <;> rfl

theorem width_controlLane (y : Layout) (mask : Bool) (test : Option BitTest) :
    y.width (controlLane mask test) =
      (if mask then y.qubits else y.qubitBits) +
        (y.qubitBits + (Layout.selectorBits + totalWidth (testFields y test))) := by
  rcases test with _ | ⟨_, _⟩ | ⟨_, _, _⟩ <;> cases mask <;>
    simp [controlLane, Lane.controlCond, testFields, BitTest.fields, BitTest.isRange, Layout.width,
      Layout.bitTest, Layout.rangeTest] <;> omega

theorem reset_legible {y : Layout} {i : Nat} {l : Lane} {g : Group} (hi : i < y.qubits)
    (h : Circuit.resetGroup y i = .ok (l, g)) : Legible y l g { category := .reset, qubit := i } := by
  simp only [Circuit.resetGroup, bind_eq_ok, pure_eq_ok, Prod.mk.injEq] at h
  obtain ⟨_, hl, rfl, rfl⟩ := h
  obtain ⟨rfl, hfits⟩ := Layout.checked_ok hl
  refine ⟨rfl, hfits, rfl, ⟨i, hi, rfl, by simp⟩, fun {h pos rest} hw => ?_,
    fun _ => ⟨Gate.encodesAngle_empty, rfl, rfl⟩, by simp⟩
  simp [HeaderWord.readGroup, HeaderWord.read_index hi hw, Operation.bare, Layout.width, bind,
    Except.bind, pure, Except.pure]

theorem decoherence_legible {y : Layout} {i : Nat} {n : Node} {ch : Channel} {l : Lane} {g : Group}
    (hi : i < y.qubits) (hch : Gate.channel? n.gate = some ch)
    (h : Circuit.decoherenceGroup y i ch n = .ok (l, g)) :
    Legible y l g
      { category := .decoherence, gate := n.gate, qubit := i,
        probability := some (Fixed.ofFloat (n.params.headD 0.0)) } := by
  simp only [Circuit.decoherenceGroup, bind_eq_ok, pure_eq_ok, Prod.mk.injEq] at h
  obtain ⟨_, hl, rfl, rfl⟩ := h
  obtain ⟨rfl, hfits⟩ := Layout.checked_ok hl
  have hname := Gate.name_of_channel? hch
  refine ⟨rfl, hfits, rfl, ⟨i, hi, rfl, by simp⟩, fun {h pos rest} hw => ?_,
    fun _ => ⟨hname ▸ ch.encodesAngle_name, rfl, rfl, Fixed.inRange_ofFloat _⟩, by simp⟩
  have hkind := HeaderWord.read_eq hw.tail
  rw [bits_eq (f := ⟨ch.kind, 1⟩) ch.kind_lt] at hkind
  simp [HeaderWord.readGroup, HeaderWord.read_index hi hw, hkind, Channel.ofKind?_kind, hname,
    Operation.bare, Layout.width, bind, Except.bind, pure, Except.pure, Nat.sub_sub]

namespace Circuit.WellFormed
variable {c : Circuit} (wf : c.WellFormed) (counted : c.bits.length < Integer.bound)
variable {y : Layout} {t : Int} {i : Nat} {n : Node} {l : Lane} {g : Group} (hi : i < y.qubits)
include wf counted hi

theorem single_legible (h : c.singleGroup y t i n = .ok (l, g)) :
    Legible y l g
      { category := if n.isConditioned then .singleCond else .single, gate := n.gate, qubit := i,
        cond := (c.optionalTest y t n).toOption.join.map BitTest.decoded, angle := n.angle? } := by
  obtain ⟨p, test, hp, htest, rfl, hfits, rfl⟩ := singleGroup_ok h
  have hcond := optionalTest_isSome htest
  have hwidth := width_singleLane y test
  have htests := wf.optionalTest_fits counted htest fun r hr hrange => by
    subst hr
    have := (singleLane (some r)).room_le
    simp only [singleLane, hrange, if_true, Layout.width, Layout.rangeTest, headerRoom] at hfits this
    omega
  refine
    { width := by simp [Group.width, hwidth, selectorField]
      fits := hfits
      category := by rw [singleLane_category, hcond]
      index := ⟨i, hi, rfl, by simp⟩
      read := fun {h pos rest} hw => ?_
      carries := Node.carries_angleTrail rfl rfl rfl
      probability := ?_ }
  · have hread := HeaderWord.readSingle_eq (l := singleLane test) hi
      (by rw [singleLane_category]; cases test <;> simp) (fun r => testsRange_singleLane) htests hw
    rw [Nat.sub_sub, Nat.sub_sub, ← hwidth, singleLane_category, hcond, Gate.name_of_single? hp] at hread
    have hgroup : h.readGroup y (singleLane test) pos = h.readSingle y (singleLane test) pos := by
      rcases test with _ | ⟨_, _⟩ | ⟨_, _, _⟩ <;> rfl
    rw [hgroup, hread, htest]
    rfl
  · constructor
    · rcases test with _ | ⟨_, _⟩ | ⟨_, _, _⟩ <;> simp [singleLane, BitTest.isRange]
    · rintro ⟨q, hq⟩
      exact absurd hq (n.angleTrail_ne_probability q)

omit counted hi in
theorem readControls_eq {controls : List String} {f : BitField} (hne : controls ≠ [])
    (nodup : controls.Nodup) (hmem : ∀ q ∈ controls, q ∈ c.qubits)
    (hf : c.controlField c.layout controls = .ok f) (hmask : l.hasMask = decide (1 < controls.length))
    (narrow : l.hasMask = true → c.layout.qubits ≤ 64) :
    f.width = (if l.hasMask then c.layout.qubits else c.layout.qubitBits) ∧
      ∀ {h : HeaderWord} {pos : Nat} {rest : List BitField}, h.bits.Holds pos (f :: rest) →
        h.readControls c.layout l pos =
          .ok (((controls.map c.position).mergeSort (· ≤ ·)).map fun (i : Nat) => (i : Int),
            pos - f.width) := by
  rw [controlField.eq_def] at hf
  split at hf
  · rename_i q
    have hq := hmem q List.mem_cons_self
    simp only [wf.qubitIndex_eq hq, bind, Except.bind, pure, Except.pure, Except.ok.injEq] at hf
    subst hf
    have hl : l.hasMask = false := by simpa using hmask
    refine ⟨by simp [hl], fun {h pos rest} hw => ?_⟩
    simp [HeaderWord.readControls, hl, HeaderWord.read_index (position_lt hq) hw, bind, Except.bind,
      pure, Except.pure]
  · rename_i hsingle
    have hindices := mapM_eq_map fun q hq => wf.qubitIndex_eq (hmem q hq)
    simp only [hindices, bind, Except.bind, pure, Except.pure, Except.ok.injEq] at hf
    subst hf
    have hl : l.hasMask = true := by
      rcases controls with _ | ⟨q, _ | ⟨q', rest⟩⟩
      · exact absurd rfl hne
      · exact absurd rfl (hsingle q)
      · simpa using hmask
    refine ⟨by simp [hl], fun {h pos rest} hw => ?_⟩
    have hread := HeaderWord.read_eq hw
    have hnodup : (controls.map c.position).Nodup :=
      nodup.map_on fun a ha b hb hab => (List.idxOf_inj (hmem a ha)).mp hab
    have hbits := maskBits_controlMask (narrow hl) hnodup
      (List.forall_mem_map.mpr fun q hq => position_lt (hmem q hq))
    simp only [BitField.bits] at hread
    simp [HeaderWord.readControls, hl, hread, hbits, bind, Except.bind, pure, Except.pure]

omit hi in
theorem controlled_legible {q : String} (hn : c.at? q t = some n) (hcontrolled : n.controlled = true)
    (h : c.controlledGroup c.layout t (c.position q) n = .ok (l, g)) :
    Legible c.layout l g
      { category := if n.isConditioned then .controlCond else .control, gate := n.gate,
        qubit := c.position q, controls := c.controls n,
        cond := (c.optionalTest c.layout t n).toOption.join.map BitTest.decoded,
        angle := n.angle? } := by
  obtain ⟨p, test, f, hp, htest, hf, rfl, hfits, rfl⟩ := controlledGroup_ok h
  generalize hmask : decide (1 < n.partners.length) = mask at hfits ⊢
  have hroom := (controlLane mask test).room_le
  have hi : c.position q < c.layout.qubits := position_lt (wf.mem_qubits hn)
  have hcond := optionalTest_isSome htest
  have hwidth := width_controlLane c.layout mask test
  obtain ⟨nodup, hpartners⟩ := wf.participants hn
  have htests := wf.optionalTest_fits counted htest fun r hr hrange => by
    subst hr
    have : totalWidth (testFields c.layout (some r)) = c.layout.rangeTest := by
      cases r <;> simp_all [BitTest.isRange, testFields, BitTest.fields, Layout.rangeTest, Nat.add_assoc]
    simp only [Layout.rangeTest, headerRoom] at this hroom
    omega
  obtain ⟨hfwidth, hcontrols⟩ := wf.readControls_eq (l := controlLane mask test) (wf.controlled hn hcontrolled)
    (List.nodup_cons.mp nodup).2
    (fun p hp => (hpartners p hp).elim fun m hm => wf.mem_qubits hm.1) hf
    (by rw [hasMask_controlLane, hmask])
    (fun hm => by
      rw [hasMask_controlLane] at hm
      simp only [hm, if_true, headerRoom] at hwidth hroom hfits
      omega)
  rw [hasMask_controlLane] at hfwidth
  refine
    { width := by simp [Group.width, hwidth, selectorField, hfwidth]
      fits := hfits
      category := by rw [controlLane_category, hcond]
      index := ⟨c.position q, hi, rfl, by simp⟩
      read := fun {h pos rest} hw => ?_
      carries := Node.carries_angleTrail rfl rfl rfl
      probability := ?_ }
  · have hread := HeaderWord.readControlled_eq (l := controlLane mask test) hi
      (by rw [controlLane_category]; cases test <;> simp) (fun r => testsRange_controlLane) htests
      (hcontrols hw) hw
    rw [Nat.sub_sub, Nat.sub_sub, Nat.sub_sub, hfwidth, ← hwidth, controlLane_category, hcond,
      Gate.name_of_controlled? hp] at hread
    have hgroup : h.readGroup c.layout (controlLane mask test) pos =
        h.readControlled c.layout (controlLane mask test) pos := by
      rcases test with _ | ⟨_, _⟩ | ⟨_, _, _⟩ <;> cases mask <;> rfl
    rw [hgroup, hread, htest]
    rfl
  · constructor
    · rcases test with _ | ⟨_, _⟩ | ⟨_, _, _⟩ <;> cases mask <;>
        simp [controlLane, Lane.controlCond, BitTest.isRange]
    · rintro ⟨q, hq⟩
      exact absurd hq (n.angleTrail_ne_probability q)

end Circuit.WellFormed

/-- The group of an accepted visit is read back as its operation, and a visit
without an operation has no group. -/
theorem Circuit.WellFormed.legible {c : Circuit} (wf : c.WellFormed)
    (counted : c.bits.length < Integer.bound) {v : Visit} (hv : v ∈ c.visits) (ha : c.Accepts v) :
    c.written? v = none ∧ c.operation? v = none ∨
      ∃ l g o, c.written? v = some (l, g) ∧ c.operation? v = some o ∧ Legible c.layout l g o := by
  obtain ⟨t, q, n⟩ := v
  have hn : c.at? q t = some n := wf.mem_visits.mp hv
  have hi : c.position q < c.layout.qubits := position_lt (wf.mem_qubits hn)
  have hgroup := ha.group
  simp only at hgroup
  rw [operation?]
  by_cases hskip : (n.barrier || n.measurement) = true
  · exact .inl ⟨by simp [written?, hskip], by simp [hskip]⟩
  rw [if_neg hskip]
  simp only [Bool.or_eq_true, not_or, Bool.not_eq_true] at hskip
  have hgroup := hgroup hskip.1 hskip.2
  rw [groupOf] at hgroup
  by_cases hreset : n.reset = true
  · rw [if_pos hreset] at hgroup ⊢
    obtain ⟨⟨l, g⟩, hlg, he⟩ := map_eq_ok.mp hgroup
    exact .inr ⟨l, g, _, he.symm, rfl, reset_legible hi hlg⟩
  rw [if_neg hreset] at hgroup ⊢
  cases hch : Gate.channel? n.gate with
  | some ch =>
    simp only [hch] at hgroup
    obtain ⟨⟨l, g⟩, hlg, he⟩ := map_eq_ok.mp hgroup
    rw [if_pos (by simp [Gate.isChannel, hch])]
    exact .inr ⟨l, g, _, he.symm, rfl, decoherence_legible hi hch hlg⟩
  | none =>
    simp only [hch] at hgroup
    rw [if_neg (by simp [Gate.isChannel, hch])]
    by_cases hcontrolled : n.controlled = true
    · rw [if_pos hcontrolled] at hgroup ⊢
      by_cases htarget : n.target = true
      · rw [if_pos htarget] at hgroup ⊢
        obtain ⟨⟨l, g⟩, hlg, he⟩ := map_eq_ok.mp hgroup
        exact .inr ⟨l, g, _, he.symm, rfl, wf.controlled_legible counted hn hcontrolled hlg⟩
      · rw [if_neg htarget] at hgroup ⊢
        exact .inl ⟨(Except.ok.inj hgroup).symm, rfl⟩
    · rw [if_neg hcontrolled] at hgroup ⊢
      obtain ⟨⟨l, g⟩, hlg, he⟩ := map_eq_ok.mp hgroup
      exact .inr ⟨l, g, _, he.symm, rfl, wf.single_legible counted hi hlg⟩

theorem Circuit.angle_ne_none {c : Circuit} {v : Visit} {o : StreamOperation}
    (ho : c.operation? v = some o) (hparams : Gate.encodesAngle v.2.2.gate = true → v.2.2.params ≠ [])
    (he : Gate.encodesAngle o.gate = true) : o.angle ≠ none := by
  have hangle (he : Gate.encodesAngle v.2.2.gate = true) : v.2.2.angle? ≠ none := by
    cases hp : v.2.2.params with
    | nil => exact absurd hp (hparams he)
    | cons theta rest => simp [Node.angle?, he, hp]
  simp only [operation?] at ho
  split at ho
  · cases ho
  split at ho
  · obtain rfl := Option.some.inj ho
    simp [Gate.encodesAngle_empty] at he
  split at ho
  · rename_i hch
    obtain rfl := Option.some.inj ho
    obtain ⟨ch, hch⟩ := Option.isSome_iff_exists.mp hch
    rw [← Gate.name_of_channel? hch] at he
    simp [ch.encodesAngle_name] at he
  split at ho
  · split at ho
    · obtain rfl := Option.some.inj ho
      exact hangle he
    · cases ho
  · obtain rfl := Option.some.inj ho
    exact hangle he

end Sequencer
