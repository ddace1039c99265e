import Sequencer.Proofs.Instruction.Concatenation

/-!
# Streams of any words

No stream leads the decoder out of a word or past its last word, whatever the
number of qubits it is read for. A group is read only where a whole one is
left, and takes just its width, so the groups of a word come to an end.

A stream that is accepted is cut into packets, a header word with the trailing
words its operations ask for. Every operand lies in the range of its field. A
single control is an index like a qubit and may lie beyond the number of
qubits; the controls of a mask do not.
-/

namespace Sequencer

-- ---------------------------------------------------------------------------
-- Operations of a header word
-- ---------------------------------------------------------------------------

/-- The gate names of a category; measurements and resets have none. -/
def gateNames : Category → List String
  | .single | .singleCond => Primitive.all.map Primitive.name
  | .control | .controlCond => Primitive.all.map fun p => "c" ++ p.name
  | .decoherence => Channel.all.map Channel.name
  | _ => [""]

def ControlsFit (y : Layout) (l : Lane) (controls : List Int) : Prop :=
  if l.category = .control ∨ l.category = .controlCond then
    controls.Pairwise (· < ·) ∧
      if l.hasMask then ∀ q ∈ controls, 0 ≤ q ∧ q < y.qubits
      else ∃ q, controls = [q] ∧ 0 ≤ q ∧ q < 2 ^ y.qubitBits
  else controls = []

/-- A test of a lane: of bits with an index in their field, against a number
of as many bits as there are qubits, or of one bit. -/
structure TestFits (y : Layout) (l : Lane) (test : DecodedTest) : Prop where
  isRange : test.isRange = l.testsRange
  bit : 0 ≤ test.bit ∧ test.bit < 2 ^ y.qubitBits
  high : 0 ≤ test.high ∧ test.high < 2 ^ y.qubitBits
  value : 0 ≤ test.value ∧ test.value < 2 ^ (if l.testsRange then y.qubits else 1)

structure LaneOperation (y : Layout) (l : Lane) (o : StreamOperation) : Prop where
  category : o.category = l.category
  gate : o.gate ∈ gateNames l.category
  qubit : 0 ≤ o.qubit ∧ o.qubit < 2 ^ y.qubitBits
  controls : ControlsFit y l o.controls
  cond : ∀ test, o.cond = some test → TestFits y l test
  conditioned : o.cond.isSome = true ↔ l.category = .singleCond ∨ l.category = .controlCond

structure MeasuredOperation (y : Layout) (o : StreamOperation) : Prop where
  category : o.category = .measurement
  gate : o.gate = ""
  qubit : 0 ≤ o.qubit ∧ o.qubit < 2 ^ y.qubitBits
  controls : o.controls = []
  cond : o.cond = none

def OperationOf (y : Layout) (header : Word) (o : StreamOperation) : Prop :=
  (header.category = .measurement ∧ MeasuredOperation y o) ∨
    ∃ l, Lane.ofWord? header = some l ∧ LaneOperation y l o

-- ---------------------------------------------------------------------------
-- Reading a group
-- ---------------------------------------------------------------------------

/-- A read ends at a position with a value of some kind, or with an error of
some kind. -/
inductive EndsAt (E : DecodeError → Prop) (P : α → Prop) (rest : Nat) : Except DecodeError (α × Nat) → Prop
  | ok {a : α} (h : P a) : EndsAt E P rest (.ok (a, rest))
  | error {e : DecodeError} (h : E e) : EndsAt E P rest (.error e)

namespace EndsAt
variable {E : DecodeError → Prop} {P : α → Prop} {Q : β → Prop} {mid rest : Nat}

theorem bind {x : Except DecodeError (α × Nat)} {f : α × Nat → Except DecodeError (β × Nat)}
    (h : EndsAt E P mid x) (next : ∀ a, P a → EndsAt E Q rest (f (a, mid))) : EndsAt E Q rest (x >>= f) := by
  cases h with
  | ok h => exact next _ h
  | error h => exact .error h

end EndsAt

theorem mem_maskBits {n mask : Nat} {q : Int} (h : q ∈ HeaderWord.maskBits n mask) : 0 ≤ q ∧ q < n := by
  obtain ⟨i, hi, hq⟩ := List.mem_filterMap.mp h
  have hlt := List.mem_range.mp hi
  split at hq
  · cases hq
    omega
  · cases hq

theorem pairwise_maskBits (n mask : Nat) : (HeaderWord.maskBits n mask).Pairwise (· < ·) := by
  refine List.Pairwise.filterMap _ ?_ List.pairwise_lt_range
  intro i j hij q hq r hr
  split at hq
  · split at hr
    · cases hq
      cases hr
      exact Int.ofNat_lt.mpr hij
    · cases hr
  · cases hq

theorem natCast_in {v width : Nat} (h : v < 2 ^ width) : (0 : Int) ≤ v ∧ (v : Int) < 2 ^ width :=
  ⟨Int.natCast_nonneg v, by exact_mod_cast h⟩

namespace HeaderWord
variable {E : DecodeError → Prop} {h : HeaderWord} {y : Layout} {l : Lane} {pos : Nat}

theorem read_endsAt {width : Nat} (hw : width ≤ pos) :
    EndsAt E (fun v => v < 2 ^ width) (pos - width) (h.read pos width) := by
  have hnext : h.bits.next pos width = .ok (h.bits.toNat / 2 ^ (pos - width) % 2 ^ width, pos - width) :=
    if_neg (Nat.not_lt.mpr hw)
  rw [read, hnext]
  exact .ok (Nat.mod_lt _ (Nat.two_pow_pos _))

def controlWidth (y : Layout) (l : Lane) : Nat := if l.hasMask then y.qubits else y.qubitBits

def testWidth (y : Layout) (l : Lane) : Nat :=
  if l.category = .singleCond ∨ l.category = .controlCond then
    if l.testsRange then y.rangeTest else y.bitTest
  else 0

theorem readControls_endsAt (hl : l.category = .control ∨ l.category = .controlCond)
    (hw : controlWidth y l ≤ pos) :
    EndsAt E (ControlsFit y l) (pos - controlWidth y l) (h.readControls y l pos) := by
  unfold readControls controlWidth at *
  by_cases hmask : l.hasMask = true
  · simp only [hmask, if_true] at hw ⊢
    refine (read_endsAt hw).bind fun mask _ => .ok ?_
    rw [ControlsFit, if_pos hl, if_pos hmask]
    exact ⟨pairwise_maskBits _ _, fun q hq => mem_maskBits hq⟩
  · simp only [hmask] at hw ⊢
    refine (read_endsAt hw).bind fun q hq => .ok ?_
    rw [ControlsFit, if_pos hl, if_neg hmask]
    exact ⟨List.pairwise_singleton _ _, q, rfl, natCast_in hq⟩

theorem readTest_endsAt (hl : l.category = .singleCond ∨ l.category = .controlCond)
    (hw : testWidth y l ≤ pos) : EndsAt E (TestFits y l) (pos - testWidth y l) (h.readTest y l pos) := by
  rw [testWidth, if_pos hl] at hw ⊢
  by_cases hrange : l.testsRange = true
  · rw [if_pos hrange, Layout.rangeTest] at hw ⊢
    rw [← Nat.sub_sub, ← Nat.sub_sub]
    refine (read_endsAt (by omega)).bind fun bit hbit => ?_
    dsimp only
    rw [if_pos hrange]
    refine (read_endsAt (by omega)).bind fun high hhigh => ?_
    refine (read_endsAt (by omega)).bind fun value hvalue => .ok ⟨hrange.symm, natCast_in hbit, natCast_in hhigh, ?_⟩
    rw [if_pos hrange]
    exact natCast_in hvalue
  · rw [if_neg hrange, Layout.bitTest] at hw ⊢
    rw [← Nat.sub_sub]
    refine (read_endsAt (by omega)).bind fun bit hbit => ?_
    dsimp only
    rw [if_neg hrange]
    refine (read_endsAt (by omega)).bind fun value hvalue =>
      .ok ⟨(Bool.eq_false_iff.mpr hrange).symm, natCast_in hbit, natCast_in hbit, ?_⟩
    rw [if_neg hrange]
    exact natCast_in hvalue

def OptionalTestFits (y : Layout) (l : Lane) (cond : Option DecodedTest) : Prop :=
  (∀ test, cond = some test → TestFits y l test) ∧
    (cond.isSome = true ↔ l.category = .singleCond ∨ l.category = .controlCond)

theorem readOptionalTest_endsAt (hw : testWidth y l ≤ pos) :
    EndsAt E (OptionalTestFits y l) (pos - testWidth y l) (h.readOptionalTest y l pos) := by
  unfold readOptionalTest
  by_cases hl : l.category = .singleCond ∨ l.category = .controlCond
  · rw [if_pos hl]
    refine (readTest_endsAt hl hw).bind fun test htest => .ok ⟨?_, by simp [hl]⟩
    rintro _ ⟨⟩
    exact htest
  · rw [if_neg hl, testWidth, if_neg hl]
    refine .ok ⟨?_, by simp [hl]⟩
    rintro _ ⟨⟩

def UnknownSelector (number : Nat) (e : DecodeError) : Prop :=
  ∃ s, 10 < s ∧ s < 16 ∧ (e = .unknownSelector number s ∨ e = .unknownControlledSelector number s)

theorem lt_of_ofSelector?_eq_none {s : Nat} (h : Primitive.ofSelector? s = none) : 10 < s := by
  refine Nat.lt_of_not_le fun hle => ?_
  have hknown : ∀ s ≤ 10, (Primitive.ofSelector? s).isSome = true := by decide
  have := hknown s hle
  rw [h] at this
  cases this

theorem mem_of_ofSelector? {s : Nat} {p : Primitive} (h : Primitive.ofSelector? s = some p) :
    p ∈ Primitive.all := List.mem_of_find?_eq_some h

theorem readSingle_endsAt (hl : l.category = .single ∨ l.category = .singleCond)
    (hw : y.qubitBits + Layout.selectorBits + testWidth y l ≤ pos) :
    EndsAt (UnknownSelector h.number) (LaneOperation y l)
      (pos - (y.qubitBits + Layout.selectorBits + testWidth y l)) (h.readSingle y l pos) := by
  rw [← Nat.sub_sub, ← Nat.sub_sub]
  refine (read_endsAt (by omega)).bind fun q hq => ?_
  refine (read_endsAt (by omega)).bind fun selector hselector => ?_
  dsimp only
  cases hp : Primitive.ofSelector? selector with
  | none => exact .error ⟨selector, lt_of_ofSelector?_eq_none hp, hselector, .inl rfl⟩
  | some p =>
    refine (readOptionalTest_endsAt (by omega)).bind fun cond hcond => .ok ?_
    refine ⟨rfl, ?_, natCast_in hq, ?_, hcond.1, hcond.2⟩
    · have hmem : p.name ∈ Primitive.all.map Primitive.name := List.mem_map_of_mem (mem_of_ofSelector? hp)
      rcases hl with hl | hl <;> rw [hl] <;> exact hmem
    · rcases hl with hl | hl <;> simp [ControlsFit, hl]

theorem readControlled_endsAt (hl : l.category = .control ∨ l.category = .controlCond)
    (hw : controlWidth y l + y.qubitBits + Layout.selectorBits + testWidth y l ≤ pos) :
    EndsAt (UnknownSelector h.number) (LaneOperation y l)
      (pos - (controlWidth y l + y.qubitBits + Layout.selectorBits + testWidth y l)) (h.readControlled y l pos) := by
  rw [← Nat.sub_sub, ← Nat.sub_sub, ← Nat.sub_sub]
  refine (readControls_endsAt hl (by omega)).bind fun controls hcontrols => ?_
  refine (read_endsAt (by omega)).bind fun q hq => ?_
  refine (read_endsAt (by omega)).bind fun selector hselector => ?_
  dsimp only
  cases hp : Primitive.ofSelector? selector with
  | none => exact .error ⟨selector, lt_of_ofSelector?_eq_none hp, hselector, .inr rfl⟩
  | some p =>
    refine (readOptionalTest_endsAt (by omega)).bind fun cond hcond => .ok ?_
    refine ⟨rfl, ?_, natCast_in hq, hcontrols, hcond.1, hcond.2⟩
    have hmem : "c" ++ p.name ∈ Primitive.all.map fun p => "c" ++ p.name :=
      List.mem_map_of_mem (f := fun p => "c" ++ p.name) (mem_of_ofSelector? hp)
    rcases hl with hl | hl <;> rw [hl] <;> exact hmem

theorem readGroup_endsAt (hw : y.width l ≤ pos) :
    EndsAt (UnknownSelector h.number) (LaneOperation y l) (pos - y.width l) (h.readGroup y l pos) := by
  cases l with
  | reset =>
    refine (read_endsAt hw).bind fun q hq =>
      .ok ⟨rfl, List.mem_singleton.mpr rfl, natCast_in hq, rfl, ?_, by simp [Lane.category]⟩
    rintro _ ⟨⟩
  | decoherence =>
    have hw : y.qubitBits + 1 ≤ pos := hw
    change EndsAt _ _ (pos - (y.qubitBits + 1)) _
    rw [← Nat.sub_sub]
    refine (read_endsAt (by omega)).bind fun q hq => ?_
    refine (read_endsAt (by omega)).bind fun kind hkind =>
      .ok ⟨rfl, ?_, natCast_in hq, rfl, ?_, by simp [Lane.category]⟩
    · have hnames : ∀ k < 2, ((Channel.ofKind? k).map Channel.name).getD "" ∈ gateNames .decoherence := by decide
      exact hnames kind hkind
    · rintro _ ⟨⟩
  | single => exact readSingle_endsAt (.inl rfl) hw
  | singleBit => exact readSingle_endsAt (.inr rfl) hw
  | singleRange => exact readSingle_endsAt (.inr rfl) hw
  | controlOne => exact readControlled_endsAt (.inl rfl) hw
  | controlMany => exact readControlled_endsAt (.inl rfl) hw
  | controlOneBit => exact readControlled_endsAt (.inr rfl) hw
  | controlOneRange => exact readControlled_endsAt (.inr rfl) hw
  | controlManyBit => exact readControlled_endsAt (.inr rfl) hw
  | controlManyRange => exact readControlled_endsAt (.inr rfl) hw

theorem readMeasured_endsAt (hw : y.qubitBits ≤ pos) :
    EndsAt (UnknownSelector h.number) (MeasuredOperation y) (pos - y.qubitBits) (h.readMeasured y pos) :=
  (read_endsAt hw).bind fun _ hq => .ok ⟨rfl, rfl, natCast_in hq, rfl, rfl⟩

/-- The groups of a word from a position on, each of the given width, up to
where no further group is due. -/
inductive Groups (read : Nat → Except DecodeError (StreamOperation × Nat)) (h : HeaderWord) (start width : Nat) :
    Nat → List StreamOperation → Prop
  | none {pos : Nat} (hmore : h.hasMore start width pos = false) : Groups read h start width pos []
  | group {pos : Nat} {o : StreamOperation} {ops : List StreamOperation} (hmore : h.hasMore start width pos = true)
      (hread : read pos = .ok (o, pos - width)) (rest : Groups read h start width (pos - width) ops) :
      Groups read h start width pos (o :: ops)

theorem le_of_hasMore {start width : Nat} (h : h.hasMore start width pos = true) : width ≤ pos := by
  have hle := (Bool.and_eq_true_iff.mp h).1
  simpa using hle

/-- The bound on the number of groups is never reached. -/
theorem readGroups_groups {read : Nat → Except DecodeError (StreamOperation × Nat)} {P : StreamOperation → Prop}
    {start width : Nat} (hwidth : 0 < width)
    (hread : ∀ pos, width ≤ pos → EndsAt E P (pos - width) (read pos)) {fuel : Nat} (hfuel : pos < fuel) :
    (∃ ops, readGroups read h start width fuel pos = .ok ops ∧ Groups read h start width pos ops ∧ ∀ o ∈ ops, P o) ∨
      ∃ e, readGroups read h start width fuel pos = .error e ∧ E e := by
  induction fuel generalizing pos with
  | zero => exact absurd hfuel (Nat.not_lt_zero _)
  | succ fuel ih =>
    rw [readGroups]
    cases hmore : h.hasMore start width pos with
    | false => exact .inl ⟨[], rfl, .none hmore, List.forall_mem_nil _⟩
    | true =>
      have hle := le_of_hasMore hmore
      have hends := hread pos hle
      cases hgroup : read pos with
      | error e =>
        rw [hgroup] at hends
        cases hends with
        | error he => exact .inr ⟨e, rfl, he⟩
      | ok group =>
        rw [hgroup] at hends
        cases hends with
        | @ok o ho =>
          rcases ih (show pos - width < fuel by omega) with ⟨ops, hops, hgroups, hall⟩ | ⟨e, he, hE⟩
          · refine .inl ⟨o :: ops, ?_, .group hmore hgroup hgroups, List.forall_mem_cons.mpr ⟨ho, hall⟩⟩
            simp [bind, Except.bind, hops, pure, Except.pure]
          · refine .inr ⟨e, ?_, hE⟩
            simp [bind, Except.bind, he]

def GroupsOf (y : Layout) (h : HeaderWord) (ops : List StreamOperation) : Prop :=
  (h.bits.category = .measurement ∧ Groups (h.readMeasured y) h headerRoom y.qubitBits headerRoom ops) ∨
    ∃ l, Lane.ofWord? h.bits = some l ∧ Groups (h.readGroup y l) h l.room (y.width l) l.room ops

def UnknownHeader (h : HeaderWord) (e : DecodeError) : Prop :=
  (h.bits.opcode = 7 ∧ e = .unknownOpcode h.number 7) ∨ UnknownSelector h.number e

theorem opcode_of_ofWord?_eq_none {w : Word} (h : Lane.ofWord? w = none) (hm : w.category ≠ .measurement) :
    w.opcode = 7 := by
  have hlt : w.opcode < 8 := Nat.mod_lt _ (by decide)
  by_contra hne
  have hcodes : w.opcode = 0 ∨ w.opcode = 1 ∨ w.opcode = 2 ∨ w.opcode = 3 ∨ w.opcode = 4 ∨ w.opcode = 5 ∨
      w.opcode = 6 := by omega
  rcases hcodes with hc | hc | hc | hc | hc | hc | hc <;>
    simp [Lane.ofWord?, Word.category, hc, Category.ofCode] at h hm

theorem wrap_width {y : Layout} (hy : y.qubits ≤ 2 ^ 61) (l : Lane) : Integer.wrap (y.width l) = y.width l := by
  have hbits : y.qubitBits ≤ 61 := Layout.qubitBits_le_of_le (by decide) hy
  refine Integer.wrap_of_lt (by unfold Integer.bound; omega) ?_
  unfold Integer.bound
  cases l <;> simp only [Layout.width, Layout.selectorBits, Layout.bitTest, Layout.rangeTest] <;> omega

theorem operations_groups (hy : y.qubits ≤ 2 ^ 61) (h : HeaderWord) :
    (∃ ops, h.operations y = .ok ops ∧ GroupsOf y h ops ∧ ∀ o ∈ ops, OperationOf y h.bits o) ∨
      ∃ e, h.operations y = .error e ∧ UnknownHeader h e := by
  unfold operations
  by_cases hm : h.bits.category = .measurement
  · rw [if_pos hm]
    rcases readGroups_groups y.qubitBits_pos (fun pos hw => readMeasured_endsAt (h := h) hw)
      (show headerRoom < 64 by decide) with ⟨ops, hops, hgroups, hall⟩ | ⟨e, he, hE⟩
    · exact .inl ⟨ops, hops, .inl ⟨hm, hgroups⟩, fun o ho => .inl ⟨hm, hall o ho⟩⟩
    · exact .inr ⟨e, he, .inr hE⟩
  · rw [if_neg hm]
    cases hl : Lane.ofWord? h.bits with
    | none =>
      have hcode := opcode_of_ofWord?_eq_none hl hm
      exact .inr ⟨_, rfl, .inl ⟨hcode, by rw [hcode]⟩⟩
    | some l =>
      dsimp only
      rw [wrap_width hy]
      rcases readGroups_groups (y.width_pos l) (fun pos hw => readGroup_endsAt (h := h) hw)
        (show l.room < 64 from Nat.lt_of_le_of_lt l.room_le (by decide)) with ⟨ops, hops, hgroups, hall⟩ | ⟨e, he, hE⟩
      · exact .inl ⟨ops, hops, .inr ⟨l, hl, hgroups⟩, fun o ho => .inr ⟨l, hl, hall o ho⟩⟩
      · exact .inr ⟨e, he, .inr hE⟩

end HeaderWord

-- ---------------------------------------------------------------------------
-- Packets
-- ---------------------------------------------------------------------------

structure ReadPacket where
  header : Word
  trailing : List Word
  ops : List StreamOperation

namespace ReadPacket

def words (p : ReadPacket) : List Word := p.header :: p.trailing

/-- The packet is read at a place in the stream: its groups, as many trailing
words as they ask for, and operations of its header word in a timeslice. -/
structure ReadAt (y : Layout) (number slice : Nat) (p : ReadPacket) : Prop where
  groups : ∃ ops, HeaderWord.GroupsOf y ⟨number, p.header⟩ ops ∧ p.trailing.length = trailingCount ops ∧
    p.ops = attach (ops.map (Operation.placed slice p.header.isLast)) p.trailing
  ops : ∀ o ∈ p.ops, OperationOf y p.header o ∧ o.slice = slice ∧ o.last = p.header.isLast

end ReadPacket

section
variable {y : Layout} {packets : List ReadPacket}

def streamOf (packets : List ReadPacket) : List Word := packets.flatMap ReadPacket.words

def endedIn (packets : List ReadPacket) : Nat := packets.countP fun p => p.header.isLast

def ReadInOrder (y : Layout) (packets : List ReadPacket) : Prop :=
  ∀ before p after, packets = before ++ p :: after →
    p.ReadAt y (streamOf before).length (endedIn before)

theorem readInOrder_nil (y : Layout) : ReadInOrder y [] := by
  intro before p after hsplit
  exact absurd hsplit (by simp)

theorem ReadInOrder.concat (h : ReadInOrder y packets) {p : ReadPacket}
    (hp : p.ReadAt y (streamOf packets).length (endedIn packets)) : ReadInOrder y (packets ++ [p]) := by
  intro before q after hsplit
  rcases List.eq_nil_or_concat after with rfl | ⟨after, r, rfl⟩
  · obtain ⟨rfl, rfl⟩ := List.append_singleton_inj.mp hsplit
    exact hp
  · rw [List.concat_eq_append, ← List.cons_append, ← List.append_assoc] at hsplit
    exact h before q after (List.append_singleton_inj.mp hsplit).1

theorem streamOf_concat (p : ReadPacket) : streamOf (packets ++ [p]) = streamOf packets ++ p.words := by
  simp [streamOf]

theorem endedIn_concat (p : ReadPacket) :
    endedIn (packets ++ [p]) = endedIn packets + p.header.isLast.toNat := by
  rw [endedIn, List.countP_append, List.countP_singleton]
  cases p.header.isLast <;> rfl

end

section
variable {y : Layout} {header : Word}

theorem OperationOf.congr {o o' : StreamOperation} (h : OperationOf y header o)
    (category : o.category = o'.category) (gate : o.gate = o'.gate) (qubit : o.qubit = o'.qubit)
    (controls : o.controls = o'.controls) (cond : o.cond = o'.cond) : OperationOf y header o' := by
  rcases h with ⟨hheader, hm⟩ | ⟨l, hl, ho⟩
  · exact .inl ⟨hheader, category ▸ hm.category, gate ▸ hm.gate, qubit ▸ hm.qubit, controls ▸ hm.controls,
      cond ▸ hm.cond⟩
  · exact .inr ⟨l, hl, category ▸ ho.category, gate ▸ ho.gate, qubit ▸ ho.qubit, controls ▸ ho.controls,
      cond ▸ ho.cond, cond ▸ ho.conditioned⟩

theorem OperationOf.of_attach {ops : List StreamOperation} (h : ∀ o ∈ ops, OperationOf y header o) {slice : Nat}
    {last : Bool} (ws : List Word) :
    ∀ o ∈ attach (ops.map (Operation.placed slice last)) ws,
      OperationOf y header o ∧ o.slice = slice ∧ o.last = last := by
  intro o ho
  have hbare := List.mem_map_of_mem (f := Operation.bare) ho
  rw [map_attach Operation.bare (fun _ _ => rfl) (fun _ _ => rfl), List.map_map] at hbare
  obtain ⟨o', ho', heq⟩ := List.mem_map.mp hbare
  have category := congrArg Operation.category heq
  have gate := congrArg Operation.gate heq
  have qubit := congrArg Operation.qubit heq
  have controls := congrArg Operation.controls heq
  have cond := congrArg Operation.cond heq
  have slice := congrArg Operation.slice heq
  have last := congrArg Operation.last heq
  exact ⟨(h o' ho').congr category gate qubit controls cond, slice.symm, last.symm⟩

theorem ReadPacket.readAt_attach {number slice : Nat} {trailing : List Word} {ops : List StreamOperation}
    (hgroups : HeaderWord.GroupsOf y ⟨number, header⟩ ops) (hops : ∀ o ∈ ops, OperationOf y header o)
    (hcount : trailing.length = trailingCount ops) :
    ReadAt y number slice ⟨header, trailing, attach (ops.map (Operation.placed slice header.isLast)) trailing⟩ :=
  ⟨⟨ops, hgroups, hcount, rfl⟩, OperationOf.of_attach hops trailing⟩

end

-- ---------------------------------------------------------------------------
-- Streams
-- ---------------------------------------------------------------------------

namespace DecodeState
variable {y : Layout} {ws : List Word} {s : DecodeState}

/-- What has been read of a stream: whole packets, and possibly a header word
with some of the trailing words it asks for. -/
inductive ReadPackets (y : Layout) : List Word → DecodeState → Prop
  | between {packets : List ReadPacket} (order : ReadInOrder y packets) :
      ReadPackets y (streamOf packets)
        ⟨(streamOf packets).length, endedIn packets, packets.flatMap ReadPacket.ops, none⟩
  | within {packets : List ReadPacket} (order : ReadInOrder y packets) {header : Word} {newest : List Word}
      {missing : Nat} {ops : List StreamOperation}
      (groups : HeaderWord.GroupsOf y ⟨(streamOf packets).length, header⟩ ops)
      (operations : ∀ o ∈ ops, OperationOf y header o)
      (count : missing + newest.length = trailingCount ops) (missing_pos : 0 < missing) :
      ReadPackets y (streamOf packets ++ header :: newest.reverse)
        ⟨(streamOf packets ++ header :: newest.reverse).length, endedIn packets + header.isLast.toNat,
          packets.flatMap ReadPacket.ops,
          some ⟨ops.map (Operation.placed (endedIn packets) header.isLast), missing, newest⟩⟩

namespace ReadPackets

theorem read_eq (h : ReadPackets y ws s) : s.read = ws.length := by
  cases h with
  | between => rfl
  | within => rfl

theorem concat {packets : List ReadPacket} (order : ReadInOrder y packets) {p : ReadPacket}
    (hp : p.ReadAt y (streamOf packets).length (endedIn packets)) :
    ReadPackets y (streamOf packets ++ p.words)
      ⟨(streamOf packets ++ p.words).length, endedIn packets + p.header.isLast.toNat,
        packets.flatMap ReadPacket.ops ++ p.ops, none⟩ := by
  have h := between (order.concat hp)
  rwa [streamOf_concat, endedIn_concat, List.flatMap_append, List.flatMap_singleton] at h

theorem takeHeader {packets : List ReadPacket} (order : ReadInOrder y packets) (hy : y.qubits ≤ 2 ^ 61) (w : Word) :
    let s : DecodeState :=
      ⟨(streamOf packets).length, endedIn packets, packets.flatMap ReadPacket.ops, none⟩
    (∃ s', s.takeHeader y w = .ok s' ∧ ReadPackets y (streamOf packets ++ [w]) s') ∨
      ∃ e, s.takeHeader y w = .error e ∧ HeaderWord.UnknownHeader ⟨(streamOf packets).length, w⟩ e := by
  intro s
  rcases HeaderWord.operations_groups hy ⟨(streamOf packets).length, w⟩ with ⟨ops, hops, hgroups, hall⟩ | ⟨e, he, hE⟩
  · refine .inl ?_
    have hcount : trailingCount (ops.map (Operation.placed (endedIn packets) w.isLast)) = trailingCount ops :=
      trailingCount_map (Operation.placed (endedIn packets) w.isLast) (fun _ => rfl) (fun _ => rfl) ops
    have htake : s.takeHeader y w =
        if trailingCount ops = 0 then
          .ok ⟨(streamOf packets).length + 1, endedIn packets + w.isLast.toNat,
            packets.flatMap ReadPacket.ops ++ ops.map (Operation.placed (endedIn packets) w.isLast), none⟩
        else
          .ok ⟨(streamOf packets).length + 1, endedIn packets + w.isLast.toNat, packets.flatMap ReadPacket.ops,
            some ⟨ops.map (Operation.placed (endedIn packets) w.isLast), trailingCount ops, []⟩⟩ := by
      rw [← hcount]
      simp only [DecodeState.takeHeader, s, hops, bind, Except.bind, pure, Except.pure]
      rfl
    by_cases hzero : trailingCount ops = 0
    · rw [htake, if_pos hzero]
      have hlength : ([] : List Word).length = trailingCount ops := hzero.symm
      have hread := concat order (ReadPacket.readAt_attach hgroups hall hlength)
      exact ⟨_, rfl, by simpa [ReadPacket.words] using hread⟩
    · rw [htake, if_neg hzero]
      have hlength : trailingCount ops + ([] : List Word).length = trailingCount ops := rfl
      have hread := within order hgroups hall hlength (Nat.pos_of_ne_zero hzero)
      exact ⟨_, rfl, by simpa using hread⟩
  · refine .inr ⟨e, ?_, hE⟩
    simp only [DecodeState.takeHeader, s, he, bind, Except.bind]

theorem step (h : ReadPackets y ws s) (hy : y.qubits ≤ 2 ^ 61) (w : Word) :
    (∃ s', DecodeState.step y s w = .ok s' ∧ ReadPackets y (ws ++ [w]) s') ∨
      ∃ e, DecodeState.step y s w = .error e ∧ HeaderWord.UnknownHeader ⟨ws.length, w⟩ e := by
  cases h with
  | between order => exact takeHeader order hy w
  | @within packets order header newest missing ops groups operations count missing_pos =>
    refine .inl ⟨_, rfl, ?_⟩
    by_cases hlast : missing ≤ 1
    · rw [takeTrailing_last hlast]
      have hcount : (w :: newest).reverse.length = trailingCount ops := by
        rw [List.length_reverse, List.length_cons]
        omega
      have hread := concat order (ReadPacket.readAt_attach groups operations hcount)
      simpa [ReadPacket.words, Nat.add_assoc] using hread
    · rw [takeTrailing_more hlast]
      have hcount : missing - 1 + (w :: newest).length = trailingCount ops := by
        rw [List.length_cons]
        omega
      have hread := within order groups operations hcount (by omega)
      simpa [Nat.add_assoc] using hread

end ReadPackets

/-- At the end of the stream all its packets are complete, or the one trailing
word too few is asked for behind its last word. -/
theorem ReadPackets.finish (h : ReadPackets y ws s) :
    (∃ packets, ReadInOrder y packets ∧ ws = streamOf packets ∧ s.finish = .ok (packets.flatMap ReadPacket.ops)) ∨
      ∃ e, s.finish = .error e ∧ (e = .missingProbability ws.length ∨ e = .missingAngle ws.length) := by
  cases h with
  | @between packets order => exact .inl ⟨packets, order, rfl, rfl⟩
  | within order groups operations count missing_pos =>
    refine .inr ?_
    simp only [DecodeState.finish]
    split
    · exact ⟨_, rfl, .inl rfl⟩
    · exact ⟨_, rfl, .inr rfl⟩

end DecodeState

/-- What an error says of the stream: a word of it that stands for no
operation, or that a word is missing at its end. No error is a fault. -/
def DecodeError.Reports (words : List Word) : DecodeError → Prop
  | .unknownOpcode number code => code = 7 ∧ ∃ w, words[number]? = some w ∧ w.opcode = 7
  | .unknownSelector number selector | .unknownControlledSelector number selector =>
    number < words.length ∧ 10 < selector ∧ selector < 16
  | .missingProbability number | .missingAngle number => number = words.length
  | .fault _ => False

theorem HeaderWord.UnknownHeader.reports {done rest : List Word} {w : Word} {e : DecodeError}
    (h : UnknownHeader ⟨done.length, w⟩ e) : e.Reports (done ++ w :: rest) := by
  have hlt : done.length < (done ++ w :: rest).length := by simp
  rcases h with ⟨hcode, rfl⟩ | ⟨selector, hlow, hhigh, rfl | rfl⟩
  · exact ⟨rfl, w, by simp, hcode⟩
  · exact ⟨hlt, hlow, hhigh⟩
  · exact ⟨hlt, hlow, hhigh⟩

/-- Any words can be read for any number of qubits whose widths do not
overflow. A group is read where a whole one is left and takes the width of its
lane. The stream is a sequence of packets whose operations have the names and
operands of their lanes and stand in the timeslice given by the end flags
before them, or an error tells the word at which it does not go on. -/
theorem decode_any (words : List Word) {n : Int} (hn : n ≤ 2 ^ 61) :
    (∀ (h : HeaderWord) l pos, (Layout.ofCount n).width l ≤ pos →
      EndsAt (HeaderWord.UnknownSelector h.number) (LaneOperation (.ofCount n) l)
        (pos - (Layout.ofCount n).width l) (h.readGroup (.ofCount n) l pos)) ∧
    (∀ (h : HeaderWord) pos, (Layout.ofCount n).qubitBits ≤ pos →
      EndsAt (HeaderWord.UnknownSelector h.number) (MeasuredOperation (.ofCount n))
        (pos - (Layout.ofCount n).qubitBits) (h.readMeasured (.ofCount n) pos)) ∧
    ((∃ packets, words = streamOf packets ∧ decode words n = .ok (packets.flatMap ReadPacket.ops) ∧
        ReadInOrder (.ofCount n) packets) ∨
      ∃ e, decode words n = .error e ∧ e.Reports words) := by
  have hy : (Layout.ofCount n).qubits ≤ 2 ^ 61 := by
    simp only [Layout.ofCount]
    omega
  have hrun := foldlM_outcome (P := DecodeState.ReadPackets (.ofCount n)) (E := DecodeError.Reports words)
    (l := words) (b := {}) (f := DecodeState.step (.ofCount n)) (.between (readInOrder_nil _))
    fun done w rest s hl hs => by
      rcases hs.step hy w with hok | ⟨e, he, hE⟩
      · exact .inl hok
      · exact .inr ⟨e, he, hl ▸ hE.reports⟩
  refine ⟨fun h l pos => HeaderWord.readGroup_endsAt, fun h pos => HeaderWord.readMeasured_endsAt, ?_⟩
  rcases hrun with ⟨s, hs, hread⟩ | ⟨e, he, hE⟩
  · have hdecode : decode words n = s.finish := by
      rw [decode, hs]
      rfl
    rw [hdecode]
    rcases hread.finish with ⟨packets, order, hwords, hok⟩ | ⟨e, he, hE⟩
    · exact .inl ⟨packets, hwords, hok, order⟩
    · refine .inr ⟨e, he, ?_⟩
      rcases hE with rfl | rfl <;> rfl
  · refine .inr ⟨e, ?_, hE⟩
    rw [decode, he]
    rfl

/-- A rotation with its angle in the first timeslice and a controlled gate in
the second, read for three qubits. -/
theorem decode_any_three :
    let words : List Word := [0x85ffffffffffffff, 0x4000000000000000, 0x160fffffffffffff]
    (3 : Int) ≤ 2 ^ 61 ∧ ∃ packets, words = streamOf packets ∧ ReadInOrder (.ofCount 3) packets ∧
      (packets.flatMap ReadPacket.ops).map (fun o => (o.slice, o.gate, o.controls)) =
        [(0, "rx", []), (1, "cx", [3])] := by
  intro words
  have hdecode : ((decode words 3).toOption.map fun ops => ops.map fun o => (o.slice, o.gate, o.controls)) =
      some [(0, "rx", []), (1, "cx", [3])] := by decide +kernel
  rcases (decode_any words (n := 3) (by decide)).2.2 with ⟨packets, hwords, hok, order⟩ | ⟨e, he, -⟩
  · rw [hok] at hdecode
    exact ⟨by decide, packets, hwords, order, Option.some.inj hdecode⟩
  · rw [he] at hdecode
    cases hdecode

/-- A single control can be an index beyond the number of qubits. -/
theorem not_controls_below :
    ¬ ∀ (words : List Word) (n : Int) ops, n ≤ 2 ^ 61 → decode words n = .ok ops →
      ∀ o ∈ ops, ∀ q ∈ o.controls, q < n := by
  intro h
  have hdecode : decode [0x160fffffffffffff] 3 =
      .ok [{ category := .control, gate := "cx", qubit := 0, controls := [3] }] := rfl
  have hlt := h _ _ _ (by decide) hdecode _ (List.mem_singleton.mpr rfl) 3 (List.mem_singleton.mpr rfl)
  exact absurd hlt (by decide)

end Sequencer
