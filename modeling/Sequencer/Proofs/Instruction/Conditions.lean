import Sequencer.Proofs.Instruction.Capacity
import Sequencer.Proofs.Instruction.LostGroups
import Sequencer.Proofs.Instruction.MeasuredFirst
import Sequencer.Proofs.Instruction.QubitOrder

/-!
# What conditions test

A guard compares a classical bit, or the number that the bits of a register
spell, with a value. In a program the test of an operation names the same bits
by their indices. A register is tested against the value of the guard, but a
bit against the lowest bit of that value. So the program tests what the guard
says, unless the guard asks of a single bit that it is neither 0 nor 1: the
guard never holds then, and the test of the program holds of one of the two.
-/

namespace Sequencer

def binary : List Bool → Nat
  | [] => 0
  | b :: rest => b.toNat + 2 * binary rest

/-- The test holds of the classical bits, which stand in the order of their
indices. -/
def DecodedTest.holds (d : DecodedTest) (state : List Bool) : Bool :=
  if d.isRange then
    (binary ((state.drop d.bit.toNat).take (d.high - d.bit + 1).toNat) : Int) == d.value
  else
    (((state[d.bit.toNat]?).getD false).toNat : Int) == d.value

namespace Circuit

open BitField Packet

/-- The number that a guard compares: an element of the register, or all of
them when no index is given. -/
def guarded (c : Circuit) (register : String) (index : Option Int) (state : String → Bool) : Nat :=
  match index.filter fun i => 0 ≤ i with
  | some i => (state (elementName register i)).toNat
  | none => binary ((Register.elements ⟨register, c.classicalSize register⟩).map state)

/-- The word that holds the visit is read as operations, of which `o` is the one
on the qubit of the visit. -/
def CodedAs (c : Circuit) (p : InstructionProgram) (v : Visit) (o : StreamOperation) : Prop :=
  ∃ i w ops, c.HeldAt p v i ∧ p.words[i]? = some w ∧
    (HeaderWord.mk i w).operations c.layout = .ok ops ∧ o ∈ ops ∧ o.qubit = c.position v.2.1

-- ---------------------------------------------------------------------------
-- Guards
-- ---------------------------------------------------------------------------

variable {c : Circuit}

theorem condition_ok {register : String} {index : Option Int} {value : Int} {cond : Condition}
    (h : c.condition register index value = .ok cond) :
    (cond = ⟨register, value, .register⟩ ∧ 1 < c.classicalSize register ∧
        ∀ state, c.guarded register index state =
          binary ((Register.elements ⟨register, c.classicalSize register⟩).map state)) ∨
      ∃ i : Nat, cond = ⟨elementName register i, value, .bit⟩ ∧ (i : Int) < c.classicalSize register ∧
        ∀ state, c.guarded register index state = (state (elementName register i)).toNat := by
  simp only [condition] at h
  split at h
  · cases h
  rename_i hsize
  split at h
  · rename_i hwhole
    obtain ⟨hnone, hseveral⟩ := hwhole
    refine .inl ⟨(Except.ok.inj h).symm, hseveral, fun state => ?_⟩
    rw [guarded, Option.isNone_iff_eq_none.mp hnone]
  rename_i hsingle
  split at h
  · cases h
  rename_i hinside
  refine .inr ⟨((index.filter fun i => 0 ≤ i).getD 0).toNat, ?_⟩
  cases hindex : index.filter fun i => 0 ≤ i with
  | some i =>
    have hi : 0 ≤ i := by simpa using (Option.filter_eq_some_iff.mp hindex).2
    rw [hindex] at h hinside
    simp only [Option.getD_some, Int.toNat_of_nonneg hi] at h hinside ⊢
    exact ⟨(Except.ok.inj h).symm, by omega, fun state => by rw [guarded, hindex]⟩
  | none =>
    rw [hindex] at h hinside hsingle
    simp only [Option.getD_none, Int.toNat_zero, Int.natCast_zero] at h hinside ⊢
    refine ⟨(Except.ok.inj h).symm, by omega, fun state => ?_⟩
    have hone : c.classicalSize register = 1 := by
      simp only [Option.isNone_none, true_and] at hsingle
      omega
    simp [guarded, hindex, hone, Register.elements, binary]

-- ---------------------------------------------------------------------------
-- Tests
-- ---------------------------------------------------------------------------

/-- A resolved guard on a register tests its value, one on a bit the lowest bit
of its value. -/
theorem WellFormed.holds_bitTest (wf : c.WellFormed) (counted : c.bits.length < Integer.bound)
    {register : String} {index : Option Int} {value : Int} {cond : Condition} {t : Int} {gate : String}
    {test : BitTest} (hcond : c.condition register index value = .ok cond)
    (htest : c.bitTest c.layout t gate cond = .ok test) (state : String → Bool) :
    test.decoded.holds (c.bits.map state) = true ↔
      (c.guarded register index state : Int) = if cond.kind = .register then value else value % 2 := by
  have hrange := isRange_of_bitTest htest
  rcases condition_ok hcond with ⟨rfl, -, hguarded⟩ | ⟨i, rfl, -, hguarded⟩
  · obtain ⟨-, ⟨low, hlow, -, -, rfl⟩ | ⟨_, -, rfl⟩⟩ := bitTest_ok htest
    · obtain ⟨-, before, after, hbits, rfl⟩ := wf.split_bits hlow
      have hsize : 1 ≤ c.classicalSize register := (wf.register_bits hlow).1
      have hend : before.length + c.classicalSize register ≤ c.bits.length := (wf.register_bits hlow).2
      have hhigh : Integer.wrap (before.length + c.classicalSize register - 1) =
          before.length + c.classicalSize register - 1 := by
        unfold Integer.bound at counted
        exact Integer.wrap_of_lt (by unfold Integer.bound; omega) (by unfold Integer.bound; omega)
      have hwidth : ((before.length : Int) + c.classicalSize register - 1 - before.length + 1).toNat =
          (Register.elements ⟨register, c.classicalSize register⟩).length := by
        simp only [Register.elements, List.length_map, List.length_range]
        omega
      have hbefore : (before.length : Int).toNat = (before.map state).length := by simp
      simp only [BitTest.decoded, DecodedTest.holds, if_true, hhigh, hwidth, hguarded, beq_iff_eq]
      rw [hbits, List.map_append, List.map_append, hbefore, List.drop_left', List.take_left' (by simp)]
      rfl
    · cases hrange
  · obtain ⟨-, ⟨_, -, -, -, rfl⟩ | ⟨at?, hat, rfl⟩⟩ := bitTest_ok htest
    · cases hrange
    · simp only [bitIndex] at hat
      split at hat
      case h_2 => cases hat
      rename_i j hj
      obtain rfl : j = at? := Except.ok.inj hat
      have hbit := getElem?_of_lastIndexOf? hj
      simp only [BitTest.decoded, DecodedTest.holds, Int.toNat_natCast, List.getElem?_map, hbit, Option.map_some,
        Option.getD_some, hguarded, beq_iff_eq, Bool.false_eq_true, if_false, reduceCtorEq]

theorem guarded_agrees_iff {register : String} {index : Option Int} {value : Int} {cond : Condition}
    (hcond : c.condition register index value = .ok cond) :
    (∀ state, (c.guarded register index state : Int) = (if cond.kind = .register then value else value % 2) ↔
        (c.guarded register index state : Int) = value) ↔
      cond.kind = .register ∨ value = 0 ∨ value = 1 := by
  rcases condition_ok hcond with ⟨rfl, -, -⟩ | ⟨i, rfl, -, hguarded⟩
  · simp
  · simp only [hguarded, reduceCtorEq, if_false, false_or]
    constructor
    · intro h
      -- a state in which the bit is the lowest bit of the value
      have hstate := h fun _ => decide (value % 2 = 1)
      by_cases hodd : value % 2 = 1
      · simp only [hodd, decide_true, Bool.toNat_true, Int.natCast_one, true_iff] at hstate
        exact .inr hstate.symm
      · have heven : value % 2 = 0 := by omega
        simp only [heven, Int.reduceEq, decide_false, Bool.toNat_false, Int.natCast_zero, true_iff] at hstate
        exact .inl hstate.symm
    · rintro (rfl | rfl) state <;> simp

-- ---------------------------------------------------------------------------
-- Operations in words
-- ---------------------------------------------------------------------------

theorem operation?_of_takesCondition {v : Visit} {o : StreamOperation} (ho : c.operation? v = some o)
    (htakes : v.2.2.takesCondition (Gate.isChannel v.2.2.gate) = true) :
    o.qubit = c.position v.2.1 ∧ o.gate = v.2.2.gate ∧ o.cond = c.operands v := by
  simp only [Node.takesCondition, Bool.and_eq_true, Bool.not_eq_true'] at htakes
  obtain ⟨⟨⟨hbarrier, hmeasurement⟩, hreset⟩, hchannel⟩ := htakes
  simp only [operation?, hbarrier, hmeasurement, hreset, hchannel, Bool.or_self, Bool.false_eq_true,
    if_false] at ho
  split at ho
  · split at ho
    · obtain rfl := Option.some.inj ho
      exact ⟨rfl, rfl, rfl⟩
    · cases ho
  · obtain rfl := Option.some.inj ho
    exact ⟨rfl, rfl, rfl⟩

/-- The word that holds a conditioned visit is read as the operations of all
visits it holds: the selector of a gate tells its group from padding. -/
theorem Accepted.codedAs (h : c.Accepted) {p : InstructionProgram} {v : Visit} {l : Lane} {i : Nat}
    (hv : c.Carried v v.1 (some l)) (hl : l.category = .singleCond ∨ l.category = .controlCond)
    (htakes : v.2.2.takesCondition (Gate.isChannel v.2.2.gate) = true) (hi : c.HeldAt p v i) :
    ∃ o, c.CodedAs p v o ∧ o.gate = v.2.2.gate ∧ o.cond = c.operands v := by
  obtain ⟨before, x, after, hsent, hvx, hwords, rfl⟩ := id hi
  obtain ⟨t, s, hp⟩ := exists_stream_of_sent (show x ∈ c.sent by simp [hsent])
  have hcarried : c.Carried v t s := by
    rw [← mem_streamVisits, ← h.visits_streamPackets]
    exact List.mem_flatMap.mpr ⟨x.2, hp, hvx⟩
  obtain ⟨rfl, rfl⟩ := h.wellFormed.carried_unique hcarried hv
  obtain ⟨hne, hlen, hvisits⟩ := visits_of_lane hp
  obtain ⟨items, hfst, hsnd, hitems⟩ := exists_items (P := Legible c.layout l) x.2.visits fun u hu =>
    h.legible_group (hvisits u hu).1 (hvisits u hu).2.2
  have hcount : items.length = x.2.visits.length := by simpa using congrArg List.length hfst
  have hclear (j : Group × StreamOperation) (hj : j ∈ items) : Clear j.1.fields := by
    have hgroup : j.1 ∈ x.2.visits.map c.group := hfst ▸ List.mem_map_of_mem hj
    obtain ⟨u, hu, heq⟩ := List.mem_map.mp hgroup
    rw [clear_iff, ← heq]
    intro hfull
    rcases lane_of_isFull (hvisits u hu).2.2 hfull with ⟨rfl, -⟩ | rfl <;> simp [Lane.category] at hl
  have hread := HeaderWord.operations_headerWord (List.length_pos_iff.mp (hcount ▸ List.length_pos_iff.mpr hne)) hitems
    (hcount ▸ hlen) x.1 (wordsOf c before).length
    fun j hj => hclear j (List.mem_of_mem_tail (List.mem_of_getLast? hj))
  obtain ⟨o, ho, -⟩ := h.legible_group (hvisits v hvx).1 (hvisits v hvx).2.2
  obtain ⟨j, hj, rfl⟩ : ∃ j ∈ items, j.2 = o := by
    rw [← List.mem_map, hsnd]
    exact List.mem_filterMap.mpr ⟨v, hvx, ho⟩
  obtain ⟨hqubit, hgate, hcond⟩ := operation?_of_takesCondition ho htakes
  refine ⟨j.2.bare, ⟨_, _, _, hi, ?_, hread, List.mem_map.mpr ⟨j, hj, rfl⟩, hqubit⟩, hgate, hcond⟩
  rw [hwords, Packet.words, stream_of_mem hp, hfst, List.getElem?_append_right (Nat.le_refl _), Nat.sub_self]
  rfl

/-- The word that holds a guarded operation tests the bits of the guard: a
register against the value of the guard, a bit against the lowest bit of that
value. It tests what the guard says exactly if a bit can have the value. The
group of a controlled operation stands at its target. -/
theorem coded_condition_iff (k : Construction) {p : InstructionProgram} (he : k.circuit.encode = .ok p)
    {register : String} {index : Option Int} {value : Int} {cond : Condition}
    (hcond : k.circuit.condition register index value = .ok cond) {q : String} {t : Int} {n : Node}
    (hn : k.circuit.at? q t = some n) (hguard : n.cond = some cond)
    (htarget : n.controlled = true → n.target = true) :
    ∃ o d, k.circuit.CodedAs p (t, q, n) o ∧ o.gate = n.gate ∧ o.cond = some d ∧
      (∀ state, d.holds (k.circuit.bits.map state) = true ↔
        (k.circuit.guarded register index state : Int) =
          if cond.kind = .register then value else value % 2) ∧
      ((∀ state, d.holds (k.circuit.bits.map state) = true ↔
          (k.circuit.guarded register index state : Int) = value) ↔
        cond.kind = .register ∨ value = 0 ∨ value = 1) := by
  obtain ⟨haccepted, hslices⟩ := k.encode_ok he
  have hv : ((t, q, n) : Visit) ∈ k.circuit.visits := k.wellFormed.mem_visits.mpr hn
  have hconditioned : n.isConditioned = true := by simp [Node.isConditioned, hguard]
  have haccepts := haccepted.accepts _ hv
  obtain ⟨-, l, g, test, hlg, hl, htest⟩ := haccepts.tested hconditioned htarget
  have hcarried : k.circuit.Carried (t, q, n) t (some l) := ⟨hv, rfl, by simp [group, hlg]⟩
  obtain ⟨i, hi⟩ := haccepted.exists_heldAt hslices hcarried
  obtain ⟨o, hcoded, hgate, htested⟩ := haccepted.codedAs hcarried hl (haccepts.condition hconditioned) hi
  have hbit : k.circuit.bitTest k.circuit.layout t n.gate cond = .ok test := by
    simp only [optionalTest, hguard] at htest
    simpa using map_eq_ok.mp htest
  have hholds := haccepted.wellFormed.holds_bitTest haccepted.bits_counted hcond hbit
  refine ⟨o, test.decoded, hcoded, hgate, ?_, hholds, ?_⟩
  · rw [htested, operands, htest]
    rfl
  · simp only [hholds]
    exact guarded_agrees_iff hcond

end Circuit

/-- An operation under a guard that asks for a bit to be 2. -/
def Construction.unmet : Construction where
  name := "unmet"
  steps := [
    .quantum ⟨"q", 1⟩, .classical ⟨"c", 1⟩,
    .call (.gate "x" "q[0]" [] (some ⟨"c[0]", 2, .bit⟩))]
  quantum_fresh := by decide
  classical_fresh := by decide
  counted := by decide
  qubits_counted := by decide
  bits_counted := by decide

theorem Circuit.coded_condition_iff_unmet :
    ∃ p n o d, Construction.unmet.circuit.encode = .ok p ∧
      Construction.unmet.circuit.condition "c" (some 0) 2 = .ok ⟨"c[0]", 2, .bit⟩ ∧
      Construction.unmet.circuit.at? "q[0]" 1 = some n ∧ n.cond = some ⟨"c[0]", 2, .bit⟩ ∧
      Construction.unmet.circuit.CodedAs p (1, "q[0]", n) o ∧ o.cond = some d ∧
      d.holds (Construction.unmet.circuit.bits.map fun _ => false) = true ∧
      Construction.unmet.circuit.guarded "c" (some 0) (fun _ => false) = 0 := by
  have hcond : Construction.unmet.circuit.condition "c" (some 0) 2 = .ok ⟨"c[0]", 2, .bit⟩ := by decide +kernel
  have hguarded : Construction.unmet.circuit.guarded "c" (some 0) (fun _ => false) = 0 := by decide +kernel
  have hnode : (Construction.unmet.circuit.at? "q[0]" 1).any (fun n =>
      n.cond == some ⟨"c[0]", 2, .bit⟩ && !n.controlled) = true := by decide +kernel
  have hsome : Construction.unmet.circuit.encode.toOption.isSome = true := by decide +kernel
  obtain ⟨n, hn, hcheck⟩ := (Option.any_eq_true _ _).mp hnode
  simp only [Bool.and_eq_true, beq_iff_eq, Bool.not_eq_true'] at hcheck
  obtain ⟨hguard, hplain⟩ := hcheck
  obtain ⟨p, he⟩ := isSome_toOption.mp hsome
  obtain ⟨o, d, hcoded, -, hd, hholds, -⟩ :=
    coded_condition_iff Construction.unmet he hcond hn hguard fun h => by simp [hplain] at h
  refine ⟨p, n, o, d, he, hcond, hn, hguard, hcoded, hd, (hholds _).mpr ?_, hguarded⟩
  rw [hguarded]
  decide

end Sequencer
