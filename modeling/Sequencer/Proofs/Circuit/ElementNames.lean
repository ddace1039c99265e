import Mathlib.Data.List.Nodup
import Sequencer.Circuit.Basic

/-!
# Names of register elements

Different elements of distinctly named registers have different names, so a
name stands for one qubit or one bit, and its index is its only position.
-/

namespace Sequencer

-- ---------------------------------------------------------------------------
-- Text of a name
-- ---------------------------------------------------------------------------

theorem toList_elementName (register : String) (i : Nat) :
    (elementName register i).toList =
      register.toList ++ '[' :: (Nat.toDigits 10 i ++ [']']) := by
  have h : (Int.repr i).toList = Nat.toDigits 10 i := Nat.toList_repr
  simp [elementName, h]

theorem notMem_toDigits {x : Char} (hx : x.isDigit = false) (i : Nat) :
    x ∉ Nat.toDigits 10 i := by
  intro h
  have hd := Nat.isDigit_of_mem_toDigits (by decide) (by decide) h
  simp [hx] at hd

theorem toDigits_injective {i j : Nat} (h : Nat.toDigits 10 i = Nat.toDigits 10 j) : i = j := by
  simpa using congrArg (Nat.ofDigitChars 10 · 0) h

theorem eq_of_append_cons_notMem {x : α} {a b u v : List α} (hu : x ∉ u) (hv : x ∉ v)
    (h : a ++ x :: u = b ++ x :: v) : a = b ∧ u = v := by
  rcases List.append_eq_append_iff.mp h with ⟨s, hb, hs⟩ | ⟨s, ha, hs⟩
  · cases s with
    | nil => simp_all
    | cons y s =>
      simp only [List.cons_append, List.cons.injEq] at hs
      exact absurd (hs.2 ▸ by simp) hu
  · cases s with
    | nil => simp_all
    | cons y s =>
      simp only [List.cons_append, List.cons.injEq] at hs
      exact absurd (hs.2 ▸ by simp) hv

theorem elementName_injective {r s : String} {i j : Nat} (h : elementName r i = elementName s j) :
    r = s ∧ i = j := by
  have hl := congrArg String.toList h
  rw [toList_elementName, toList_elementName] at hl
  have hout (k : Nat) : '[' ∉ Nat.toDigits 10 k ++ [']'] := by
    simp [notMem_toDigits (x := '[') (by decide) k]
  obtain ⟨hr, hd⟩ := eq_of_append_cons_notMem (hout i) (hout j) hl
  exact ⟨String.toList_inj.mp hr, toDigits_injective (by simpa using hd)⟩

theorem notMem_elementName {x : Char} (hx : x.isDigit = false) (hl : x ≠ '[') (hr : x ≠ ']')
    {r : String} (h : x ∉ r.toList) (i : Nat) : x ∉ (elementName r i).toList := by
  rw [toList_elementName]
  simp [h, hl, hr, notMem_toDigits hx i]

-- ---------------------------------------------------------------------------
-- Elements of registers
-- ---------------------------------------------------------------------------

theorem mem_elements {r : Register} {name : String} :
    name ∈ r.elements ↔ ∃ i : Nat, i < r.size.toNat ∧ name = elementName r.name i := by
  simp only [Register.elements, List.mem_map, List.mem_range]
  exact ⟨fun ⟨i, hi, h⟩ => ⟨i, hi, h.symm⟩, fun ⟨i, hi, h⟩ => ⟨i, hi, h.symm⟩⟩

theorem nodup_elements (r : Register) : r.elements.Nodup := by
  refine List.Nodup.map ?_ List.nodup_range
  intro i j h
  exact (elementName_injective h).2

theorem name_eq_of_mem_elements {r s : Register} {name : String} (hr : name ∈ r.elements)
    (hs : name ∈ s.elements) : r.name = s.name := by
  obtain ⟨i, -, rfl⟩ := mem_elements.mp hr
  obtain ⟨j, -, h⟩ := mem_elements.mp hs
  exact (elementName_injective h).1

theorem nodup_flatMap_elements {registers : List Register}
    (h : (registers.map Register.name).Nodup) : (registers.flatMap Register.elements).Nodup := by
  induction registers with
  | nil => simp
  | cons r rest ih =>
    simp only [List.map_cons, List.nodup_cons, List.mem_map, not_exists, not_and] at h
    simp only [List.flatMap_cons]
    refine (nodup_elements r).append (ih h.2) ?_
    intro name hr hrest
    obtain ⟨s, hs, hname⟩ := List.mem_flatMap.mp hrest
    exact h.1 s hs (name_eq_of_mem_elements hname hr)

theorem sizeOf_eq {registers : List Register} (hn : (registers.map Register.name).Nodup) {r : Register}
    (hr : r ∈ registers) : Circuit.sizeOf registers r.name = r.size := by
  induction registers with
  | nil => cases hr
  | cons s rest ih =>
    obtain ⟨hs, hrest⟩ := List.nodup_cons.mp hn
    rcases List.mem_cons.mp hr with rfl | hr
    · simp [Circuit.sizeOf]
    · have hne : (s.name == r.name) = false := by
        refine beq_eq_false_iff_ne.mpr fun heq => hs ?_
        exact heq ▸ List.mem_map_of_mem hr
      have := ih hrest hr
      simp only [Circuit.sizeOf, List.find?_cons, hne] at this ⊢
      exact this

theorem size_le_of_mem {registers : List Register} {r : Register} (hr : r ∈ registers) :
    r.size.toNat ≤ (registers.flatMap Register.elements).length := by
  obtain ⟨before, after, rfl⟩ := List.append_of_mem hr
  simp only [List.flatMap_append, List.flatMap_cons, List.length_append, Register.elements, List.length_map,
    List.length_range]
  omega

-- ---------------------------------------------------------------------------
-- Indices
-- ---------------------------------------------------------------------------

theorem lastIndexOf?_eq_none [DecidableEq α] {x : α} {l : List α} :
    lastIndexOf? x l = none ↔ x ∉ l := by
  induction l with
  | nil => simp [lastIndexOf?]
  | cons y rest ih =>
    simp only [lastIndexOf?, List.mem_cons, not_or]
    cases h : lastIndexOf? x rest with
    | none =>
      by_cases hxy : x = y <;> simp_all
    | some i =>
      have : ¬ x ∉ rest := fun hn => by simp [ih.mpr hn] at h
      simp [this]

theorem getElem?_of_lastIndexOf? [DecidableEq α] {x : α} {l : List α} {i : Nat}
    (h : lastIndexOf? x l = some i) : l[i]? = some x := by
  induction l generalizing i with
  | nil => simp [lastIndexOf?] at h
  | cons y rest ih =>
    simp only [lastIndexOf?] at h
    cases hr : lastIndexOf? x rest with
    | some j =>
      simp only [hr, Option.some.injEq] at h
      subst h
      simpa using ih hr
    | none =>
      simp only [hr] at h
      split at h
      · cases h
        simp [*]
      · cases h

theorem lastIndexOf?_eq_some [DecidableEq α] {x : α} {l : List α} (hl : l.Nodup) {i : Nat} :
    lastIndexOf? x l = some i ↔ l[i]? = some x := by
  refine ⟨getElem?_of_lastIndexOf?, fun h => ?_⟩
  cases hx : lastIndexOf? x l with
  | none => exact absurd (List.mem_of_getElem? h) (lastIndexOf?_eq_none.mp hx)
  | some j =>
    have hj := getElem?_of_lastIndexOf? hx
    obtain ⟨hi, -⟩ := List.getElem?_eq_some_iff.mp h
    rw [(List.getElem?_inj hi hl).mp (h.trans hj.symm)]

namespace Circuit
variable (c : Circuit)

def position (q : String) : Nat := c.qubits.idxOf q

variable {c}

theorem position_inj {p q : String} (hq : q ∈ c.qubits) : c.position q = c.position p ↔ q = p :=
  List.idxOf_inj hq

theorem position_lt_numQubits {q : String} (hq : q ∈ c.qubits) : c.position q < c.numQubits :=
  List.idxOf_lt_length_iff.mpr hq

theorem qubitIndex_eq (h : c.qubits.Nodup) {q : String} (hq : q ∈ c.qubits) :
    c.qubitIndex q = .ok (c.position q) := by
  have hget : c.qubits[c.position q]? = some q := by
    rw [List.getElem?_eq_getElem (position_lt_numQubits hq)]
    exact congrArg some (List.getElem_idxOf _)
  simp only [qubitIndex, (lastIndexOf?_eq_some h).mpr hget]

end Circuit

end Sequencer
