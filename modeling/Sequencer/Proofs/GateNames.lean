import Sequencer.Gate

/-!
# Names of gates

A name stands for one kind of gate: single gates, controlled gates and channels
have different names, and a name with several controls is split in one way.

`splitControls_exact`: the names that are split are those of the controlled
gates behind any number of letters `c`.
-/

namespace Sequencer.Gate

theorem name_of_single? {gate : String} {p : Primitive} (h : single? gate = some p) :
    p.name = gate := by
  simpa using List.find?_some h

theorem name_of_channel? {gate : String} {ch : Channel} (h : channel? gate = some ch) :
    ch.name = gate := by
  simpa using List.find?_some h

theorem name_of_controlled? {gate : String} {p : Primitive} (h : controlled? gate = some p) :
    "c" ++ p.name = gate := by
  rw [controlled?] at h
  split at h
  · rename_i rest hlist
    have hname : p.name = String.ofList rest := by simpa using List.find?_some h
    rw [← String.toList_inj, hname, hlist]
    simp
  · cases h

theorem channel?_of_single? {gate : String} (h : (single? gate).isSome = true) :
    channel? gate = none := by
  obtain ⟨p, hp⟩ := Option.isSome_iff_exists.mp h
  rw [← name_of_single? hp]
  cases p <;> decide

theorem channel?_of_controlled? {gate : String} (h : (controlled? gate).isSome = true) :
    channel? gate = none := by
  obtain ⟨p, hp⟩ := Option.isSome_iff_exists.mp h
  rw [← name_of_controlled? hp]
  cases p <;> decide

theorem single?_of_channel? {gate : String} (h : (channel? gate).isSome = true) : single? gate = none := by
  obtain ⟨ch, hch⟩ := Option.isSome_iff_exists.mp h
  rw [← name_of_channel? hch]
  cases ch <;> decide

theorem splitControls_of_channel? {gate : String} (h : (channel? gate).isSome = true) : splitControls gate = none := by
  obtain ⟨ch, hch⟩ := Option.isSome_iff_exists.mp h
  rw [← name_of_channel? hch]
  cases ch <;> decide

theorem toList_of_controlled? {base : String} (h : (controlled? base).isSome = true) :
    ∃ rest, base.toList = 'c' :: rest := by
  unfold controlled? at h
  split at h
  · rename_i rest hlist
    exact ⟨rest, hlist⟩
  · cases h

theorem single?_of_toList {name : String} {rest : List Char} (h : name.toList = 'c' :: rest) : single? name = none := by
  cases hp : single? name with
  | none => rfl
  | some p =>
    rw [← name_of_single? hp] at h
    have hall : ∀ p : Primitive, p.name.toList.head? ≠ some 'c' := by
      intro p
      cases p <;> decide
    exact absurd (by rw [h]; rfl) (hall p)

theorem controlledName_eq (base : String) (n : Nat) :
    controlledName base n = String.ofList (List.replicate (n - 1) 'c') ++ base := by
  have hn : ((n : Int) - 1).toNat = n - 1 := by omega
  rw [controlledName, hn]

theorem toList_controlledName (base : String) (n : Nat) :
    (controlledName base n).toList = List.replicate (n - 1) 'c' ++ base.toList := by
  rw [controlledName_eq, String.toList_append, String.toList_ofList]

/-- With a further letter in front, a name with controls is no controlled gate: the
letter behind it is `c` as well, which no single gate begins with. -/
theorem controlled?_replicate {base : String} (h : (controlled? base).isSome = true) (n : Nat) :
    controlled? (String.ofList ('c' :: (List.replicate n 'c' ++ base.toList))) = none := by
  obtain ⟨rest, hbase⟩ := toList_of_controlled? h
  obtain ⟨more, hmore⟩ : ∃ more, List.replicate n 'c' ++ base.toList = 'c' :: more := by
    cases n with
    | zero => exact ⟨rest, hbase⟩
    | succ n => exact ⟨List.replicate n 'c' ++ base.toList, rfl⟩
  simp only [controlled?, String.toList_ofList]
  exact single?_of_toList (by rw [String.toList_ofList]; exact hmore)

theorem splitFrom_replicate {base : String} (h : (controlled? base).isSome = true) (n extra : Nat) :
    splitFrom (List.replicate n 'c' ++ base.toList) extra = some (base, extra + n + 1) := by
  induction n generalizing extra with
  | zero =>
    obtain ⟨rest, hbase⟩ := toList_of_controlled? h
    have hname : String.ofList ('c' :: rest) = base := by rw [← hbase, String.ofList_toList]
    simp [hbase, splitFrom, hname, h]
  | succ n ih =>
    rw [List.replicate_succ, List.cons_append, splitFrom, if_pos rfl, controlled?_replicate h, ih]
    simp only [Option.isSome_none, Bool.false_eq_true, ↓reduceIte]
    congr 2
    omega

theorem eq_replicate_of_splitFrom {cs : List Char} {extra k : Nat} {base : String}
    (h : splitFrom cs extra = some (base, k)) :
    (controlled? base).isSome = true ∧ ∃ n, cs = List.replicate n 'c' ++ base.toList ∧ k = extra + n + 1 := by
  induction cs generalizing extra with
  | nil => cases h
  | cons c rest ih =>
    rw [splitFrom] at h
    split at h
    · rename_i hc
      split at h
      · rename_i hfound
        cases h
        exact ⟨hfound, 0, by simp, rfl⟩
      · obtain ⟨hbase, n, rfl, rfl⟩ := ih h
        refine ⟨hbase, n + 1, by rw [hc, List.replicate_succ, List.cons_append], by omega⟩
    · cases h

theorem splitControls_controlledName {base : String} (h : (controlled? base).isSome = true) {n : Nat} (hn : 0 < n) :
    splitControls (controlledName base n) = some (base, n) := by
  rw [splitControls, toList_controlledName, splitFrom_replicate h]
  congr 2
  omega

theorem controlledName_of_splitControls {name base : String} {k : Nat} (h : splitControls name = some (base, k)) :
    (controlled? base).isSome = true ∧ 0 < k ∧ controlledName base k = name := by
  obtain ⟨hbase, n, hname, rfl⟩ := eq_replicate_of_splitFrom h
  refine ⟨hbase, by omega, ?_⟩
  rw [← String.toList_inj, toList_controlledName, hname]
  congr 2
  omega

def controlledNames : List String :=
  ["cu", "cx", "cy", "cz", "ch", "cs", "ct", "crx", "cry", "crz", "crtheta"]

theorem mem_controlledNames {base : String} : base ∈ controlledNames ↔ (controlled? base).isSome = true := by
  constructor
  · have hall : controlledNames.all (fun base => (controlled? base).isSome) = true := by decide
    exact List.all_eq_true.mp hall base
  · intro h
    obtain ⟨p, hp⟩ := Option.isSome_iff_exists.mp h
    rw [← name_of_controlled? hp]
    cases p <;> decide

/-- The name is that of a controlled gate behind one letter `c` for each further
control, with `k` controls in all. -/
structure Spells (name base : String) (k : Nat) : Prop where
  known : base ∈ controlledNames
  positive : 1 ≤ k
  letters : name = String.ofList (List.replicate (k - 1) 'c') ++ base

theorem splitControls_iff_spells {name base : String} {k : Nat} :
    splitControls name = some (base, k) ↔ Spells name base k := by
  constructor
  · intro h
    obtain ⟨hbase, hk, rfl⟩ := controlledName_of_splitControls h
    exact ⟨mem_controlledNames.mpr hbase, hk, controlledName_eq base k⟩
  · rintro ⟨hbase, hk, rfl⟩
    rw [← controlledName_eq]
    exact splitControls_controlledName (mem_controlledNames.mp hbase) hk

/-- A name is split into a base and a number of controls exactly when it spells
them, and it spells at most one such pair. So splitting and naming undo each
other. -/
theorem splitControls_exact (name base : String) (k : Nat) :
    (splitControls name = some (base, k) ↔ Spells name base k) ∧
      (∀ base' k', Spells name base k → Spells name base' k' → base = base' ∧ k = k') ∧
      (base ∈ controlledNames → 1 ≤ k → splitControls (controlledName base k) = some (base, k)) ∧
      (splitControls name = some (base, k) → controlledName base k = name) := by
  refine ⟨splitControls_iff_spells, fun base' k' h h' => ?_, fun hbase hk => ?_, fun h => ?_⟩
  · rw [← splitControls_iff_spells] at h h'
    simpa [h] using h'
  · exact splitControls_controlledName (mem_controlledNames.mp hbase) hk
  · exact (controlledName_of_splitControls h).2.2

theorem splitControls_exact_cccrz :
    Spells "cccrz" "crz" 3 ∧ splitControls (controlledName "crz" 3) = some ("crz", 3) ∧
      controlledName "crz" 3 = "cccrz" := by
  obtain ⟨hiff, -, hnamed, hname⟩ := splitControls_exact "cccrz" "crz" 3
  have hsplit : splitControls "cccrz" = some ("crz", 3) := by decide
  exact ⟨hiff.mp hsplit, hnamed (by decide) (by decide), hname hsplit⟩

end Sequencer.Gate
