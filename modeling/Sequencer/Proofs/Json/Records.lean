import Sequencer.Json.Fields
import Sequencer.Proofs.Associations

/-!
# Reading lists, maps and records

A list is read item by item, a map entry by entry, and a record member by
member. What was written from a value is read as that value, whatever the
reader had before: later readers need to know this of the parts only.
-/

namespace Sequencer.Json

variable {α β : Type}

/-- The reader finds the value in the JSON value, whatever was read before. -/
def Finds (read : Over α) (j : Json) (a : α) : Prop := ∀ old, read old j = some a

theorem finds_string (s : String) : Finds overString (.string s) s := fun _ => rfl

theorem finds_bool (b : Bool) : Finds overBool (.bool b) b := fun _ => rfl

-- ---------------------------------------------------------------------------
-- Lists and maps
-- ---------------------------------------------------------------------------

theorem overItems_map {zero : α} {item : Over α} {write : α → Json} {l : List α}
    (h : ∀ a ∈ l, Finds item (write a) a) (earlier : List α) :
    overItems zero item earlier (l.map write) = some l := by
  induction l generalizing earlier with
  | nil => rfl
  | cons a rest ih =>
    obtain ⟨ha, hrest⟩ := List.forall_mem_cons.mp h
    simp only [List.map_cons, overItems, ha (earlier.headD zero), ih hrest]
    rfl

theorem overList_map {zero : α} {item : Over α} {write : α → Json} {l : List α}
    (h : ∀ a ∈ l, Finds item (write a) a) :
    overList zero item {} (.array (l.map write)) = some ⟨l, []⟩ := by
  cases l with
  | nil => rfl
  | cons a rest =>
    have hitems : overItems zero item [] (write a :: rest.map write) = some (a :: rest) := overItems_map h []
    simp [overList, hitems]

theorem overEntries_map {zero : α} {value : Over α} (write : β → Json) (found : β → α)
    {l : List (String × β)} {m : Assoc String α} (h : ∀ e ∈ l, value zero (write e.2) = some (found e.2))
    (distinct : (m.keys ++ l.map Prod.fst).Nodup) :
    overEntries zero value m (l.map fun e => (e.1, write e.2)) =
      some ⟨m.entries ++ l.map fun e => (e.1, found e.2)⟩ := by
  induction l generalizing m with
  | nil => simp [overEntries]
  | cons e rest ih =>
    obtain ⟨key, b⟩ := e
    obtain ⟨hb, hrest⟩ := List.forall_mem_cons.mp h
    have hnew : key ∉ m.keys := by
      intro hmem
      exact (List.nodup_append.mp distinct).2.2 key hmem key (by simp) rfl
    have hnext : overEntries zero value (m.insert key (found b)) (rest.map fun e => (e.1, write e.2)) =
        some ⟨m.entries ++ (key, found b) :: rest.map fun e => (e.1, found e.2)⟩ := by
      rw [Assoc.insert_of_notMem _ hnew, ih hrest (by simpa [Assoc.keys] using distinct)]
      simp
    simpa [overEntries, hb] using hnext

theorem overMap_map {zero : α} {value : Over α} (write : β → Json) (found : β → α)
    {l : List (String × β)} (h : ∀ e ∈ l, value zero (write e.2) = some (found e.2))
    (distinct : (l.map Prod.fst).Nodup) :
    overMap zero value {} (.object (l.map fun e => (e.1, write e.2))) =
      some ⟨l.map fun e => (e.1, found e.2)⟩ :=
  overEntries_map write found h distinct

theorem nodup_overEntries {zero : α} {value : Over α} {m m' : Assoc String α}
    {members : List (String × Json)} (h : m.keys.Nodup) (hm : overEntries zero value m members = some m') :
    m'.keys.Nodup := by
  induction members generalizing m with
  | nil => exact Option.some.inj hm ▸ h
  | cons e rest ih =>
    obtain ⟨a, -, hrest⟩ := Option.bind_eq_some_iff.mp hm
    exact ih (Assoc.nodup_insert h _ _) hrest

theorem nodup_overMap {zero : α} {value : Over α} {m m' : Assoc String α} {j : Json}
    (h : m.keys.Nodup) (hm : overMap zero value m j = some m') : m'.keys.Nodup := by
  cases j with
  | null => exact Option.some.inj hm ▸ List.nodup_nil
  | object members => exact nodup_overEntries h hm
  | _ => cases hm

-- ---------------------------------------------------------------------------
-- Records
-- ---------------------------------------------------------------------------

theorem overMembers_nil (fields : List (RecordField α)) (a : α) : overMembers fields a [] = some a := rfl

theorem overMembers_append (fields : List (RecordField α)) (a : α) (first rest : List (String × Json)) :
    overMembers fields a (first ++ rest) =
      (overMembers fields a first).bind fun a => overMembers fields a rest := by
  induction first generalizing a with
  | nil => rfl
  | cons e more ih =>
    obtain ⟨name, j⟩ := e
    simp only [List.cons_append, overMembers]
    cases fieldFor? fields name with
    | none => exact ih a
    | some f =>
      cases hf : f.read a j with
      | none => simp [hf]
      | some a' => simp [hf, ih]

theorem overMembers_field {fields : List (RecordField α)} {name : String} {get : α → β} {set : β → α → α}
    {read : Over β} {j : Json} {b : β} {a : α} (rest : List (String × Json))
    (hfield : fieldFor? fields name = some (field name get set read)) (hread : read (get a) j = some b) :
    overMembers fields a ((name, j) :: rest) = overMembers fields (set b a) rest := by
  simp [overMembers, hfield, field, hread]

section
variable {fields : List (RecordField α)} {P : α → Prop}
variable (step : ∀ f ∈ fields, ∀ a j a', P a → f.read a j = some a' → P a') {a a' : α} (h : P a)
include step h

theorem overMembers_keeps {members : List (String × Json)} (ha : overMembers fields a members = some a') : P a' := by
  induction members generalizing a with
  | nil => exact Option.some.inj ha ▸ h
  | cons e rest ih =>
    simp only [overMembers] at ha
    split at ha
    · exact ih h ha
    · rename_i f hf
      obtain ⟨b, hb, hrest⟩ := Option.bind_eq_some_iff.mp ha
      refine ih (step f ?_ a _ b h hb) hrest
      rcases Option.or_eq_some_iff.mp hf with hf | ⟨-, hf⟩
      · exact List.mem_of_find?_eq_some hf
      · exact List.mem_of_find?_eq_some hf

theorem overRecord_keeps {j : Json} (ha : overRecord fields a j = some a') : P a' := by
  cases j with
  | null => exact Option.some.inj ha ▸ h
  | object members => exact overMembers_keeps step h ha
  | _ => cases ha

end

end Sequencer.Json
