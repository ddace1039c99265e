import Mathlib.Data.List.Nodup
import Sequencer.Assoc

/-!
# Association lists by their keys

Inserting keeps the order of the keys: a present key stays where it is and a
new one comes last. A map whose keys are distinct is known by its keys, in
order, and by what is found under them.
-/

namespace Sequencer.Assoc
variable {κ α : Type} [DecidableEq κ]

theorem find_eq_none {key : κ} {l : List (κ × α)} : find key l = none ↔ key ∉ l.map Prod.fst := by
  induction l with
  | nil => simp [find]
  | cons e rest ih =>
    obtain ⟨k, a⟩ := e
    by_cases hk : k = key
    · simp [find, hk]
    · simp [find, hk, Ne.symm hk, ih]

theorem isSome_get? {m : Assoc κ α} {key : κ} : (m.get? key).isSome ↔ key ∈ m.keys := by
  rw [get?, ← not_iff_not, Option.not_isSome_iff_eq_none, find_eq_none, keys]

theorem mem_iff_find {l : List (κ × α)} (hl : (l.map Prod.fst).Nodup) {key : κ} {a : α} :
    (key, a) ∈ l ↔ find key l = some a := by
  induction l with
  | nil => simp [find]
  | cons e rest ih =>
    obtain ⟨k, b⟩ := e
    obtain ⟨hk, hrest⟩ := List.nodup_cons.mp hl
    rw [List.mem_cons, find]
    by_cases heq : k = key
    · subst heq
      have hout : (k, a) ∉ rest := fun h => hk (List.mem_map.mpr ⟨(k, a), h, rfl⟩)
      simp [hout, eq_comm]
    · simp [heq, Ne.symm heq, ih hrest]

theorem get?_eq_some {m : Assoc κ α} (hm : m.keys.Nodup) {key : κ} {a : α} :
    m.get? key = some a ↔ (key, a) ∈ m.entries :=
  (mem_iff_find hm).symm

theorem ext_keys {m m' : Assoc κ α} (hk : m.keys = m'.keys) (hm : m.keys.Nodup)
    (hget : ∀ key ∈ m.keys, m.get? key = m'.get? key) : m = m' := by
  suffices ∀ l l' : List (κ × α), l.map Prod.fst = l'.map Prod.fst → (l.map Prod.fst).Nodup →
      (∀ key ∈ l.map Prod.fst, find key l = find key l') → l = l' from
    congrArg Assoc.mk (this m.entries m'.entries hk hm hget)
  intro l
  induction l with
  | nil =>
    intro l' hk _ _
    exact (List.map_eq_nil_iff.mp hk.symm).symm
  | cons e rest ih =>
    intro l' hk hnodup hget
    obtain ⟨k, a⟩ := e
    cases l' with
    | nil => simp at hk
    | cons e' rest' =>
      obtain ⟨k', a'⟩ := e'
      obtain ⟨rfl, hkeys⟩ := List.cons.inj hk
      obtain ⟨hout, hrest⟩ := List.nodup_cons.mp hnodup
      have ha : a = a' := by simpa [find] using hget k (by simp)
      rw [ha, ih rest' hkeys hrest]
      intro key hkey
      have hne : k ≠ key := by
        rintro rfl
        exact hout hkey
      simpa [find, hne] using hget key (List.mem_cons_of_mem _ hkey)

theorem put_of_notMem {key : κ} {value : α} {l : List (κ × α)} (h : key ∉ l.map Prod.fst) :
    put key value l = l ++ [(key, value)] := by
  induction l with
  | nil => rfl
  | cons e rest ih =>
    obtain ⟨k, a⟩ := e
    simp only [List.map_cons, List.mem_cons, not_or] at h
    simp [put, Ne.symm h.1, ih h.2]

theorem keys_put_of_mem {key : κ} {value : α} {l : List (κ × α)} (h : key ∈ l.map Prod.fst) :
    (put key value l).map Prod.fst = l.map Prod.fst := by
  induction l with
  | nil => cases h
  | cons e rest ih =>
    obtain ⟨k, a⟩ := e
    by_cases hk : k = key
    · simp [put, hk]
    · simp only [List.map_cons, List.mem_cons, Ne.symm hk, false_or] at h
      simp [put, hk, ih h]

theorem insert_of_notMem {m : Assoc κ α} {key : κ} (value : α) (h : key ∉ m.keys) :
    m.insert key value = ⟨m.entries ++ [(key, value)]⟩ :=
  congrArg Assoc.mk (put_of_notMem h)

theorem keys_insert_of_mem {m : Assoc κ α} {key : κ} (value : α) (h : key ∈ m.keys) :
    (m.insert key value).keys = m.keys :=
  keys_put_of_mem h

theorem nodup_insert {m : Assoc κ α} (h : m.keys.Nodup) (key : κ) (value : α) :
    (m.insert key value).keys.Nodup := by
  by_cases hkey : key ∈ m.keys
  · rw [keys_insert_of_mem value hkey]
    exact h
  · have hconcat := h.concat hkey
    rw [List.concat_eq_append] at hconcat
    rw [insert_of_notMem value hkey, keys, List.map_append]
    exact hconcat

theorem foldl_insert_of_disjoint {m : Assoc κ α} {l : List (κ × α)}
    (h : (m.keys ++ l.map Prod.fst).Nodup) :
    l.foldl (fun acc e => acc.insert e.1 e.2) m = ⟨m.entries ++ l⟩ := by
  induction l generalizing m with
  | nil => simp
  | cons e rest ih =>
    obtain ⟨key, value⟩ := e
    have hnew : key ∉ m.keys := by
      rintro hmem
      exact (List.nodup_append.mp h).2.2 key hmem key (by simp) rfl
    rw [List.foldl_cons, insert_of_notMem value hnew, ih]
    · simp
    · simpa [keys] using h

theorem ofList_eq {l : List (κ × α)} (h : (l.map Prod.fst).Nodup) : ofList l = ⟨l⟩ :=
  foldl_insert_of_disjoint (m := empty) h

theorem isSome_get?_foldl_insert {m : Assoc κ α} {l : List (κ × α)} {key : κ} :
    ((l.foldl (fun acc e => acc.insert e.1 e.2) m).get? key).isSome ↔ key ∈ l.map Prod.fst ∨ (m.get? key).isSome := by
  induction l generalizing m with
  | nil => simp
  | cons e rest ih =>
    rw [List.foldl_cons, ih, get?_insert, List.map_cons, List.mem_cons]
    by_cases he : e.1 = key
    · simp [he]
    · simp [he, Ne.symm he]

theorem isSome_get?_ofList {l : List (κ × α)} {key : κ} : ((ofList l).get? key).isSome ↔ key ∈ l.map Prod.fst := by
  rw [ofList, isSome_get?_foldl_insert]
  simp

theorem keys_foldl_insert {m : Assoc κ α} {l : List (κ × α)} (hl : ∀ e ∈ l, e.1 ∈ m.keys) :
    (l.foldl (fun acc e => acc.insert e.1 e.2) m).keys = m.keys := by
  induction l generalizing m with
  | nil => rfl
  | cons e rest ih =>
    obtain ⟨he, hrest⟩ := List.forall_mem_cons.mp hl
    have hkeys := keys_insert_of_mem e.2 he
    rw [List.foldl_cons, ih (hkeys ▸ hrest), hkeys]

theorem get?_foldl_insert_of_nodup {m : Assoc κ α} {l : List (κ × α)} (h : (l.map Prod.fst).Nodup)
    (key : κ) :
    (l.foldl (fun acc e => acc.insert e.1 e.2) m).get? key = (find key l).or (m.get? key) := by
  induction l generalizing m with
  | nil => rfl
  | cons e rest ih =>
    obtain ⟨k, a⟩ := e
    obtain ⟨hk, hrest⟩ := List.nodup_cons.mp h
    rw [List.foldl_cons, ih hrest, get?_insert, find]
    by_cases heq : k = key
    · subst heq
      simp [find_eq_none.mpr hk]
    · simp [heq]

/-- A map laid over one with the same keys takes its place. -/
theorem union_eq {m m' : Assoc κ α} (hm : m.keys.Nodup) (hperm : m'.keys.Perm m.keys)
    {target : Assoc κ α} (hkeys : target.keys = m.keys) (hget : ∀ key, m'.get? key = target.get? key) :
    m.union m' = target := by
  have hmem : ∀ e ∈ m'.entries, e.1 ∈ m.keys := fun e he =>
    hperm.mem_iff.mp (List.mem_map_of_mem he)
  have hu : (m.union m').keys = m.keys := keys_foldl_insert hmem
  refine ext_keys (hu.trans hkeys.symm) (hu.symm ▸ hm) ?_
  intro key hkey
  have hsome : (m'.get? key).isSome := isSome_get?.mpr (hperm.mem_iff.mpr (hu ▸ hkey))
  rw [union, get?_foldl_insert_of_nodup (hperm.nodup_iff.mpr hm), ← hget]
  obtain ⟨a, ha⟩ := Option.isSome_iff_exists.mp hsome
  have hfind : find key m'.entries = some a := ha
  simp [hfind, ha]

end Sequencer.Assoc
