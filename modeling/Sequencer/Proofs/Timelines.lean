import Mathlib.Data.List.Forall2
import Mathlib.Data.List.Nodup
import Sequencer.Timeline

/-!
# Timelines by their entries

The order of a timeline makes its entries a matter of lookup: it lists the
occupied timeslices in increasing order, each with what is found there.
-/

namespace Sequencer.Timeline
variable {α β : Type}

theorem mem_iff_find {l : List (Int × α)} (hl : l.Pairwise fun a b => a.1 < b.1) {t : Int} {a : α} :
    (t, a) ∈ l ↔ find t l = some a := by
  induction l with
  | nil => simp [find]
  | cons e rest ih =>
    obtain ⟨s, b⟩ := e
    obtain ⟨hs, hr⟩ := List.pairwise_cons.mp hl
    rw [List.mem_cons, find]
    by_cases hst : s = t
    · subst hst
      have hout : (s, a) ∉ rest := fun h => Int.lt_irrefl s (hs (s, a) h)
      simp [hout, eq_comm]
    · simp [hst, Ne.symm hst, ih hr]

theorem ext_get? {a b : Timeline α} (h : ∀ t, a.get? t = b.get? t) : a = b := by
  have hne (line : Timeline α) : line.entries.Nodup := by
    refine line.ordered.imp fun {x y} hxy heq => ?_
    rw [heq] at hxy
    exact Int.lt_irrefl _ hxy
  have hmem (e : Int × α) : e ∈ a.entries ↔ e ∈ b.entries := by
    obtain ⟨t, x⟩ := e
    have := h t
    simp only [get?] at this
    rw [mem_iff_find a.ordered, mem_iff_find b.ordered, this]
  have hentries : a.entries = b.entries := by
    refine ((List.perm_ext_iff_of_nodup (hne a) (hne b)).mpr hmem).eq_of_pairwise ?_ a.ordered b.ordered
    intro x y _ _ hxy hyx
    exact absurd (Int.lt_trans hxy hyx) (Int.lt_irrefl _)
  cases a
  cases b
  cases hentries
  rfl

theorem nodup_slices (line : Timeline α) : (line.entries.map Prod.fst).Nodup :=
  List.pairwise_map.mpr (line.ordered.imp fun h => Int.ne_of_lt h)

theorem get?_foldl_insert {l : List (Int × α)} (hl : (l.map Prod.fst).Nodup) (line : Timeline α)
    (t : Int) (a : α) :
    (l.foldl (fun line e => line.insert e.1 e.2) line).get? t = some a ↔
      (t, a) ∈ l ∨ t ∉ l.map Prod.fst ∧ line.get? t = some a := by
  induction l generalizing line with
  | nil => simp
  | cons e rest ih =>
    obtain ⟨s, b⟩ := e
    obtain ⟨hs, hrest⟩ := List.nodup_cons.mp hl
    rw [List.foldl_cons, ih hrest, get?_insert]
    by_cases hst : s = t
    · subst hst
      have hout : (s, a) ∉ rest := fun h => hs (List.mem_map.mpr ⟨(s, a), h, rfl⟩)
      have hs' : s ∉ rest.map Prod.fst := hs
      simp [hout, hs', eq_comm]
    · simp [hst, Ne.symm hst]

theorem entries_eq {line : Timeline α} {slices : List Int} {f : Int → α}
    (hs : slices.Pairwise (· < ·))
    (h : ∀ t a, line.get? t = some a ↔ t ∈ slices ∧ a = f t) :
    line.entries = slices.map fun t => (t, f t) := by
  have hmap : (slices.map fun t => (t, f t)).Pairwise fun a b => a.1 < b.1 :=
    List.pairwise_map.mpr hs
  refine congrArg entries (ext_get? (b := ⟨_, hmap⟩) fun t => Option.ext fun a => ?_)
  rw [h, get?, ← mem_iff_find hmap]
  simp only [List.mem_map, Prod.mk.injEq]
  constructor
  · rintro ⟨ht, rfl⟩
    exact ⟨t, ht, rfl, rfl⟩
  · rintro ⟨s, hs, rfl, rfl⟩
    exact ⟨hs, rfl⟩

/-- Timelines that hold related entries, at timeslices in the same order, agree
entry by entry. -/
theorem forall₂_entries {a : Timeline α} {b : Timeline β} {slot : Int → Int} {R : α → β → Prop}
    (kept : ∀ {t x}, a.get? t = some x → ∃ y, b.get? (slot t) = some y ∧ R x y)
    (only : ∀ {s y}, b.get? s = some y → ∃ t x, a.get? t = some x ∧ slot t = s)
    (ordered : ∀ {s t x y}, a.get? s = some x → a.get? t = some y → s < t → slot s < slot t) :
    List.Forall₂ (fun e f => f.1 = slot e.1 ∧ R e.2 f.2) a.entries b.entries := by
  have hmem {γ : Type} (line : Timeline γ) (e : Int × γ) : e ∈ line.entries ↔ line.get? e.1 = some e.2 :=
    mem_iff_find line.ordered
  have hslots : (a.entries.map fun e => slot e.1).Pairwise (· < ·) := by
    refine List.pairwise_map.mpr (a.ordered.imp_of_mem fun {e f} he hf hlt => ?_)
    exact ordered ((hmem a e).mp he) ((hmem a f).mp hf) hlt
  have hslices : (b.entries.map Prod.fst).Pairwise (· < ·) := List.pairwise_map.mpr b.ordered
  have heq : a.entries.map (fun e => slot e.1) = b.entries.map Prod.fst := by
    have hperm : (a.entries.map fun e => slot e.1).Perm (b.entries.map Prod.fst) := by
      refine (List.perm_ext_iff_of_nodup (hslots.imp Int.ne_of_lt) (hslices.imp Int.ne_of_lt)).mpr fun s => ?_
      simp only [List.mem_map, Prod.exists, exists_and_right, exists_eq_right, hmem]
      constructor
      · rintro ⟨t, ⟨x, hx⟩, rfl⟩
        obtain ⟨y, hy, -⟩ := kept hx
        exact ⟨y, hy⟩
      · rintro ⟨y, hy⟩
        obtain ⟨t, x, hx, hs⟩ := only hy
        exact ⟨t, ⟨x, hx⟩, hs⟩
    refine hperm.eq_of_pairwise (fun x y _ _ hxy hyx => ?_) hslots hslices
    exact absurd (Int.lt_trans hxy hyx) (Int.lt_irrefl _)
  rw [← List.forall₂_eq_eq_eq, List.forall₂_map_left_iff, List.forall₂_map_right_iff, List.forall₂_iff_zip] at heq
  refine List.forall₂_iff_zip.mpr ⟨heq.1, fun {e f} hef => ?_⟩
  obtain ⟨he, hf⟩ := List.of_mem_zip hef
  have hslot : slot e.1 = f.1 := heq.2 hef
  obtain ⟨y, hy, hR⟩ := kept ((hmem a e).mp he)
  rw [hslot, (hmem b f).mp hf] at hy
  exact ⟨hslot.symm, Option.some.inj hy ▸ hR⟩

end Sequencer.Timeline
