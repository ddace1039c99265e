import Mathlib.Data.List.Basic
import Sequencer.Proofs.Instruction.LaneBuffers

/-!
# Slice buffers hold contents

A slice buffer is filled by groups and batches of measurements. After each of
them it holds the content so far, with the end flag on the measurements as long
as there is no group. Once the timeslice has been flushed, and whatever
measurements come in later, its words are those of the content.
-/

namespace Sequencer

-- ---------------------------------------------------------------------------
-- The end flag of measurements
-- ---------------------------------------------------------------------------

namespace Word

theorem withoutFlag_or_lastFlag {w : Word} (h : w.isLast = false) : (w ||| lastFlag).withoutFlag = w := by
  have hlt : w.toNat < 2 ^ 63 := by
    simp only [isLast, Nat.pow_eq, beq_eq_false_iff_ne] at h
    have := w.toNat_lt
    omega
  have hmask : (UInt64.ofNat (Nat.pow 2 63 - 1)).toNat = 2 ^ 63 - 1 := rfl
  have hflag : lastFlag.toNat = 2 ^ 63 := rfl
  refine UInt64.toNat_inj.mp ?_
  rw [withoutFlag, UInt64.toNat_and, UInt64.toNat_or, hmask, hflag, Nat.and_two_pow_sub_one_eq_mod,
    Nat.or_mod_two_pow, Nat.mod_self, Nat.or_zero, Nat.mod_eq_of_lt hlt]

theorem unflagLast_flagLast {words : List Word} (h : ∀ w ∈ words, w.isLast = false) :
    unflagLast (flagLast words) = words := by
  induction words with
  | nil => rfl
  | cons w rest ih =>
    obtain ⟨hw, hrest⟩ := List.forall_mem_cons.mp h
    cases rest with
    | nil => simp [flagLast, unflagLast, withoutFlag_or_lastFlag hw]
    | cons v rest =>
      have ih := ih hrest
      cases hflagged : flagLast (v :: rest) with
      | nil => simp [hflagged, unflagLast] at ih
      | cons u us =>
        rw [hflagged] at ih
        simp [flagLast, hflagged, unflagLast, ih]

end Word

-- ---------------------------------------------------------------------------
-- The lane that ends a timeslice
-- ---------------------------------------------------------------------------

theorem Lane.mem_all (l : Lane) : l ∈ Lane.all := by cases l <;> decide

theorem Category.mem_lanes {l : Lane} {k : Category} : l ∈ k.lanes ↔ l.category = k := by
  simp [Category.lanes, l.mem_all]

theorem Lane.furthest_mem (position : Lane → Nat) (lanes : List Lane) :
    (Lane.furthest position lanes = none → lanes = []) ∧
      ∀ l, Lane.furthest position lanes = some l → l ∈ lanes := by
  induction lanes using List.reverseRecOn with
  | nil => simp [furthest]
  | append_singleton init l ih =>
    have hstep : furthest position (init ++ [l]) = further position (furthest position init) l := by
      simp [furthest]
    rw [hstep]
    cases hb : furthest position init with
    | none => simp [further]
    | some b =>
      have hmem := ih.2 b hb
      by_cases hle : position b ≤ position l <;> simp [further, hle, hmem]

namespace SliceContent

theorem laneGroups_ne_nil {s : SliceContent} {e : Lane × Group} (h : e ∈ s.groups) :
    s.laneGroups e.1 ≠ [] := by
  have : e.2 ∈ s.laneGroups e.1 := List.mem_filterMap.mpr ⟨e, h, by simp⟩
  exact List.ne_nil_of_mem this

theorem closingLane?_spec (s : SliceContent) (y : Layout) :
    (s.closingLane? y = none → s.groups = []) ∧
      ∀ l, s.closingLane? y = some l → l.category = s.closing ∧ s.laneGroups l ≠ [] := by
  obtain ⟨hnone, hsome⟩ := Lane.furthest_mem (s.lastHeader y)
    (s.closing.lanes.filter fun l => !(s.laneGroups l).isEmpty)
  refine ⟨fun h => ?_, fun l hl => ?_⟩
  · cases he : s.groups.getLast? with
    | none => exact List.getLast?_eq_none_iff.mp he
    | some e =>
      have hmem : e.1 ∈ s.closing.lanes.filter fun l => !(s.laneGroups l).isEmpty := by
        have := laneGroups_ne_nil (List.mem_of_getLast? he)
        simp [Category.mem_lanes, closing, he, this]
      rw [hnone h] at hmem
      cases hmem
  · simpa [Category.mem_lanes] using hsome l hl

def marker? (s : SliceContent) : Option Category :=
  if s.groups.isEmpty && s.measured.isEmpty then none else some s.closing

end SliceContent

-- ---------------------------------------------------------------------------
-- Steps
-- ---------------------------------------------------------------------------

namespace SliceBuffer

@[simp] theorem lane_setLane (s : SliceBuffer) (l k : Lane) (b : LaneBuffer) :
    (s.setLane l b).lane k = if l = k then b else s.lane k := by
  simp only [lane, setLane, Assoc.get?_insert]
  split <;> rfl

structure Marked (content : SliceContent) (s : SliceBuffer) : Prop where
  plain : ∀ w ∈ content.measured, w.isLast = false
  marker : s.marker = content.marker?
  measured : s.measured = if content.groups.isEmpty then Word.flagLast content.measured else content.measured

/-- The buffer of a timeslice that takes groups. -/
structure Holds (y : Layout) (content : SliceContent) (s : SliceBuffer) : Prop extends Marked content s where
  lanes : ∀ l, LaneBuffer.Holds l (y.width l) (content.laneGroups l) (s.lane l)

/-- The buffer of a timeslice that has ended. -/
structure Closed (y : Layout) (content : SliceContent) (s : SliceBuffer) : Prop extends Marked content s where
  lanes : ∀ l, (s.lane l).words =
    if content.closingLane? y = some l then content.flaggedWords y l else content.laneWords y l
  markedLane : ∀ l, content.closingLane? y = some l → s.markedLane = l

section
variable {y : Layout} {content : SliceContent} {s : SliceBuffer} {l : Lane} {g : Group} {words : List Word}

theorem holds_empty (y : Layout) : Holds y {} {} :=
  ⟨⟨by simp, rfl, rfl⟩, fun _ => .empty⟩

theorem closed_empty (y : Layout) : Closed y {} {} :=
  ⟨⟨by simp, rfl, rfl⟩, fun _ => rfl, fun _ h => nomatch h⟩

theorem closing_of_nil (h : content.groups = []) : content.closing = .measurement := by
  simp [SliceContent.closing, h]

theorem closing_ne_measurement (h : content.groups ≠ []) : content.closing ≠ .measurement := by
  rw [SliceContent.closing, List.getLast?_eq_some_getLast h]
  exact Lane.category_ne_measurement _

theorem Marked.all_marker (h : Marked content s) :
    (s.marker.all fun k => k = .measurement) = content.groups.isEmpty := by
  rw [h.marker, SliceContent.marker?]
  by_cases hnil : content.groups = []
  · split <;> simp [hnil, closing_of_nil hnil]
  · simp [hnil, closing_ne_measurement hnil]

theorem Marked.unmarked_eq (h : Marked content s) : s.unmarked = content.measured := by
  rw [unmarked, h.marker, h.measured, SliceContent.marker?]
  by_cases hnil : content.groups = []
  · cases hmeasured : content.measured with
    | nil => simp [hnil, Word.flagLast]
    | cons w rest =>
      have hplain := h.plain
      rw [hmeasured] at hplain
      simp [hnil, closing_of_nil hnil, Word.unflagLast_flagLast hplain]
  · simp [hnil, closing_ne_measurement hnil]

theorem Marked.add (h : Marked content s) (l : Lane) (g : Group) (b : LaneBuffer) :
    Marked { content with groups := content.groups ++ [(l, g)] } ((s.claim l.category).setLane l b) where
  plain := h.plain
  marker := by simp [claim, setLane, SliceContent.marker?, SliceContent.closing]
  measured := by simp [claim, setLane, h.unmarked_eq]

@[simp] theorem lane_addMeasured (s : SliceBuffer) (words : List Word) (l : Lane) :
    (s.addMeasured words).lane l = s.lane l := by
  unfold addMeasured
  split
  · rfl
  · split <;> rfl

@[simp] theorem markedLane_addMeasured (s : SliceBuffer) (words : List Word) :
    (s.addMeasured words).markedLane = s.markedLane := by
  unfold addMeasured
  split
  · rfl
  · split <;> rfl

theorem Marked.addMeasured (h : Marked content s) (hne : words ≠ []) (plain : ∀ w ∈ words, w.isLast = false) :
    Marked { content with measured := content.measured ++ words } (s.addMeasured words) := by
  have hplain : ∀ w ∈ content.measured ++ words, w.isLast = false := List.forall_mem_append.mpr ⟨h.plain, plain⟩
  rw [SliceBuffer.addMeasured, if_neg (by simpa using hne), h.all_marker]
  by_cases hnil : content.groups = []
  · -- nothing but measurements: the flag moves to the new last word
    rw [if_pos (by simp [hnil])]
    exact ⟨hplain, by simp [SliceContent.marker?, SliceContent.closing, hnil, hne], by simp [hnil, h.unmarked_eq]⟩
  · rw [if_neg (by simpa using hnil)]
    refine ⟨hplain, ?_, by simp [hnil, h.measured]⟩
    simp [h.marker, SliceContent.marker?, SliceContent.closing, hnil]

/-- A group is added just when it fits the room for it. -/
theorem Holds.add (h : Holds y content s) (hg : g.Suits l) :
    (Packing.freeFor l.room (y.width l) (content.laneGroups l) < g.width ∧ s.add y l g = .error .outOfRange) ∨
      (g.width ≤ Packing.freeFor l.room (y.width l) (content.laneGroups l) ∧
        ∃ s', s.add y l g = .ok s' ∧ Holds y { content with groups := content.groups ++ [(l, g)] } s') := by
  rcases (h.lanes l).add (y.width_pos l) hg with ⟨hwide, hadd⟩ | ⟨hfits, b, hadd, hb⟩
  · exact .inl ⟨hwide, bind_eq_error.mpr (.inl hadd)⟩
  · refine .inr ⟨hfits, _, bind_eq_ok.mpr ⟨b, hadd, rfl⟩, h.toMarked.add l g b, fun k => ?_⟩
    rw [lane_setLane]
    by_cases hk : l = k
    · subst hk
      simpa [SliceContent.laneGroups] using hb
    · simpa [SliceContent.laneGroups, hk, claim, lane] using h.lanes k

theorem Holds.addMeasured (h : Holds y content s) (hne : words ≠ []) (plain : ∀ w ∈ words, w.isLast = false) :
    Holds y { content with measured := content.measured ++ words } (s.addMeasured words) := by
  refine ⟨h.toMarked.addMeasured hne plain, fun l => ?_⟩
  rw [lane_addMeasured]
  exact h.lanes l

theorem Closed.addMeasured (h : Closed y content s) (hne : words ≠ []) (plain : ∀ w ∈ words, w.isLast = false) :
    Closed y { content with measured := content.measured ++ words } (s.addMeasured words) := by
  refine ⟨h.toMarked.addMeasured hne plain, fun l => ?_, fun l hl => ?_⟩
  · rw [lane_addMeasured]
    exact h.lanes l
  · rw [markedLane_addMeasured]
    exact h.markedLane l hl

-- ---------------------------------------------------------------------------
-- The end of the timeslice
-- ---------------------------------------------------------------------------

theorem lane_foldl_close {lanes : List Lane} (nodup : lanes.Nodup) (s : SliceBuffer) (k : Lane) :
    (lanes.foldl (fun s l => s.setLane l (s.lane l).close) s).lane k =
      if k ∈ lanes then (s.lane k).close else s.lane k := by
  induction lanes generalizing s with
  | nil => rfl
  | cons l rest ih =>
    obtain ⟨hl, hrest⟩ := List.nodup_cons.mp nodup
    rw [List.foldl_cons, ih hrest, lane_setLane]
    by_cases hk : l = k
    · subst hk
      simp [hl]
    · simp [hk, Ne.symm hk]

theorem lane_closeLanes (s : SliceBuffer) (l : Lane) : s.closeLanes.lane l = (s.lane l).close := by
  rw [closeLanes, lane_foldl_close (by decide), if_pos l.mem_all]

theorem foldl_setLane (f : SliceBuffer → Lane → LaneBuffer) (lanes : List Lane) (s : SliceBuffer) :
    (lanes.foldl (fun s l => s.setLane l (f s l)) s).marker = s.marker ∧
      (lanes.foldl (fun s l => s.setLane l (f s l)) s).measured = s.measured := by
  induction lanes generalizing s with
  | nil => exact ⟨rfl, rfl⟩
  | cons l rest ih => exact ih (s.setLane l (f s l))

theorem Marked.closeLanes (h : Marked content s) : Marked content s.closeLanes := by
  obtain ⟨hmarker, hmeasured⟩ := foldl_setLane (fun s l => (s.lane l).close) Lane.all s
  exact ⟨h.plain, hmarker.trans h.marker, hmeasured.trans h.measured⟩

theorem Holds.lane_close (h : Holds y content s) (l : Lane) :
    (s.lane l).close.words = content.laneWords y l ∧ (s.lane l).close.current = content.lastHeader y l ∧
      (content.laneGroups l ≠ [] → (s.lane l).close.flag.words = content.flaggedWords y l ∧
        (s.lane l).close.words ≠ []) := by
  have hlane := h.lanes l
  by_cases hne : content.laneGroups l = []
  · have hpackets : content.packets y l = [] := by rw [SliceContent.packets, hne, Packing.packets]
    rw [hne] at hlane
    generalize s.lane l = b at hlane ⊢
    cases hlane with
    | empty =>
      simp [SliceContent.laneWords, SliceContent.lastHeader, hpackets, hne, LaneBuffer.close, LaneBuffer.closeHeader,
        LaneBuffer.closeHalf]
    | filled packed => simp [Packing.packets] at packed
  · obtain ⟨full, newest, packed, fits, hclose⟩ := hlane.close hne
    have hpackets : content.packets y l = full ++ [newest] := packed
    rw [hclose, LaneBuffer.flag_closed fits]
    simp [SliceContent.laneWords, SliceContent.lastHeader, SliceContent.flaggedWords, hpackets, LaneBuffer.closed,
      packetWords]

theorem Holds.furthest_eq (h : Holds y content s) :
    Lane.furthest (fun l => (s.closeLanes.lane l).current) (s.closeLanes.filled content.closing) =
      content.closingLane? y := by
  have hcurrent : (fun l => (s.closeLanes.lane l).current) = content.lastHeader y :=
    funext fun l => by rw [lane_closeLanes, (h.lane_close l).2.1]
  rw [hcurrent, SliceContent.closingLane?, filled]
  congr 1
  refine List.filter_congr fun l _ => ?_
  obtain ⟨hwords, -, hne⟩ := h.lane_close l
  rw [lane_closeLanes]
  by_cases hgroups : content.laneGroups l = []
  · have hpackets : content.packets y l = [] := by rw [SliceContent.packets, hgroups, Packing.packets]
    simp [hwords, SliceContent.laneWords, hpackets, hgroups]
  · rw [List.isEmpty_eq_false_iff.mpr (hne hgroups).2, List.isEmpty_eq_false_iff.mpr hgroups]

theorem Holds.flush (h : Holds y content s) : Closed y content s.flush := by
  have hmarked := h.toMarked.closeLanes
  have hopen (l : Lane) (hl : content.closingLane? y ≠ some l) : (s.closeLanes.lane l).words =
      if content.closingLane? y = some l then content.flaggedWords y l else content.laneWords y l := by
    rw [if_neg hl, lane_closeLanes, (h.lane_close l).1]
  obtain ⟨hnone, hsome⟩ := content.closingLane?_spec y
  cases hlast : content.closingLane? y with
  | none =>
    -- no lane is flagged: there is nothing but measurements
    have hflush : s.flush = s.closeLanes := by
      have hall := h.all_marker
      rw [hnone hlast] at hall
      rw [SliceBuffer.flush]
      cases hm : s.marker with
      | none => rfl
      | some k =>
        simp only [hm, Option.all_some, List.isEmpty_nil, decide_eq_true_eq] at hall
        simp [hall]
    rw [hflush]
    refine ⟨hmarked, fun l => hopen l (by simp [hlast]), fun l hl => ?_⟩
    rw [hlast] at hl
    cases hl
  | some l =>
    obtain ⟨-, hne⟩ := hsome l hlast
    have hgroups : content.groups ≠ [] := by
      rintro hnil
      simp [SliceContent.laneGroups, hnil] at hne
    have hm : s.marker = some content.closing := by simp [h.marker, SliceContent.marker?, hgroups]
    have hflush : s.flush = { s.closeLanes.setLane l (s.closeLanes.lane l).flag with markedLane := l } := by
      simp only [SliceBuffer.flush, hm, closing_ne_measurement hgroups, if_false, markEnd, h.furthest_eq, hlast]
    rw [hflush]
    refine ⟨⟨hmarked.plain, hmarked.marker, hmarked.measured⟩, fun k => ?_, fun k hk => ?_⟩
    · change ((s.closeLanes.setLane l (s.closeLanes.lane l).flag).lane k).words = _
      rw [lane_setLane]
      by_cases hk : l = k
      · subst hk
        rw [if_pos rfl, if_pos hlast, lane_closeLanes, ((h.lane_close l).2.2 hne).1]
      · rw [if_neg hk]
        exact hopen k (by simpa [hlast] using hk)
    · rw [hlast] at hk
      exact Option.some.inj hk

theorem Closed.words_eq (h : Closed y content s) (hne : content.marker? ≠ none) : s.words = content.words y := by
  have hm : s.marker = some content.closing := by
    rw [h.marker]
    unfold SliceContent.marker? at hne ⊢
    split at hne
    · exact absurd rfl hne
    · rename_i hsome
      rw [if_neg hsome]
  obtain ⟨hnone, hsome⟩ := content.closingLane?_spec y
  have hlanes (lanes : List Lane) (hl : ∀ l ∈ lanes, content.closingLane? y ≠ some l) :
      s.laneWords lanes = lanes.flatMap (content.laneWords y) := by
    refine List.flatMap_congr fun l hmem => ?_
    rw [h.lanes, if_neg (hl l hmem)]
  have hother (k : Category) (hk : k ≠ content.closing) : s.categoryWords k = content.categoryWords y k := by
    rw [categoryWords, SliceContent.categoryWords]
    split
    · rename_i hmeasured
      subst hmeasured
      have hgroups : content.groups ≠ [] := fun hnil => hk (closing_of_nil hnil).symm
      rw [h.measured, if_neg (by simpa using hgroups)]
    · refine hlanes _ fun l hl hlast => hk ?_
      rw [← (hsome l hlast).1, Category.mem_lanes.mp hl]
  have hlast : s.markedWords content.closing = content.closingWords y := by
    rw [markedWords, SliceContent.closingWords]
    cases hlane : content.closingLane? y with
    | none => simp [closing_of_nil (hnone hlane), h.measured, hnone hlane]
    | some l =>
      obtain ⟨hcategory, -⟩ := hsome l hlane
      rw [if_neg (hcategory ▸ l.category_ne_measurement), h.markedLane l hlane, h.lanes, if_pos hlane]
      simp only
      congr 1
      refine hlanes _ fun k hk hcontra => ?_
      rw [hlane] at hcontra
      simp [Option.some.inj hcontra] at hk
  rw [words, hm, SliceContent.words]
  simp only [hlast]
  congr 1
  exact List.flatMap_congr fun k hk => hother k (by simpa using (List.mem_filter.mp hk).2)

end
end SliceBuffer
end Sequencer
