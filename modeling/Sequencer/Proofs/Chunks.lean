/-!
# Chunks

A list cut into pieces of one length, the last piece possibly shorter. Both
the groups of a lane and the fields of a batch of measurements fill words this
way.
-/

namespace Sequencer

def chunks (k : Nat) (l : List α) : List (List α) :=
  if k = 0 ∨ l = [] then [] else l.take k :: chunks k (l.drop k)
termination_by l.length
decreasing_by
  have : 0 < l.length := List.length_pos_iff.mpr (by simp_all)
  simp only [List.length_drop]
  omega

@[simp] theorem chunks_nil (k : Nat) : chunks k ([] : List α) = [] := by
  rw [chunks]
  simp

theorem chunks_eq_cons {k : Nat} {l : List α} (hk : 0 < k) (hl : l ≠ []) :
    chunks k l = l.take k :: chunks k (l.drop k) := by
  rw [chunks, if_neg]
  simp [hl, Nat.ne_of_gt hk]

theorem chunks_of_length_le {k : Nat} {l : List α} (hl : l ≠ []) (h : l.length ≤ k) :
    chunks k l = [l] := by
  have hk : 0 < k := Nat.lt_of_lt_of_le (List.length_pos_iff.mpr hl) h
  rw [chunks_eq_cons hk hl, List.take_of_length_le h, List.drop_of_length_le h, chunks_nil]

theorem chunks_append {k : Nat} {a : List α} (hk : 0 < k) (ha : a.length = k) (b : List α) :
    chunks k (a ++ b) = a :: chunks k b := by
  have hne : a ++ b ≠ [] := by
    have : a ≠ [] := List.length_pos_iff.mp (ha ▸ hk)
    simp [this]
  rw [chunks_eq_cons hk hne, List.take_left' ha, List.drop_left' ha]

/-- Pieces of full length followed by a last one are the chunks of what they hold. -/
theorem chunks_flatten_append {k : Nat} {full : List (List α)} {last : List α}
    (hfull : ∀ piece ∈ full, piece.length = k) (hne : last ≠ []) (hlast : last.length ≤ k) :
    chunks k (full.flatten ++ last) = full ++ [last] := by
  have hk : 0 < k := Nat.lt_of_lt_of_le (List.length_pos_iff.mpr hne) hlast
  induction full with
  | nil => simpa using chunks_of_length_le hne hlast
  | cons piece full ih =>
    rw [List.flatten_cons, List.append_assoc, chunks_append hk (hfull piece List.mem_cons_self),
      ih fun p hp => hfull p (List.mem_cons_of_mem _ hp), List.cons_append]

section
variable {k : Nat} {l : List α}

theorem flatten_chunks (hk : 0 < k) : (chunks k l).flatten = l := by
  fun_induction chunks k l with
  | case1 l h =>
    rcases h with h | h
    · omega
    · simp [h]
  | case2 l h ih => simp [ih]

theorem ne_nil_of_mem_chunks {piece : List α} (h : piece ∈ chunks k l) : piece ≠ [] := by
  fun_induction chunks k l with
  | case1 l hl => simp at h
  | case2 l hl ih =>
    rcases List.mem_cons.mp h with rfl | h
    · simpa [not_or] using hl
    · exact ih h

theorem length_le_of_mem_chunks {piece : List α} (h : piece ∈ chunks k l) : piece.length ≤ k := by
  fun_induction chunks k l with
  | case1 l hl => simp at h
  | case2 l hl ih =>
    rcases List.mem_cons.mp h with rfl | h
    · exact List.length_take_le k l
    · exact ih h

theorem mem_of_mem_chunks {piece : List α} {a : α} (h : piece ∈ chunks k l) (ha : a ∈ piece) : a ∈ l := by
  fun_induction chunks k l with
  | case1 l hl => simp at h
  | case2 l hl ih =>
    rcases List.mem_cons.mp h with rfl | h
    · exact List.mem_of_mem_take ha
    · exact List.mem_of_mem_drop (ih h)

theorem chunks_eq_nil (hk : 0 < k) : chunks k l = [] ↔ l = [] := by
  refine ⟨fun h => ?_, fun h => by simp [h]⟩
  rw [← flatten_chunks hk (l := l), h, List.flatten_nil]

theorem chunks_map (f : α → β) : chunks k (l.map f) = (chunks k l).map (List.map f) := by
  fun_induction chunks k l with
  | case1 l h =>
    rw [chunks, if_pos (by simpa using h), List.map_nil]
  | case2 l h ih =>
    rw [not_or] at h
    rw [chunks_eq_cons (Nat.pos_of_ne_zero h.1) (by simpa using h.2), ← List.map_drop, ih,
      ← List.map_take, List.map_cons]

end

end Sequencer
