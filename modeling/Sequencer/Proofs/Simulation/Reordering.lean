import Mathlib.Data.List.Perm.Basic
import Sequencer.Proofs.Simulation.Operators
import Sequencer.Simulation.Run

/-!
# Reordered gate applications

Gates on different qubits commute, whatever their matrices are. So a sequence
of applications may be reordered as long as applications that share a qubit
keep their order: run from any state, both orders give the same amplitudes.
-/

namespace Sequencer

namespace Application

def qubits (a : Application) : List Nat := a.target :: a.controls

def Shares (a b : Application) : Prop := ∃ i ∈ a.qubits, i ∈ b.qubits

end Application

/-- The second sequence is a permutation of the first in which applications
that share a qubit keep their order. Equal applications may be repeated, so
each is taken together with its place in the first sequence. -/
def Reordered (before after : List Application) : Prop :=
  ∃ order : List (Application × Nat), order.Perm before.zipIdx ∧ order.map Prod.fst = after ∧
    order.Pairwise fun a b => a.1.Shares b.1 → a.2 < b.2

/-- Sequences are reordered when the applications stem from the same things,
and of two that share a qubit the first one stems from the earlier thing. -/
theorem Reordered.of_perm (time : α → Int) {l l' : List (α × Application)} (hperm : l'.Perm l)
    (hl : l.Pairwise fun x y => time x.1 ≤ time y.1)
    (hl' : l'.Pairwise fun x y => x.2.Shares y.2 → time x.1 < time y.1) :
    Reordered (l.map Prod.snd) (l'.map Prod.snd) := by
  -- number the pairs in the first order, and take the numbers along to the second
  have hnumbered : l'.Perm (l.zipIdx.map Prod.fst) := by rwa [List.zipIdx_map_fst]
  obtain ⟨order, rfl, horder⟩ := (congrFun₂ (List.eq_map_comp_perm Prod.fst) l' l.zipIdx).mpr hnumbered
  have hplace : ∀ x ∈ order, ∀ y ∈ order, time x.1.1 < time y.1.1 → x.2 < y.2 := by
    intro x hx y hy hlt
    obtain ⟨hi, hx⟩ := List.getElem?_eq_some_iff.mp
      (List.mem_zipIdx_iff_getElem?.mp (horder.mem_iff.mp hx))
    obtain ⟨hj, hy⟩ := List.getElem?_eq_some_iff.mp
      (List.mem_zipIdx_iff_getElem?.mp (horder.mem_iff.mp hy))
    refine Nat.lt_of_not_le fun hle => ?_
    rcases Nat.lt_or_eq_of_le hle with hji | hji
    · have := List.pairwise_iff_getElem.mp hl y.2 x.2 hj hi hji
      rw [hx, hy] at this
      omega
    · simp only [hji, hx] at hy
      rw [hy] at hlt
      omega
  refine ⟨order.map (Prod.map Prod.snd id), ?_, ?_, ?_⟩
  · rw [List.zipIdx_map]
    exact horder.map _
  · simp
  · refine List.pairwise_map.mpr ((List.pairwise_map.mp hl').imp_of_mem fun {x y} hx hy hxy hshares => ?_)
    exact hplace x hx y hy (hxy hshares)

-- ---------------------------------------------------------------------------
-- Steps that commute
-- ---------------------------------------------------------------------------

theorem foldl_middle {step : β → α → β} {front rest : List α} {x : α}
    (comm : ∀ a ∈ front, ∀ b, step (step b a) x = step (step b x) a) (b : β) :
    (front ++ x :: rest).foldl step b = (front ++ rest).foldl step (step b x) := by
  induction front generalizing b with
  | nil => rfl
  | cons a front ih =>
    rw [List.cons_append, List.foldl_cons, ih fun a' ha' => comm a' (List.mem_cons_of_mem _ ha'),
      comm a List.mem_cons_self]
    rfl

/-- Numbered steps give the same result in any order that keeps the numbers of
those that depend on each other increasing. -/
theorem foldl_eq_of_perm (step : β → α → β) (depends : α → α → Prop)
    (comm : ∀ {x y}, ¬ depends x y → ∀ b, step (step b x) y = step (step b y) x)
    {l order : List (α × Nat)} (hperm : order.Perm l) (hl : l.Pairwise fun x y => x.2 < y.2)
    (ho : order.Pairwise fun x y => depends x.1 y.1 → x.2 < y.2) (b : β) :
    (order.map Prod.fst).foldl step b = (l.map Prod.fst).foldl step b := by
  induction l generalizing order b with
  | nil => rw [hperm.eq_nil]
  | cons x rest ih =>
    obtain ⟨front, tail, rfl⟩ := List.append_of_mem (hperm.mem_iff.mpr List.mem_cons_self)
    have hrest : (front ++ tail).Perm rest := (List.perm_middle.symm.trans hperm).cons_inv
    obtain ⟨hfirst, hl⟩ := List.pairwise_cons.mp hl
    -- what stands in front of `x` has a larger number, so it does not depend on it
    have hapart : ∀ a ∈ front, ¬ depends a.1 x.1 := by
      intro a ha hdep
      have hlt := (List.pairwise_append.mp ho).2.2 a ha x List.mem_cons_self hdep
      have hgt := hfirst a (hrest.mem_iff.mp (List.mem_append_left _ ha))
      omega
    have ho' := ho.sublist (List.Sublist.append_left (List.sublist_cons_self x tail) front)
    rw [List.map_append, List.map_cons, foldl_middle, ← List.map_append, List.map_cons,
      List.foldl_cons]
    · exact ih hrest hl ho' _
    · intro a ha
      obtain ⟨e, he, rfl⟩ := List.mem_map.mp ha
      exact comm (hapart e he)

-- ---------------------------------------------------------------------------
-- Runs
-- ---------------------------------------------------------------------------

section
variable {R : Type} [CommRing R]

namespace StateVector

theorem size_ground {n : Nat} : (ground n : StateVector R).amplitudes.size = 2 ^ n := by
  simp [ground]

variable (matrix : Primitive → List Float → Matrix2 R)

theorem run_spec {n : Nat} {s : StateVector R} {f : Nat → R} (hsize : s.amplitudes.size = 2 ^ n)
    (hf : ∀ k < 2 ^ n, s.amp k = f k) {applications : List Application}
    (ht : ∀ a ∈ applications, a.target < n) :
    (s.run matrix applications).qubits = s.qubits ∧
      (s.run matrix applications).amplitudes.size = 2 ^ n ∧
      ∀ k < 2 ^ n, (s.run matrix applications).amp k =
        applications.foldl (fun f a => (matrix a.gate a.params).act a.target a.controls f) f k := by
  induction applications generalizing s f with
  | nil => exact ⟨rfl, hsize, hf⟩
  | cons a rest ih =>
    refine ih (s := s.apply (matrix a.gate a.params) a.target a.controls)
      ((s.size_apply ..).trans hsize) (fun k hk => ?_) fun b hb => ht b (List.mem_cons_of_mem _ hb)
    rw [amp_apply (hsize ▸ hk)]
    exact Matrix2.act_congr (ht a List.mem_cons_self) hf hk

theorem run_reordered {n : Nat} {s : StateVector R} (hsize : s.amplitudes.size = 2 ^ n)
    {before after : List Application} (ht : ∀ a ∈ before, a.target < n) (h : Reordered before after) :
    s.run matrix after = s.run matrix before := by
  obtain ⟨order, hperm, rfl, hordered⟩ := h
  have hmem : ∀ a ∈ order.map Prod.fst, a ∈ before := by
    intro a ha
    obtain ⟨e, he, rfl⟩ := List.mem_map.mp ha
    exact List.fst_mem_of_mem_zipIdx (hperm.mem_iff.mp he)
  obtain ⟨hq, hsize', hamp⟩ := run_spec matrix hsize (fun _ _ => rfl) ht
  obtain ⟨hq', hsize'', hamp'⟩ := run_spec matrix hsize (fun _ _ => rfl) fun a ha => ht a (hmem a ha)
  refine eq_of_amp (hq'.trans hq.symm) (hsize''.trans hsize'.symm) fun k hk => ?_
  rw [hsize''] at hk
  rw [hamp k hk, hamp' k hk]
  have hnumbered : before.zipIdx.Pairwise fun x y => x.2 < y.2 :=
    List.pairwise_map.mp (List.zipIdx_map_snd 0 before ▸ List.pairwise_lt_range')
  have hcomm := foldl_eq_of_perm
    (fun (f : Nat → R) a => (matrix a.gate a.params).act a.target a.controls f) Application.Shares
    (fun {a b} hab f => ?_) hperm hnumbered hordered s.amp
  · rw [List.zipIdx_map_fst] at hcomm
    exact congrFun hcomm k
  · refine Matrix2.act_comm _ _ (fun heq => ?_) (fun hb => ?_) (fun ha => ?_) f
    · exact hab ⟨a.target, List.mem_cons_self, heq ▸ List.mem_cons_self⟩
    · exact hab ⟨b.target, List.mem_cons_of_mem _ hb, List.mem_cons_self⟩
    · exact hab ⟨a.target, List.mem_cons_self, List.mem_cons_of_mem _ ha⟩

end StateVector
end

end Sequencer
