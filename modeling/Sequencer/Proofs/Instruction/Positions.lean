import Mathlib.Data.List.Pairwise
import Sequencer.Proofs.Instruction.Packets

/-!
# Where visits stand in a program

A visit that is measured or has a group is carried in one stream of one
timeslice, by one packet. The word that holds it is the header word of that
packet, so words follow each other as the streams of the program do.
-/

namespace Sequencer

-- ---------------------------------------------------------------------------
-- Streams of a program
-- ---------------------------------------------------------------------------

namespace Circuit
variable (c : Circuit)

def places : List (Int × Stream) :=
  c.writtenSlices.flatMap fun t =>
    (Stream.order ((c.contentAt t).closingLane? c.layout)).map fun s => (t, s)

/-- The visit is carried in a stream of a timeslice: a measurement at the last
timeslice of its batch, a group in its own one. -/
def Carried (v : Visit) (t : Int) : Stream → Prop
  | none => ∃ batch ∈ c.batches, v ∈ batch ∧ Batches.slice batch = t
  | some l => v ∈ c.visits ∧ v.1 = t ∧ c.written? v = some (l, c.group v)

variable {c}

theorem written?_of_isMeasured {v : Visit} (h : v.isMeasured = true) : c.written? v = none := by
  simp only [Visit.isMeasured, Bool.and_eq_true] at h
  simp [written?, h.1]

theorem mem_streamVisits {v : Visit} {t : Int} {s : Stream} : v ∈ c.streamVisits t s ↔ c.Carried v t s := by
  cases s with
  | none =>
    simp only [streamVisits, Carried, List.mem_flatten, List.mem_filter, decide_eq_true_eq]
    constructor
    · rintro ⟨batch, ⟨hbatch, ht⟩, hv⟩
      exact ⟨batch, hbatch, hv, ht⟩
    · rintro ⟨batch, hbatch, hv, ht⟩
      exact ⟨batch, ⟨hbatch, ht⟩, hv⟩
  | some l => exact mem_laneVisits

theorem mem_places {t : Int} {s : Stream} : (t, s) ∈ c.places ↔ t ∈ c.writtenSlices := by
  simp only [places, List.mem_flatMap, List.mem_map, Prod.mk.injEq]
  constructor
  · rintro ⟨_, ht, _, -, rfl, -⟩
    exact ht
  · intro ht
    exact ⟨t, ht, s, Stream.mem_order _ s, rfl, rfl⟩

theorem nodup_order (last : Stream) : (Stream.order last).Nodup :=
  (Stream.order_perm last).nodup_iff.mpr (by decide)

theorem writtenSlices_ordered : c.writtenSlices.Pairwise (· < ·) := c.slices_ordered.filter _

theorem nodup_places : c.places.Nodup := by
  refine List.nodup_flatMap.mpr ⟨fun t _ => (nodup_order _).map fun a b h => (Prod.mk.inj h).2, ?_⟩
  refine c.writtenSlices_ordered.imp fun {s t} hst x hx hy => ?_
  obtain ⟨_, -, rfl⟩ := List.mem_map.mp hx
  obtain ⟨_, -, h⟩ := List.mem_map.mp hy
  exact absurd (Prod.mk.inj h).1 (Int.ne_of_gt hst)

theorem places_of_slice_lt {s t : Int} (a b : Stream) (hs : s ∈ c.writtenSlices)
    (ht : t ∈ c.writtenSlices) (hst : s < t) : [(s, a), (t, b)].Sublist c.places := by
  obtain ⟨earlier, later, hsplit⟩ := List.append_of_mem ht
  have hordered := c.writtenSlices_ordered
  rw [hsplit] at hs hordered
  have hmem : s ∈ earlier := by
    rcases List.mem_append.mp hs with hs | hs
    · exact hs
    · rcases List.mem_cons.mp hs with rfl | hs
      · exact absurd hst (Int.lt_irrefl _)
      · have := (List.pairwise_cons.mp (List.pairwise_append.mp hordered).2.1).1 s hs
        omega
  have hplaces (u : Int) (r : Stream) :
      (u, r) ∈ (Stream.order ((c.contentAt u).closingLane? c.layout)).map fun s => (u, s) :=
    List.mem_map_of_mem (Stream.mem_order _ r)
  rw [places, hsplit, List.flatMap_append]
  refine List.cons_sublist_iff.mpr ⟨_, _, rfl, List.mem_flatMap.mpr ⟨s, hmem, hplaces s a⟩, ?_⟩
  exact List.singleton_sublist.mpr (List.mem_flatMap.mpr ⟨t, List.mem_cons_self, hplaces t b⟩)

theorem places_of_order {t : Int} {a b : Stream} (ht : t ∈ c.writtenSlices)
    (h : [a, b].Sublist (Stream.order ((c.contentAt t).closingLane? c.layout))) :
    [(t, a), (t, b)].Sublist c.places := by
  refine (h.map fun s => (t, s)).trans ?_
  rw [places, List.flatMap_def]
  exact List.sublist_flatten_of_mem (List.mem_map_of_mem ht)

namespace WellFormed
variable (wf : c.WellFormed)
include wf

theorem nodup_flatten_batches : c.batches.flatten.Nodup := by
  rw [flatten_batches]
  exact wf.nodup_visits.filter _

theorem batch_unique {a b : List Visit} {v : Visit} (ha : a ∈ c.batches) (hb : b ∈ c.batches)
    (hva : v ∈ a) (hvb : v ∈ b) : a = b := by
  by_contra hne
  have hdisjoint := (List.nodup_flatten.mp wf.nodup_flatten_batches).2
  have : Std.Symm fun x y : List Visit => x.Disjoint y := ⟨fun _ _ h _ hy hx => h hx hy⟩
  exact hdisjoint.forall ha hb hne hva hvb

theorem carried_unique {v : Visit} {s t : Int} {a b : Stream} (ha : c.Carried v s a)
    (hb : c.Carried v t b) : s = t ∧ a = b := by
  have hapart {s t : Int} {l : Lane} (hnone : c.Carried v s none) (hsome : c.Carried v t (some l)) :
      False := by
    obtain ⟨batch, hbatch, hv, -⟩ := hnone
    have := written?_of_isMeasured (c := c) (mem_of_mem_batches hbatch hv).2
    rw [hsome.2.2] at this
    cases this
  cases a with
  | none =>
    cases b with
    | none =>
      obtain ⟨x, hx, hvx, rfl⟩ := ha
      obtain ⟨y, hy, hvy, rfl⟩ := hb
      exact ⟨congrArg _ (wf.batch_unique hx hy hvx hvy), rfl⟩
    | some l => exact (hapart ha hb).elim
  | some l =>
    cases b with
    | none => exact (hapart hb ha).elim
    | some k =>
      obtain ⟨-, rfl, hl⟩ := ha
      obtain ⟨-, rfl, hk⟩ := hb
      rw [hl] at hk
      exact ⟨rfl, congrArg some (Prod.mk.inj (Option.some.inj hk)).1⟩

theorem nodup_streamVisits (t : Int) (s : Stream) : (c.streamVisits t s).Nodup := by
  cases s with
  | none =>
    obtain ⟨hbatch, hdisjoint⟩ := List.nodup_flatten.mp wf.nodup_flatten_batches
    exact List.nodup_flatten.mpr ⟨fun b hb => hbatch b (List.mem_filter.mp hb).1, hdisjoint.filter _⟩
  | some l => exact wf.nodup_visits.filter _

theorem nodup_carried : (c.places.flatMap fun x => c.streamVisits x.1 x.2).Nodup := by
  refine List.nodup_flatMap.mpr ⟨fun x _ => wf.nodup_streamVisits x.1 x.2, ?_⟩
  refine nodup_places.imp fun {x y} hxy v hx hy => hxy ?_
  obtain ⟨ht, hs⟩ := wf.carried_unique (mem_streamVisits.mp hx) (mem_streamVisits.mp hy)
  exact Prod.ext ht hs

end WellFormed
end Circuit

-- ---------------------------------------------------------------------------
-- Packets of a program
-- ---------------------------------------------------------------------------

namespace Packet

def flagged : List Packet → List (Bool × Packet)
  | [] => []
  | [p] => [(true, p)]
  | p :: q :: rest => (false, p) :: flagged (q :: rest)

def wordsOf (c : Circuit) (packets : List (Bool × Packet)) : List Word :=
  packets.flatMap fun x => x.2.words c x.1

def visitsOf (packets : List (Bool × Packet)) : List Visit := packets.flatMap fun x => x.2.visits

theorem map_snd_flagged (packets : List Packet) : (flagged packets).map Prod.snd = packets := by
  fun_induction flagged packets with
  | case1 => rfl
  | case2 p => rfl
  | case3 p q rest ih => rw [List.map_cons, ih]

theorem wordsOf_flagged (c : Circuit) (packets : List Packet) :
    wordsOf c (flagged packets) = emit c packets := by
  fun_induction flagged packets with
  | case1 => rfl
  | case2 p => simp [wordsOf, emit]
  | case3 p q rest ih =>
    rw [emit, ← ih]
    rfl

theorem visitsOf_eq (packets : List (Bool × Packet)) :
    visitsOf packets = (packets.map Prod.snd).flatMap Packet.visits := by
  rw [visitsOf, List.flatMap_map]

theorem words_ne_nil (c : Circuit) (last : Bool) (p : Packet) : p.words c last ≠ [] := by
  rw [words]
  split <;> simp [packetWords]

end Packet

namespace Circuit
variable (c : Circuit)

open Packet

def sent : List (Bool × Packet) := c.writtenSlices.flatMap fun t => flagged (c.packetsAt t)

/-- Word `i` of the program is the header word of a packet that carries the visit. -/
def HeldAt (p : InstructionProgram) (v : Visit) (i : Nat) : Prop :=
  ∃ before x after, c.sent = before ++ x :: after ∧ v ∈ x.2.visits ∧
    p.words = wordsOf c before ++ (x.2.words c x.1 ++ wordsOf c after) ∧ (wordsOf c before).length = i

variable {c} {p : InstructionProgram}

theorem map_snd_sent : c.sent.map Prod.snd = c.places.flatMap fun x => c.streamPackets x.1 x.2 := by
  rw [sent, places, List.map_flatMap, List.flatMap_assoc]
  congr 1
  funext t
  rw [map_snd_flagged, packetsAt, List.flatMap_map]

namespace Accepted
variable (h : c.Accepted)
include h

theorem words_eq_sent
    (hp : p.slices = c.writtenSlices.map fun t => ⟨t, (c.contentAt t).words c.layout⟩) :
    p.words = wordsOf c c.sent := by
  have hslice (t : Int) (ht : t ∈ c.writtenSlices) :
      (c.contentAt t).words c.layout = wordsOf c (flagged (c.packetsAt t)) :=
    (h.words_contentAt (List.mem_filter.mp ht).2).trans (wordsOf_flagged c _).symm
  rw [InstructionProgram.words, hp, List.flatMap_map, List.flatMap_def, List.map_congr_left hslice,
    ← List.flatMap_def]
  exact List.flatMap_assoc.symm

theorem visitsOf_packets (places : List (Int × Stream)) :
    (places.flatMap fun x => c.streamPackets x.1 x.2).flatMap Packet.visits =
      places.flatMap fun x => c.streamVisits x.1 x.2 := by
  rw [List.flatMap_assoc]
  congr 1
  exact funext fun x => h.visits_streamPackets x.1 x.2

theorem visitsOf_sent : visitsOf c.sent = c.places.flatMap fun x => c.streamVisits x.1 x.2 := by
  rw [visitsOf_eq, map_snd_sent, h.visitsOf_packets]

theorem mem_writtenSlices_of_carried {v : Visit} {t : Int} {s : Stream} (hv : c.Carried v t s) :
    t ∈ c.writtenSlices := by
  cases s with
  | none =>
    obtain ⟨batch, hbatch, -, rfl⟩ := hv
    exact h.slice_mem_writtenSlices hbatch
  | some l =>
    obtain ⟨hv, rfl, he⟩ := hv
    exact mem_writtenSlices_of_written hv he

theorem exists_heldAt
    (hp : p.slices = c.writtenSlices.map fun t => ⟨t, (c.contentAt t).words c.layout⟩) {v : Visit}
    {t : Int} {s : Stream} (hv : c.Carried v t s) : ∃ i, c.HeldAt p v i := by
  have hmem : v ∈ visitsOf c.sent := by
    rw [h.visitsOf_sent]
    have hplace : (t, s) ∈ c.places := mem_places.mpr (h.mem_writtenSlices_of_carried hv)
    exact List.mem_flatMap.mpr ⟨(t, s), hplace, mem_streamVisits.mpr hv⟩
  obtain ⟨x, hx, hvx⟩ := List.mem_flatMap.mp hmem
  obtain ⟨before, after, hsplit⟩ := List.append_of_mem hx
  refine ⟨_, before, x, after, hsplit, hvx, ?_, rfl⟩
  rw [h.words_eq_sent hp, hsplit, wordsOf, List.flatMap_append, List.flatMap_cons]
  rfl

end Accepted

variable {a b : List (Bool × Packet)} {v : Visit} {i : Nat}

theorem HeldAt.lt_length (h : c.HeldAt p v i) (hsplit : c.sent = a ++ b) (hv : v ∉ visitsOf b) :
    i < (wordsOf c a).length := by
  obtain ⟨before, x, after, hsent, hx, -, rfl⟩ := h
  rw [hsplit] at hsent
  rcases List.append_eq_append_iff.mp hsent with ⟨rest, rfl, hb⟩ | ⟨rest, rfl, hrest⟩
  · refine absurd ?_ hv
    rw [hb]
    exact List.mem_flatMap.mpr ⟨x, by simp, hx⟩
  · cases rest with
    | nil =>
      refine absurd ?_ hv
      rw [← List.nil_append b, ← hrest]
      exact List.mem_flatMap.mpr ⟨x, by simp, hx⟩
    | cons y rest =>
      obtain ⟨rfl, -⟩ := List.cons.inj hrest
      have := List.length_pos_iff.mpr (words_ne_nil c x.1 x.2)
      simp only [wordsOf, List.flatMap_append, List.flatMap_cons, List.length_append] at this ⊢
      omega

theorem HeldAt.length_le (h : c.HeldAt p v i) (hsplit : c.sent = a ++ b) (hv : v ∉ visitsOf a) :
    (wordsOf c a).length ≤ i := by
  obtain ⟨before, x, after, hsent, hx, -, rfl⟩ := h
  rw [hsplit] at hsent
  rcases List.append_eq_append_iff.mp hsent with ⟨rest, rfl, -⟩ | ⟨rest, rfl, hrest⟩
  · simp [wordsOf]
  · cases rest with
    | nil => simp
    | cons y rest =>
      obtain ⟨rfl, -⟩ := List.cons.inj hrest
      exact absurd (List.mem_flatMap.mpr ⟨x, by simp, hx⟩) hv

theorem Accepted.heldAt_unique (h : c.Accepted) {i j : Nat} (hi : c.HeldAt p v i) (hj : c.HeldAt p v j) :
    i = j := by
  have hnodup := h.wellFormed.nodup_carried
  rw [← h.visitsOf_sent] at hnodup
  have hle {i j : Nat} (hi : c.HeldAt p v i) (hj : c.HeldAt p v j) : i ≤ j := by
    obtain ⟨before, x, after, hsplit, hx, -, rfl⟩ := hi
    rw [hsplit, visitsOf, List.flatMap_append] at hnodup
    refine hj.length_le hsplit fun hv => ?_
    exact (List.nodup_append.mp hnodup).2.2 v hv v (List.mem_flatMap.mpr ⟨x, by simp, hx⟩) rfl
  exact Nat.le_antisymm (hle hi hj) (hle hj hi)

/-- Words follow each other as the streams that carry the visits do. -/
theorem Accepted.heldAt_lt (h : c.Accepted) {u v : Visit} {x y : Int × Stream} {i j : Nat}
    (hxy : [x, y].Sublist c.places) (hu : c.Carried u x.1 x.2) (hv : c.Carried v y.1 y.2)
    (hi : c.HeldAt p u i) (hj : c.HeldAt p v j) : i < j := by
  obtain ⟨earlier, later, hplaces, hx, hy⟩ := List.cons_sublist_iff.mp hxy
  have hsent := c.map_snd_sent
  rw [hplaces, List.flatMap_append] at hsent
  obtain ⟨a, b, hsplit, ha, hb⟩ := List.map_eq_append_iff.mp hsent
  have hvisits (places : List (Int × Stream)) (part : List (Bool × Packet))
      (hpart : part.map Prod.snd = places.flatMap fun x => c.streamPackets x.1 x.2) :
      visitsOf part = places.flatMap fun x => c.streamVisits x.1 x.2 := by
    rw [visitsOf_eq, hpart, h.visitsOf_packets]
  have hnodup := h.wellFormed.nodup_carried
  rw [hplaces, List.flatMap_append, ← hvisits earlier a ha, ← hvisits later b hb] at hnodup
  have hdisjoint := (List.nodup_append.mp hnodup).2.2
  have hua : u ∈ visitsOf a := by
    rw [hvisits earlier a ha]
    exact List.mem_flatMap.mpr ⟨x, hx, mem_streamVisits.mpr hu⟩
  have hvb : v ∈ visitsOf b := by
    rw [hvisits later b hb]
    exact List.mem_flatMap.mpr ⟨y, List.singleton_sublist.mp hy, mem_streamVisits.mpr hv⟩
  calc i < (wordsOf c a).length := hi.lt_length hsplit fun hub => hdisjoint u hua u hub rfl
    _ ≤ j := hj.length_le hsplit fun hva => hdisjoint v hva v hvb rfl

end Circuit
end Sequencer
