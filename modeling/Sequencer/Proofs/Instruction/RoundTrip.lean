import Sequencer.Proofs.Instruction.Reading

/-!
# Decoding undoes encoding

Every packet of a program is read as the operations of the visits it carries,
so a program is read as the operations of its circuit, timeslice by timeslice.
Within a timeslice the packets are in an order of their own; measurements come
in the order of the circuit over the whole stream, because batches are written
in the order in which they were closed.
-/

namespace Sequencer

open BitField

-- ---------------------------------------------------------------------------
-- Operations of packets
-- ---------------------------------------------------------------------------

def Circuit.measurement (c : Circuit) (v : Visit) : StreamOperation :=
  { category := .measurement, qubit := c.position v.2.1 }

def Circuit.operationsOf (c : Circuit) : Stream → List Visit → List StreamOperation
  | none, vs => vs.map c.measurement
  | some _, vs => vs.filterMap c.operation?

def Operation.unplaced (o : StreamOperation) : StreamOperation := o.placed 0 false

theorem Circuit.operation?_unplaced {c : Circuit} {v : Visit} {o : StreamOperation}
    (h : c.operation? v = some o) : o.unplaced = o ∧ o.category ≠ .measurement := by
  simp only [operation?] at h
  split at h
  · cases h
  split at h
  · obtain rfl := Option.some.inj h
    exact ⟨rfl, by simp⟩
  split at h
  · obtain rfl := Option.some.inj h
    exact ⟨rfl, by simp⟩
  split at h
  · split at h
    · obtain rfl := Option.some.inj h
      refine ⟨rfl, ?_⟩
      simp only
      split <;> simp
    · cases h
  · obtain rfl := Option.some.inj h
    refine ⟨rfl, ?_⟩
    simp only
    split <;> simp

namespace Packet
variable (c : Circuit)

def operations (p : Packet) : List StreamOperation := c.operationsOf p.stream p.visits

def read : List Packet → List StreamOperation
  | [] => []
  | [p] => (p.operations c).map (Operation.placed 0 true)
  | p :: q :: rest => (p.operations c).map (Operation.placed 0 false) ++ read (q :: rest)

variable {c}

theorem read_cons (p : Packet) {rest : List Packet} (h : rest ≠ []) :
    read c (p :: rest) = (p.operations c).map (Operation.placed 0 false) ++ read c rest := by
  cases rest with
  | nil => exact absurd rfl h
  | cons q rest => rfl

theorem reads_emit {packets : List Packet} (hne : packets ≠ [])
    (h : ∀ p ∈ packets, ∀ last : Bool,
      Reads c.layout (p.words c last) last.toNat ((p.operations c).map (Operation.placed 0 last))) :
    Reads c.layout (emit c packets) 1 (read c packets) := by
  induction packets with
  | nil => exact absurd rfl hne
  | cons p rest ih =>
    cases rest with
    | nil => exact h p List.mem_cons_self true
    | cons q rest =>
      exact (h p List.mem_cons_self false).append_zero
        (ih (List.cons_ne_nil _ _) fun r hr => h r (List.mem_cons_of_mem _ hr))

theorem unplaced_operations {p : Packet} {o : StreamOperation} (h : o ∈ p.operations c) :
    o.unplaced = o := by
  rw [operations, Circuit.operationsOf.eq_def] at h
  split at h
  · obtain ⟨v, -, rfl⟩ := List.mem_map.mp h
    rfl
  · obtain ⟨v, -, hv⟩ := List.mem_filterMap.mp h
    exact (Circuit.operation?_unplaced hv).1

theorem unplaced_map_placed (p : Packet) (last : Bool) :
    ((p.operations c).map (Operation.placed 0 last)).map Operation.unplaced = p.operations c := by
  rw [List.map_map]
  exact (List.map_congr_left fun o ho => unplaced_operations ho).trans (List.map_id _)

theorem unplaced_read (packets : List Packet) :
    (read c packets).map Operation.unplaced = packets.flatMap (operations c) := by
  induction packets with
  | nil => rfl
  | cons p rest ih =>
    cases rest with
    | nil => simpa [read] using unplaced_map_placed p true
    | cons q rest =>
      rw [read_cons p (List.cons_ne_nil _ _), List.map_append, ih, unplaced_map_placed]
      rfl

theorem slice_read {packets : List Packet} {o : StreamOperation} (h : o ∈ read c packets) :
    o.slice = 0 := by
  induction packets with
  | nil => cases h
  | cons p rest ih =>
    cases rest with
    | nil =>
      obtain ⟨o, -, rfl⟩ := List.mem_map.mp h
      rfl
    | cons q rest =>
      rw [read_cons p (List.cons_ne_nil _ _)] at h
      rcases List.mem_append.mp h with h | h
      · obtain ⟨o, -, rfl⟩ := List.mem_map.mp h
        rfl
      · exact ih h

end Packet

-- ---------------------------------------------------------------------------
-- Packets are read
-- ---------------------------------------------------------------------------

theorem exists_items {c : Circuit} {P : Group → StreamOperation → Prop} (vs : List Visit)
    (h : ∀ v ∈ vs, ∃ o, c.operation? v = some o ∧ P (c.group v) o) :
    ∃ items : List (Group × StreamOperation), items.map Prod.fst = vs.map c.group ∧
      items.map Prod.snd = vs.filterMap c.operation? ∧ ∀ i ∈ items, P i.1 i.2 := by
  induction vs with
  | nil => exact ⟨[], rfl, rfl, by simp⟩
  | cons v rest ih =>
    obtain ⟨o, ho, hp⟩ := h v List.mem_cons_self
    obtain ⟨items, hfst, hsnd, hall⟩ := ih fun w hw => h w (List.mem_cons_of_mem _ hw)
    refine ⟨(c.group v, o) :: items, by simp [hfst], by simp [hsnd, ho], ?_⟩
    exact List.forall_mem_cons.mpr ⟨hp, hall⟩

namespace Circuit.Accepted
variable {c : Circuit} (h : c.Accepted)
include h

theorem legible_group {v : Visit} {l : Lane} (hv : v ∈ c.visits) (he : c.written? v = some (l, c.group v)) :
    ∃ o, c.operation? v = some o ∧ Legible c.layout l (c.group v) o := by
  rcases h.wellFormed.legible h.bits_counted hv (h.accepts v hv) with ⟨hnone, -⟩ | ⟨l', g, o, hlg, ho, hleg⟩
  · rw [hnone] at he
    cases he
  · rw [hlg, Option.some.injEq, Prod.mk.injEq] at he
    obtain ⟨rfl, rfl⟩ := he
    exact ⟨o, ho, hleg⟩

variable (hy : c.layout.qubits = 1 ∨ ¬ c.layout.qubits.isPowerOfTwo)
variable (hparams : ∀ v ∈ c.visits, Gate.encodesAngle v.2.2.gate = true → v.2.2.params ≠ [])
include hy hparams

/-- Every packet is read as the operations of its visits. -/
theorem reads_packet {t : Int} {s : Stream} {p : Packet} (hp : p ∈ c.streamPackets t s) (last : Bool) :
    Reads c.layout (p.words c last) last.toNat ((p.operations c).map (Operation.placed 0 last)) := by
  cases s with
  | none =>
    simp only [streamPackets, List.mem_flatMap, List.mem_map] at hp
    obtain ⟨b, hb, piece, hpiece, rfl⟩ := hp
    have hlt : ∀ q ∈ piece.map fun v => c.position v.2.1, q < c.layout.qubits := by
      refine List.forall_mem_map.mpr fun v hv => position_lt ?_
      have := mem_of_mem_batches (List.mem_filter.mp hb).1 (mem_of_mem_chunks hpiece hv)
      exact (mem_visits.mp this.1).2.1
    have hread : Reads c.layout
        [measuredWord c.layout.qubitBits last (piece.map fun v => c.position v.2.1)] last.toNat _ :=
      Reads.measured (by simpa using ne_nil_of_mem_chunks hpiece)
        (by simpa using length_le_of_mem_chunks hpiece) hlt
        fun q hq => Layout.succ_lt_two_pow hy (hlt q (List.mem_of_mem_tail (List.mem_of_getLast? hq)))
    simpa [Packet.words, Packet.operations, operationsOf, Function.comp_def, Operation.placed,
      measurement] using hread
  | some l =>
    simp only [streamPackets, List.mem_map] at hp
    obtain ⟨piece, hpiece, rfl⟩ := hp
    obtain ⟨items, hfst, hsnd, hall⟩ := exists_items
      (P := fun g o => Legible c.layout l g o ∧ o.Carries g.trail) piece fun v hv => by
        obtain ⟨hmem, -, he⟩ := mem_laneVisits.mp (mem_of_mem_chunks hpiece hv)
        obtain ⟨o, ho, hleg⟩ := h.legible_group hmem he
        exact ⟨o, ho, hleg, hleg.carries (angle_ne_none ho (hparams v hmem))⟩
    have hlength : items.length = piece.length := by simpa using congrArg List.length hfst
    have hne : items ≠ [] :=
      List.length_pos_iff.mp (hlength ▸ List.length_pos_iff.mpr (ne_nil_of_mem_chunks hpiece))
    have hclear : ∀ i ∈ items.tail.getLast?, Clear i.1.fields := by
      intro i hi
      obtain ⟨j, hj, -, hmem⟩ := (hall i (List.mem_of_mem_tail (List.mem_of_getLast? hi))).1.index
      exact clear_of_index hy hj hmem
    have hread : Reads c.layout (packetWords l last (items.map Prod.fst)) last.toNat _ :=
      Reads.lane hne (fun i hi => (hall i hi).1) (fun i hi => (hall i hi).2)
        (hlength ▸ length_le_of_mem_chunks hpiece) hclear
    rw [hfst] at hread
    have hops : (items.map fun i => i.2.placed 0 last) =
        (piece.filterMap c.operation?).map (Operation.placed 0 last) := by
      rw [← hsnd, List.map_map]
      rfl
    rw [hops] at hread
    exact hread

end Circuit.Accepted

-- ---------------------------------------------------------------------------
-- Operations of timeslices
-- ---------------------------------------------------------------------------

namespace Circuit

def streamOperations (c : Circuit) (t : Int) (s : Stream) : List StreamOperation :=
  c.operationsOf s (c.streamVisits t s)

namespace Accepted
variable {c : Circuit} (h : c.Accepted)
include h

theorem operations_streamPackets (t : Int) (s : Stream) :
    (c.streamPackets t s).flatMap (Packet.operations c) = c.streamOperations t s := by
  rw [List.flatMap_def, streamOperations, ← h.visits_streamPackets, List.flatMap_def]
  have hown (p : Packet) (hp : p ∈ c.streamPackets t s) : p.operations c = c.operationsOf s p.visits := by
    rw [Packet.operations, stream_of_mem hp]
  rw [List.map_congr_left hown]
  cases s with
  | none => simp [operationsOf, List.map_flatten, Function.comp_def]
  | some l => simp [operationsOf, List.filterMap_flatten, Function.comp_def]

theorem unplaced_read_packetsAt (t : Int) :
    (Packet.read c (c.packetsAt t)).map Operation.unplaced =
      (Stream.order ((c.contentAt t).closingLane? c.layout)).flatMap (c.streamOperations t) := by
  rw [Packet.unplaced_read, packetsAt, List.flatMap_assoc]
  congr 1
  exact funext (h.operations_streamPackets t)

end Accepted

theorem measurement_streamOperations {c : Circuit} (t : Int) (s : Stream) :
    (c.streamOperations t s).filter (fun o => o.category = .measurement) =
      if s = none then c.streamOperations t none else [] := by
  cases s with
  | none =>
    refine List.filter_eq_self.mpr (List.forall_mem_map.mpr fun v _ => ?_)
    simp [measurement]
  | some l =>
    refine List.filter_eq_nil_iff.mpr fun o ho => ?_
    obtain ⟨v, -, hv⟩ := List.mem_filterMap.mp ho
    simpa using (operation?_unplaced hv).2

theorem others_streamOperations {c : Circuit} (t : Int) (s : Stream) :
    (c.streamOperations t s).filter (fun o => o.category ≠ .measurement) =
      if s = none then [] else c.streamOperations t s := by
  cases s with
  | none =>
    refine List.filter_eq_nil_iff.mpr (List.forall_mem_map.mpr fun v _ => ?_)
    simp [measurement]
  | some l =>
    refine List.filter_eq_self.mpr fun o ho => ?_
    obtain ⟨v, -, hv⟩ := List.mem_filterMap.mp ho
    simpa using (operation?_unplaced hv).2

end Circuit

theorem flatMap_if {f : α → List β} (q : α → Prop) [DecidablePred q] (l : List α) :
    (l.flatMap fun a => if q a then f a else []) = (l.filter fun a => q a).flatMap f := by
  induction l with
  | nil => rfl
  | cons a rest ih =>
    by_cases ha : q a
    · simp [ha, ih]
    · simp [ha, ih]

theorem Stream.filter_order (last : Stream) : (order last).filter (fun s => s = none) = [none] := by
  rcases last with _ | l
  · decide
  · cases l <;> decide

namespace Circuit

theorem measurements_order {c : Circuit} (t : Int) (last : Stream) :
    ((Stream.order last).flatMap (c.streamOperations t)).filter (fun o => o.category = .measurement) =
      c.streamOperations t none := by
  rw [List.filter_flatMap]
  simp only [measurement_streamOperations]
  rw [flatMap_if, Stream.filter_order, List.flatMap_singleton]

theorem lane_mem_all (l : Lane) : l ∈ Lane.all := by
  cases l <;> decide

namespace WellFormed
variable {c : Circuit} (wf : c.WellFormed)
include wf

theorem laneVisits_perm (t : Int) :
    (Lane.all.flatMap (c.laneVisits t)).Perm
      (c.visits.filter fun v => v.1 = t ∧ (c.written? v).isSome) := by
  have hnodup : (Lane.all.flatMap (c.laneVisits t)).Nodup := by
    refine List.nodup_flatMap.mpr ⟨fun l _ => wf.nodup_visits.filter _, ?_⟩
    refine (show Lane.all.Nodup by decide).imp fun {a b} hab v ha hb => hab ?_
    have := (mem_laneVisits.mp ha).2.2.symm.trans (mem_laneVisits.mp hb).2.2
    exact (Prod.mk.inj (Option.some.inj this)).1
  refine (List.perm_ext_iff_of_nodup hnodup (wf.nodup_visits.filter _)).mpr fun v => ?_
  simp only [List.mem_flatMap, List.mem_filter, decide_eq_true_eq]
  constructor
  · rintro ⟨l, -, hv⟩
    obtain ⟨hmem, ht, he⟩ := mem_laneVisits.mp hv
    exact ⟨hmem, ht, by simp [he]⟩
  · rintro ⟨hmem, ht, he⟩
    obtain ⟨⟨l, g⟩, he⟩ := Option.isSome_iff_exists.mp he
    exact ⟨l, lane_mem_all l, mem_laneVisits.mpr ⟨hmem, ht, by simp [group, he]⟩⟩

end WellFormed

theorem Accepted.others_order {c : Circuit} (h : c.Accepted) (t : Int) (last : Stream) :
    (((Stream.order last).flatMap (c.streamOperations t)).filter
        (fun o => o.category ≠ .measurement)).Perm
      ((c.visits.filter fun v => v.1 = t).filterMap c.operation?) := by
  have hempty (v : Visit) (hv : v ∈ c.visits) (he : (c.written? v).isSome = false) :
      c.operation? v = none := by
    rcases h.wellFormed.legible h.bits_counted hv (h.accepts v hv) with ⟨-, ho⟩ | ⟨l, g, o, he', -⟩
    · exact ho
    · simp [he'] at he
  rw [List.filter_flatMap]
  simp only [others_streamOperations]
  refine ((Stream.order_perm last).flatMap_right _).trans ?_
  have hlanes : (Stream.all.flatMap fun s => if s = none then [] else c.streamOperations t s) =
      (Lane.all.flatMap (c.laneVisits t)).filterMap c.operation? := by
    rw [Stream.all, List.flatMap_cons, List.flatMap_map, List.filterMap_flatMap]
    rfl
  rw [hlanes]
  refine ((h.wellFormed.laneVisits_perm t).filterMap _).trans (List.Perm.of_eq ?_)
  rw [List.filterMap_filter, List.filterMap_filter]
  refine List.filterMap_congr fun v hv => ?_
  cases he : (c.written? v).isSome with
  | false => simp [hempty v hv he]
  | true => simp

end Circuit

-- ---------------------------------------------------------------------------
-- Measurements over the whole stream
-- ---------------------------------------------------------------------------

theorem filter_append_filter_ne {l : List α} {f : α → Int} {k : Int}
    (hl : l.Pairwise fun a b => f a ≤ f b) (hk : ∀ a ∈ l, k ≤ f a) :
    l.filter (fun a => f a = k) ++ l.filter (fun a => f a ≠ k) = l := by
  induction l with
  | nil => rfl
  | cons a rest ih =>
    obtain ⟨ha, hrest⟩ := List.pairwise_cons.mp hl
    by_cases hak : f a = k
    · have ih := ih hrest fun b hb => hk b (List.mem_cons_of_mem _ hb)
      simpa [hak] using ih
    · have hlt : ∀ b ∈ a :: rest, f b ≠ k := by
        have := hk a List.mem_cons_self
        refine List.forall_mem_cons.mpr ⟨hak, fun b hb => ?_⟩
        have := ha b hb
        omega
      rw [List.filter_eq_nil_iff.mpr (by simpa using hlt), List.filter_eq_self.mpr (by simpa using hlt),
        List.nil_append]

theorem flatMap_filter_key {keys : List Int} {l : List α} {f : α → Int}
    (hkeys : keys.Pairwise (· < ·)) (hl : l.Pairwise fun a b => f a ≤ f b)
    (hmem : ∀ a ∈ l, f a ∈ keys) : (keys.flatMap fun t => l.filter fun a => f a = t) = l := by
  induction keys generalizing l with
  | nil =>
    cases l with
    | nil => rfl
    | cons a rest => simpa using hmem a List.mem_cons_self
  | cons k keys ih =>
    obtain ⟨hk, hkeys⟩ := List.pairwise_cons.mp hkeys
    have hsplit : l.filter (fun a => f a = k) ++ l.filter (fun a => f a ≠ k) = l := by
      refine filter_append_filter_ne hl fun a ha => ?_
      rcases List.mem_cons.mp (hmem a ha) with h | h
      · exact Int.le_of_eq h.symm
      · exact Int.le_of_lt (hk _ h)
    have hrest := ih hkeys (hl.filter fun a => f a ≠ k) fun a ha => by
      obtain ⟨ha, hne⟩ := List.mem_filter.mp ha
      rcases List.mem_cons.mp (hmem a ha) with h | h
      · simp [h] at hne
      · exact h
    have hother : (keys.flatMap fun t => l.filter fun a => f a = t) =
        keys.flatMap fun t => (l.filter fun a => f a ≠ k).filter fun a => f a = t := by
      rw [List.flatMap_def, List.flatMap_def]
      congr 1
      refine List.map_congr_left fun t ht => ?_
      rw [List.filter_filter]
      refine List.filter_congr fun a _ => ?_
      have := hk t ht
      by_cases h : f a = t
      · have : f a ≠ k := by omega
        simp [h]
        omega
      · simp [h]
    rw [List.flatMap_cons, hother, hrest, hsplit]

namespace Circuit.WellFormed
variable {c : Circuit} (wf : c.WellFormed)
include wf

theorem flatten_batches_ordered : c.batches.flatten.Pairwise fun u v => u.1 ≤ v.1 := by
  rw [flatten_batches]
  exact (wf.visits_ordered.imp Visit.Before.le).filter _

/-- Batches are closed in the order of their timeslices. -/
theorem batches_ordered : c.batches.Pairwise fun a b => Batches.slice a ≤ Batches.slice b := by
  refine (List.pairwise_flatten.mp wf.flatten_batches_ordered).2.imp_of_mem fun {a b} ha hb hab => ?_
  have hpos (batch : List Visit) (hbatch : batch ∈ c.batches) (v : Visit) (hv : v ∈ batch) : 1 ≤ v.1 :=
    (Circuit.mem_visits.mp (mem_of_mem_batches hbatch hv).1).1.1
  obtain ⟨v, hv, heq⟩ := Batches.exists_slice_eq (ne_nil_of_mem_batches ha) (hpos a ha)
  obtain ⟨w, hw⟩ := List.exists_mem_of_ne_nil _ (ne_nil_of_mem_batches hb)
  calc Batches.slice a = v.1 := heq.symm
    _ ≤ w.1 := hab v hv w hw
    _ ≤ Batches.slice b := Batches.le_slice hw

end Circuit.WellFormed

/-- Over the whole program the measurements are in the order of the circuit. -/
theorem Circuit.Accepted.measurements_eq {c : Circuit} (h : c.Accepted) :
    (c.writtenSlices.flatMap fun t => c.streamOperations t none) =
      (c.visits.filter Visit.isMeasured).map c.measurement := by
  have hbatches := flatMap_filter_key (c.slices_ordered.filter _) h.wellFormed.batches_ordered
    fun b hb => h.slice_mem_writtenSlices hb
  have hparts (ts : List Int) : (ts.flatMap fun t => c.streamOperations t none) =
      ((ts.flatMap fun t => c.batches.filter fun b => Batches.slice b = t).flatten).map c.measurement := by
    induction ts with
    | nil => rfl
    | cons t rest ih =>
      rw [List.flatMap_cons, ih, List.flatMap_cons, List.flatten_append, List.map_append]
      rfl
  rw [hparts, ← flatten_batches, writtenSlices, hbatches]

-- ---------------------------------------------------------------------------
-- Timeslices one after the other
-- ---------------------------------------------------------------------------

def timed : List (List StreamOperation) → List StreamOperation
  | [] => []
  | ops :: rest => ops ++ (timed rest).map (Operation.later 1)

theorem reads_timed {y : Layout} {slices : List α} {words : α → List Word}
    {ops : α → List StreamOperation} (h : ∀ a ∈ slices, Reads y (words a) 1 (ops a)) :
    Reads y (slices.flatMap words) slices.length (timed (slices.map ops)) := by
  induction slices with
  | nil => exact .nil
  | cons a rest ih =>
    have := (h a List.mem_cons_self).append (ih fun b hb => h b (List.mem_cons_of_mem _ hb))
    rwa [Nat.add_comm] at this

theorem unplaced_timed (l : List (List StreamOperation)) :
    (timed l).map Operation.unplaced = l.flatMap (List.map Operation.unplaced) := by
  induction l with
  | nil => rfl
  | cons ops rest ih =>
    rw [timed, List.map_append, List.flatMap_cons, ← ih, List.map_map]
    rfl

theorem filter_unplaced (q : Category → Bool) (ops : List StreamOperation) :
    (ops.filter fun o => q o.category).map Operation.unplaced =
      (ops.map Operation.unplaced).filter fun o => q o.category := by
  rw [List.filter_map]
  rfl

section
variable {l : List (List StreamOperation)} (hzero : ∀ ops ∈ l, ∀ o ∈ ops, o.slice = 0)
include hzero

theorem slice_lt_of_mem_timed {o : StreamOperation} (ho : o ∈ timed l) : o.slice < l.length := by
  induction l generalizing o with
  | nil => cases ho
  | cons ops rest ih =>
    rcases List.mem_append.mp ho with ho | ho
    · rw [hzero ops List.mem_cons_self o ho]
      simp
    · obtain ⟨a, ha, rfl⟩ := List.mem_map.mp ho
      have := ih (fun ops hops => hzero ops (List.mem_cons_of_mem _ hops)) ha
      simpa [Operation.later] using this

theorem filter_timed {i : Nat} {ops : List StreamOperation} (hi : l[i]? = some ops) :
    (timed l).filter (fun o => o.slice = i) = ops.map (Operation.later i) := by
  induction l generalizing i with
  | nil => simp at hi
  | cons first rest ih =>
    have hfirst := hzero first List.mem_cons_self
    rw [timed, List.filter_append, List.filter_map]
    cases i with
    | zero =>
      obtain rfl : first = ops := by simpa using hi
      rw [List.filter_eq_self.mpr (by simpa using hfirst), List.filter_eq_nil_iff.mpr (by
        simp [Operation.later]), show Operation.later 0 = id from rfl, List.map_id]
      simp
    | succ i =>
      have hnone : first.filter (fun o => o.slice = i + 1) = [] :=
        List.filter_eq_nil_iff.mpr fun o ho => by simp [hfirst o ho]
      have hrest : (timed rest).filter ((fun o => decide (o.slice = i + 1)) ∘ Operation.later 1) =
          (timed rest).filter (fun o => o.slice = i) :=
        List.filter_congr fun o _ => by simp [Operation.later]
      rw [hnone, List.nil_append, hrest,
        ih (fun ops hops => hzero ops (List.mem_cons_of_mem _ hops)) (by simpa using hi), List.map_map]
      rfl

end

-- ---------------------------------------------------------------------------
-- Programs
-- ---------------------------------------------------------------------------

/-- The operations are those of the circuit: in each timeslice of the program,
those of the visits of that timeslice, each once, and over the whole program
the measurements in the order of the circuit. -/
structure Circuit.DecodedAs (c : Circuit) (p : InstructionProgram) (ops : List StreamOperation) :
    Prop where
  /-- Operations of timeslice `i` are what the words of that timeslice are read as. -/
  own : ∀ (i : Nat) (s : ProgramSlice), p.slices[i]? = some s →
    ∃ own, decode s.words c.numQubits = .ok own ∧
      ops.filter (fun o => o.slice = i) = own.map (Operation.later i)
  slice_lt : ∀ o ∈ ops, o.slice < p.slices.length
  operations : ∀ (i : Nat) (s : ProgramSlice), p.slices[i]? = some s →
    ((ops.filter fun o => o.slice = i ∧ o.category ≠ .measurement).map Operation.unplaced).Perm
      ((c.visits.filter fun v => v.1 = s.index).filterMap c.operation?)
  complete : ∀ v ∈ c.visits, (c.operation? v).isSome = true → ∃ s ∈ p.slices, s.index = v.1
  increasing : p.slices.Pairwise fun a b => a.index < b.index
  measurements : (ops.filter fun o => o.category = .measurement).map Operation.unplaced =
    (c.visits.filter Visit.isMeasured).map c.measurement

namespace Circuit.Accepted
variable {c : Circuit} (h : c.Accepted)
include h

theorem mem_writtenSlices_of_operation {v : Visit} (hv : v ∈ c.visits)
    (ho : (c.operation? v).isSome = true) : v.1 ∈ c.writtenSlices := by
  rcases h.wellFormed.legible h.bits_counted hv (h.accepts v hv) with ⟨-, hnone⟩ | ⟨l, g, o, he, -⟩
  · simp [hnone] at ho
  · exact mem_writtenSlices_of_written hv he

theorem decodedAs (hy : c.layout.qubits = 1 ∨ ¬ c.layout.qubits.isPowerOfTwo)
    (hparams : ∀ v ∈ c.visits, Gate.encodesAngle v.2.2.gate = true → v.2.2.params ≠ [])
    {p : InstructionProgram}
    (hp : p.slices = c.writtenSlices.map fun t => ⟨t, (c.contentAt t).words c.layout⟩) :
    ∃ ops, decode p.words c.numQubits = .ok ops ∧ c.DecodedAs p ops := by
  have hslice (t : Int) (ht : t ∈ c.writtenSlices) :
      Reads c.layout ((c.contentAt t).words c.layout) 1 (Packet.read c (c.packetsAt t)) := by
    have hpresent := (List.mem_filter.mp ht).2
    rw [h.words_contentAt hpresent]
    refine Packet.reads_emit ?_ fun q hq last => ?_
    · have := h.closing_ne_nil hpresent
      simp [packetsAt, Stream.order, this]
    · obtain ⟨s, -, hq⟩ := List.mem_flatMap.mp hq
      exact h.reads_packet hy hparams hq last
  have hzero : ∀ ops ∈ c.writtenSlices.map fun t => Packet.read c (c.packetsAt t),
      ∀ o ∈ ops, o.slice = 0 :=
    List.forall_mem_map.mpr fun t _ o ho => Packet.slice_read ho
  have hindex {i : Nat} {s : ProgramSlice} (hs : p.slices[i]? = some s) :
      c.writtenSlices[i]? = some s.index ∧ s.words = (c.contentAt s.index).words c.layout := by
    rw [hp, List.getElem?_map, Option.map_eq_some_iff] at hs
    obtain ⟨t, ht, rfl⟩ := hs
    exact ⟨ht, rfl⟩
  have hfilter {i : Nat} {t : Int} (ht : c.writtenSlices[i]? = some t) :
      (timed (c.writtenSlices.map fun t => Packet.read c (c.packetsAt t))).filter (fun o => o.slice = i) =
        (Packet.read c (c.packetsAt t)).map (Operation.later i) :=
    filter_timed hzero (by simp [ht])
  have hwords : p.words = c.writtenSlices.flatMap fun t => (c.contentAt t).words c.layout := by
    rw [InstructionProgram.words, hp, List.flatMap_map]
  refine ⟨timed (c.writtenSlices.map fun t => Packet.read c (c.packetsAt t)),
    hwords ▸ (reads_timed hslice).decode, ?_⟩
  refine
    { own := fun i s hs => ?_
      slice_lt := fun o ho => ?_
      operations := fun i s hs => ?_
      complete := fun v hv ho => ?_
      increasing := ?_
      measurements := ?_ }
  · obtain ⟨ht, hw⟩ := hindex hs
    refine ⟨_, ?_, hfilter ht⟩
    rw [hw]
    exact (hslice s.index (List.mem_of_getElem? ht)).decode
  · have := slice_lt_of_mem_timed hzero ho
    simpa [hp] using this
  · obtain ⟨ht, -⟩ := hindex hs
    have hsplit : (timed (c.writtenSlices.map fun t => Packet.read c (c.packetsAt t))).filter
        (fun o => o.slice = i ∧ o.category ≠ .measurement) =
        ((Packet.read c (c.packetsAt s.index)).map (Operation.later i)).filter
          fun o => o.category ≠ .measurement := by
      rw [← hfilter ht, List.filter_filter]
      exact List.filter_congr fun o _ => by simp [Bool.and_comm]
    rw [hsplit, filter_unplaced (fun k => k ≠ .measurement), List.map_map,
      show Operation.unplaced ∘ Operation.later i = Operation.unplaced from rfl,
      h.unplaced_read_packetsAt]
    exact h.others_order s.index _
  · have := h.mem_writtenSlices_of_operation hv ho
    exact ⟨⟨v.1, _⟩, by rw [hp]; exact List.mem_map_of_mem this, rfl⟩
  · rw [hp]
    exact List.pairwise_map.mpr (c.slices_ordered.filter _)
  · rw [filter_unplaced (fun k => k = .measurement), unplaced_timed, List.flatMap_map,
      List.filter_flatMap, ← h.measurements_eq]
    congr 1
    funext t
    rw [h.unplaced_read_packetsAt, measurements_order]

end Circuit.Accepted

/-- Decoding undoes encoding, for one qubit and for every number of qubits that
is no power of two. -/
theorem decode_encode (k : Construction)
    (hqubits : k.circuit.numQubits = 1 ∨ ¬ k.circuit.numQubits.isPowerOfTwo)
    (hparams : ∀ {q t n}, k.circuit.at? q t = some n → Gate.encodesAngle n.gate = true → n.params ≠ [])
    {p : InstructionProgram} (he : k.circuit.encode = .ok p) :
    ∃ ops, decode p.words k.circuit.numQubits = .ok ops ∧ k.circuit.DecodedAs p ops := by
  obtain ⟨haccepted, hslices⟩ := k.encode_ok he
  refine haccepted.decodedAs ?_ (fun v hv => hparams (k.wellFormed.mem_visits.mp hv)) hslices
  rw [Circuit.qubits_layout]
  rcases Nat.lt_or_ge k.circuit.numQubits 2 with hlt | hge
  · exact .inl (by omega)
  · rw [Nat.max_eq_left (by omega)]
    exact hqubits

theorem decode_encode_teleportation :
    ∃ p ops, Construction.teleportation.circuit.encode = .ok p ∧
      decode p.words Construction.teleportation.circuit.numQubits = .ok ops ∧
      Construction.teleportation.circuit.DecodedAs p ops := by
  have hparams : ∀ v ∈ Construction.teleportation.circuit.visits,
      Gate.encodesAngle v.2.2.gate = true → v.2.2.params ≠ [] := by decide +kernel
  have hsome : Construction.teleportation.circuit.encode.toOption.isSome = true := by decide +kernel
  obtain ⟨p, he⟩ := isSome_toOption.mp hsome
  obtain ⟨ops, hops, hdecoded⟩ := decode_encode .teleportation (by decide +kernel)
    (fun {q t n} hn => hparams (t, q, n) (Construction.teleportation.wellFormed.mem_visits.mpr hn)) he
  exact ⟨p, ops, he, hops, hdecoded⟩

end Sequencer
