import Sequencer.Proofs.Circuit.Construction
import Sequencer.Proofs.Instruction.Operands

/-!
# Packets

The words of a timeslice are those of its packets. A packet belongs to a
stream, which is a lane or the measurements, and carries the visits whose
operands are in its header word. Streams follow a fixed order but for the one
that ends the timeslice, which comes last; its last packet has the end flag.
-/

namespace Sequencer

open BitField

-- ---------------------------------------------------------------------------
-- Header words of a lane
-- ---------------------------------------------------------------------------

theorem holds_headerWord {l : Lane} {groups : List Group}
    (fits : totalWidth (groups.flatMap Group.fields) ≤ l.room) (last : Bool) :
    (headerWord l last groups).Holds 64
      (.flag last :: ⟨l.category.code, 3⟩ :: (l.flags ++ (groups.flatMap Group.fields ++
        [ones (l.room - totalWidth (groups.flatMap Group.fields))]))) := by
  have hflags := l.totalWidth_flags
  have hroom := l.room_add_flags
  have hword : (headerWord l last groups).Holds 64 _ := Word.holds_ofFields (by
    simp only [totalWidth_append, totalWidth_cons, totalWidth_nil, width_flag, width_ones, hflags,
      headerRoom] at hroom ⊢
    omega)
  simpa only [List.cons_append, List.nil_append, List.append_assoc] using hword

namespace Packing

theorem split_eq {room need : Nat} (hneed : 0 < need) (hroom : need ≤ room) {groups : List Group}
    (h : ∀ g ∈ groups, g.width = need) (free : Nat) :
    split room need free groups =
      groups.take (free / need) :: chunks (room / need) (groups.drop (free / need)) := by
  have hstep {n : Nat} (hn : need ≤ n) : n / need = (n - need) / need + 1 := by
    rw [← Nat.add_div_right _ hneed, Nat.sub_add_cancel hn]
  induction groups generalizing free with
  | nil => simp [split]
  | cons g rest ih =>
    have ih := ih fun f hf => h f (List.mem_cons_of_mem _ hf)
    simp only [split, h g List.mem_cons_self, ih]
    split
    · rename_i hfree
      rw [hstep hfree, List.take_succ_cons, List.drop_succ_cons]
      rfl
    · rename_i hfree
      have hper : 0 < room / need := Nat.div_pos hroom hneed
      rw [Nat.div_eq_of_lt (Nat.lt_of_not_le hfree), List.take_zero, List.drop_zero,
        chunks_eq_cons hper (List.cons_ne_nil _ _), hstep hroom, List.take_succ_cons,
        List.drop_succ_cons]
      rfl

theorem packets_eq {room need : Nat} (hneed : 0 < need) (hroom : need ≤ room) {groups : List Group}
    (h : ∀ g ∈ groups, g.width = need) : packets room need groups = chunks (room / need) groups := by
  cases groups with
  | nil => simp [packets]
  | cons g rest =>
    have hsplit := split_eq hneed hroom (fun f hf => h f (List.mem_cons_of_mem _ hf)) (room - need)
    have hper : room / need = (room - need) / need + 1 := by
      rw [← Nat.add_div_right _ hneed, Nat.sub_add_cancel hroom]
    rw [packets, h g List.mem_cons_self, hsplit,
      chunks_eq_cons (Nat.div_pos hroom hneed) (List.cons_ne_nil _ _), hper, List.take_succ_cons,
      List.drop_succ_cons]
    rfl

end Packing

-- ---------------------------------------------------------------------------
-- Streams
-- ---------------------------------------------------------------------------

/-- The words of a timeslice that are written together: those of a lane, or
the measurements. -/
abbrev Stream := Option Lane

namespace Stream

def all : List Stream := none :: Lane.all.map some

def category : Stream → Category
  | none => .measurement
  | some l => l.category

def ofCategory (k : Category) : List Stream :=
  if k = .measurement then [none] else k.lanes.map some

def before (last : Stream) : List Stream :=
  (Category.emissionOrder.filter fun k => k ≠ last.category).flatMap ofCategory ++
    (ofCategory last.category).filter fun s => s ≠ last

def order (last : Stream) : List Stream := before last ++ [last]

theorem order_perm (last : Stream) : (order last).Perm all := by
  rcases last with _ | l
  · decide
  · cases l <;> decide

theorem mem_order (last s : Stream) : s ∈ order last := by
  refine (order_perm last).mem_iff.mpr ?_
  rcases s with _ | l
  · simp [all]
  · cases l <;> decide

end Stream

namespace SliceContent

def streamWords (s : SliceContent) (y : Layout) : Stream → List Word
  | none => s.measured
  | some l => s.laneWords y l

def flaggedStream (s : SliceContent) (y : Layout) : Stream → List Word
  | none => Word.flagLast s.measured
  | some l => s.flaggedWords y l

theorem closing_eq (s : SliceContent) (y : Layout) : s.closing = Stream.category (s.closingLane? y) := by
  obtain ⟨hnone, hsome⟩ := s.closingLane?_spec y
  cases h : s.closingLane? y with
  | none => simp [closing, hnone h, Stream.category]
  | some l => exact (hsome l h).1.symm

theorem categoryWords_eq (s : SliceContent) (y : Layout) (k : Category) :
    s.categoryWords y k = (Stream.ofCategory k).flatMap (s.streamWords y) := by
  rw [categoryWords, Stream.ofCategory]
  split
  · simp [streamWords]
  · rw [List.flatMap_map]
    rfl

theorem words_eq (s : SliceContent) (y : Layout) :
    s.words y = (Stream.before (s.closingLane? y)).flatMap (s.streamWords y) ++
      s.flaggedStream y (s.closingLane? y) := by
  have hcategories : s.categoryWords y = fun k => (Stream.ofCategory k).flatMap (s.streamWords y) :=
    funext (s.categoryWords_eq y)
  have hclosing := s.closing_eq y
  rw [words, closingWords, hcategories, hclosing, Stream.before, List.flatMap_append, List.append_assoc,
    List.flatMap_assoc]
  congr 1
  cases h : s.closingLane? y with
  | none => simp [Stream.category, Stream.ofCategory, flaggedStream]
  | some l =>
    simp only [Stream.category, Stream.ofCategory, l.category_ne_measurement, if_false, flaggedStream]
    congr 1
    rw [List.filter_map, List.flatMap_map]
    congr 1
    exact List.filter_congr fun a _ => by simp

end SliceContent

-- ---------------------------------------------------------------------------
-- Packets of a circuit
-- ---------------------------------------------------------------------------

/-- A header word with its trailing words, by the visits it carries. -/
structure Packet where
  stream : Stream
  visits : List Visit

namespace Circuit
variable (c : Circuit)

structure Accepted : Prop where
  wellFormed : c.WellFormed
  bits_counted : c.bits.length < Integer.bound
  accepts : ∀ v ∈ c.visits, c.Accepts v

def group (v : Visit) : Group := ((c.written? v).map Prod.snd).getD ⟨[], .none⟩

def laneVisits (t : Int) (l : Lane) : List Visit :=
  c.visits.filter fun v => v.1 = t ∧ (c.written? v).map Prod.fst = some l

def streamPackets (t : Int) : Stream → List Packet
  | none =>
    (c.batches.filter fun b => Batches.slice b = t).flatMap fun b =>
      (chunks (fieldsPerWord c.layout.qubitBits) b).map (Packet.mk none)
  | some l => (chunks (l.room / c.layout.width l) (c.laneVisits t l)).map (Packet.mk (some l))

def packetsAt (t : Int) : List Packet :=
  (Stream.order ((c.contentAt t).closingLane? c.layout)).flatMap (c.streamPackets t)

end Circuit

namespace Packet
variable (c : Circuit)

def words (last : Bool) (p : Packet) : List Word :=
  match p.stream with
  | none => [measuredWord c.layout.qubitBits last (p.visits.map fun v => c.position v.2.1)]
  | some l => packetWords l last (p.visits.map c.group)

/-- The words of packets, the last of which ends the timeslice. -/
def emit : List Packet → List Word
  | [] => []
  | [p] => p.words c true
  | p :: q :: rest => p.words c false ++ emit (q :: rest)

variable {c}

theorem emit_cons (p : Packet) {rest : List Packet} (h : rest ≠ []) :
    emit c (p :: rest) = p.words c false ++ emit c rest := by
  cases rest with
  | nil => exact absurd rfl h
  | cons q rest => rfl

theorem emit_append (a : List Packet) {b : List Packet} (h : b ≠ []) :
    emit c (a ++ b) = a.flatMap (words c false) ++ emit c b := by
  induction a with
  | nil => rfl
  | cons p rest ih =>
    rw [List.cons_append, emit_cons p (by simp [h]), ih, List.flatMap_cons, List.append_assoc]

end Packet

namespace Circuit
variable {c : Circuit}

theorem laneGroups_contentAt (t : Int) (l : Lane) :
    (c.contentAt t).laneGroups l = (c.laneVisits t l).map c.group := by
  simp only [contentAt, content, SliceContent.laneGroups, laneVisits]
  induction c.visits with
  | nil => rfl
  | cons v rest ih =>
    by_cases ht : v.1 = t
    · cases he : c.written? v with
      | none => simpa [ht, he] using ih
      | some e =>
        by_cases hl : e.1 = l
        · simpa [ht, he, hl, group] using ih
        · simpa [ht, he, hl] using ih
    · simpa [ht] using ih

theorem mem_laneVisits {t : Int} {l : Lane} {v : Visit} :
    v ∈ c.laneVisits t l ↔ v ∈ c.visits ∧ v.1 = t ∧ c.written? v = some (l, c.group v) := by
  rw [laneVisits, List.mem_filter, decide_eq_true_eq]
  refine and_congr_right fun _ => and_congr_right fun _ => ?_
  cases he : c.written? v with
  | none => simp
  | some e =>
    obtain ⟨k, g⟩ := e
    simp [group, he]

namespace Accepted
variable (h : c.Accepted)
include h

theorem entry_width {v : Visit} {l : Lane} {g : Group} (hv : v ∈ c.visits)
    (he : c.written? v = some (l, g)) : g.width = c.layout.width l ∧ c.layout.width l ≤ l.room := by
  rcases h.wellFormed.legible h.bits_counted hv (h.accepts v hv) with ⟨hnone, -⟩ | ⟨l', g', o, hlg, -, hleg⟩
  · rw [hnone] at he
    cases he
  · rw [hlg] at he
    cases he
    exact ⟨hleg.width, hleg.fits⟩

theorem packets_eq (t : Int) (l : Lane) :
    (c.contentAt t).packets c.layout l =
      (chunks (l.room / c.layout.width l) (c.laneVisits t l)).map (List.map c.group) := by
  rw [SliceContent.packets, laneGroups_contentAt, ← chunks_map]
  cases hvs : c.laneVisits t l with
  | nil => simp [Packing.packets]
  | cons v rest =>
    have hwidth (w : Visit) (hw : w ∈ c.laneVisits t l) :=
      h.entry_width (mem_laneVisits.mp hw).1 (mem_laneVisits.mp hw).2.2
    refine Packing.packets_eq (c.layout.width_pos l) (hwidth v (hvs ▸ List.mem_cons_self)).2 ?_
    rw [← hvs]
    exact List.forall_mem_map.mpr fun w hw => (hwidth w hw).1

theorem laneWords_eq (t : Int) (l : Lane) :
    (c.contentAt t).laneWords c.layout l = (c.streamPackets t (some l)).flatMap (Packet.words c false) := by
  rw [SliceContent.laneWords, h.packets_eq, streamPackets, List.flatMap_map, List.flatMap_map]
  rfl

theorem flaggedWords_eq (t : Int) (l : Lane) :
    (c.contentAt t).flaggedWords c.layout l = Packet.emit c (c.streamPackets t (some l)) := by
  simp only [SliceContent.flaggedWords, h.packets_eq, streamPackets]
  generalize chunks (l.room / c.layout.width l) (c.laneVisits t l) = pieces
  rcases List.eq_nil_or_concat pieces with rfl | ⟨init, last, rfl⟩
  · rfl
  · rw [List.concat_eq_append, List.map_append, List.map_append, List.map_singleton, List.map_singleton,
      Packet.emit_append _ (List.cons_ne_nil _ _), List.dropLast_concat, List.getLast?_concat,
      List.flatMap_map, List.flatMap_map]
    rfl

end Accepted

theorem batchWords_eq (b : List Visit) :
    c.batchWords b = ((chunks (fieldsPerWord c.layout.qubitBits) b).map (Packet.mk none)).flatMap
      (Packet.words c false) := by
  rw [batchWords, Sequencer.batchWords, chunks_map, List.map_map, List.flatMap_map]
  exact List.map_eq_flatMap

theorem measured_eq (t : Int) :
    (c.contentAt t).measured = (c.streamPackets t none).flatMap (Packet.words c false) := by
  rw [streamPackets, List.flatMap_assoc]
  simp only [contentAt, content]
  congr 1
  exact funext batchWords_eq

theorem flagLast_eq {packets : List Packet} (h : ∀ p ∈ packets, p.stream = none ∧
      p.visits.length ≤ fieldsPerWord c.layout.qubitBits) :
    Word.flagLast (packets.flatMap (Packet.words c false)) = Packet.emit c packets := by
  induction packets with
  | nil => rfl
  | cons p rest ih =>
    obtain ⟨hp, hlen⟩ := h p List.mem_cons_self
    have ih := ih fun q hq => h q (List.mem_cons_of_mem _ hq)
    have hwords (last : Bool) : p.words c last =
        [measuredWord c.layout.qubitBits last (p.visits.map fun v => c.position v.2.1)] := by
      simp [Packet.words, hp]
    cases rest with
    | nil =>
      have hfits : (p.visits.map fun v => c.position v.2.1).length * c.layout.qubitBits ≤ headerRoom :=
        length_mul_le (by simpa using hlen)
      simp [Packet.emit, hwords, Word.flagLast, measuredWord_flag hfits]
    | cons q rest =>
      obtain ⟨hq, -⟩ := h q (by simp)
      have hne : (q :: rest).flatMap (Packet.words c false) ≠ [] := by simp [Packet.words, hq]
      rw [Packet.emit_cons p (List.cons_ne_nil _ _), ← ih, List.flatMap_cons, hwords]
      cases hwords : (q :: rest).flatMap (Packet.words c false) with
      | nil => exact absurd hwords hne
      | cons w ws => rfl

theorem mem_streamPackets_none {t : Int} {p : Packet} (h : p ∈ c.streamPackets t none) :
    p.stream = none ∧ p.visits.length ≤ fieldsPerWord c.layout.qubitBits := by
  simp only [streamPackets, List.mem_flatMap, List.mem_map] at h
  obtain ⟨b, -, piece, hpiece, rfl⟩ := h
  exact ⟨rfl, length_le_of_mem_chunks hpiece⟩

namespace Accepted
variable (h : c.Accepted)
include h

theorem closing_ne_nil {t : Int} (ht : (c.contentAt t).present?.isSome = true) :
    c.streamPackets t ((c.contentAt t).closingLane? c.layout) ≠ [] := by
  obtain ⟨hnone, hsome⟩ := (c.contentAt t).closingLane?_spec c.layout
  cases hl : (c.contentAt t).closingLane? c.layout with
  | none =>
    intro hempty
    have hmeasured : (c.contentAt t).measured = [] := by rw [measured_eq, hempty, List.flatMap_nil]
    simp [SliceContent.present?, hnone hl, hmeasured] at ht
  | some l =>
    have hvisits : c.laneVisits t l ≠ [] := by
      have := (hsome l hl).2
      rw [laneGroups_contentAt] at this
      simpa using this
    obtain ⟨v, hv⟩ := List.exists_mem_of_ne_nil _ hvisits
    obtain ⟨hv, -, he⟩ := mem_laneVisits.mp hv
    have hfits := (h.entry_width hv he).2
    simpa [streamPackets, chunks_eq_nil (Nat.div_pos hfits (c.layout.width_pos l))] using hvisits

theorem words_contentAt {t : Int} (ht : (c.contentAt t).present?.isSome = true) :
    (c.contentAt t).words c.layout = Packet.emit c (c.packetsAt t) := by
  have hstream (s : Stream) : (c.contentAt t).streamWords c.layout s =
      (c.streamPackets t s).flatMap (Packet.words c false) := by
    cases s with
    | none => exact measured_eq t
    | some l => exact h.laneWords_eq t l
  have hflagged (s : Stream) : (c.contentAt t).flaggedStream c.layout s =
      Packet.emit c (c.streamPackets t s) := by
    cases s with
    | none =>
      rw [SliceContent.flaggedStream, measured_eq]
      exact flagLast_eq fun p hp => mem_streamPackets_none hp
    | some l => exact h.flaggedWords_eq t l
  rw [SliceContent.words_eq, packetsAt, Stream.order, List.flatMap_append, List.flatMap_singleton,
    Packet.emit_append _ (h.closing_ne_nil ht), hflagged, List.flatMap_assoc]
  congr 2
  exact funext hstream

end Accepted

-- ---------------------------------------------------------------------------
-- Visits of packets
-- ---------------------------------------------------------------------------

def streamVisits (c : Circuit) (t : Int) : Stream → List Visit
  | none => (c.batches.filter fun b => Batches.slice b = t).flatten
  | some l => c.laneVisits t l

theorem stream_of_mem {t : Int} {s : Stream} {p : Packet} (h : p ∈ c.streamPackets t s) :
    p.stream = s := by
  cases s with
  | none => exact (mem_streamPackets_none h).1
  | some l =>
    obtain ⟨piece, -, rfl⟩ := List.mem_map.mp h
    rfl

theorem mem_writtenSlices_of_written {v : Visit} {e : Lane × Group} (hv : v ∈ c.visits)
    (he : c.written? v = some e) : v.1 ∈ c.writtenSlices := by
  have hgroups : (c.contentAt v.1).groups ≠ [] :=
    List.ne_nil_of_mem (List.mem_filterMap.mpr ⟨v, List.mem_filter.mpr ⟨hv, by simp⟩, he⟩)
  refine List.mem_filter.mpr ⟨mem_slices.mpr (mem_visits.mp hv).1, ?_⟩
  simp [SliceContent.present?, hgroups]

namespace Accepted
variable (h : c.Accepted)
include h

theorem flatten_batch_chunks {b : List Visit} (hb : b ∈ c.batches) :
    (chunks (fieldsPerWord c.layout.qubitBits) b).flatten = b := by
  obtain ⟨v, hv⟩ := List.exists_mem_of_ne_nil _ (ne_nil_of_mem_batches hb)
  obtain ⟨hmem, hmeasured⟩ := mem_of_mem_batches hb hv
  exact flatten_chunks (Nat.div_pos ((h.accepts v hmem).field hmeasured) c.layout.qubitBits_pos)

theorem flatten_lane_chunks (t : Int) (l : Lane) :
    (chunks (l.room / c.layout.width l) (c.laneVisits t l)).flatten = c.laneVisits t l := by
  cases hvs : c.laneVisits t l with
  | nil => simp
  | cons v rest =>
    obtain ⟨hmem, -, he⟩ := mem_laneVisits.mp (hvs ▸ List.mem_cons_self : v ∈ c.laneVisits t l)
    exact flatten_chunks (Nat.div_pos (h.entry_width hmem he).2 (c.layout.width_pos l))

theorem visits_streamPackets (t : Int) (s : Stream) :
    (c.streamPackets t s).flatMap Packet.visits = c.streamVisits t s := by
  have hpieces (s : Stream) (pieces : List (List Visit)) :
      (pieces.map (Packet.mk s)).flatMap Packet.visits = pieces.flatten := by
    rw [List.flatMap_map]
    exact List.flatMap_id
  cases s with
  | none =>
    rw [streamPackets, List.flatMap_assoc, streamVisits, List.flatMap_def]
    simp only [hpieces]
    rw [List.map_congr_left fun b hb => h.flatten_batch_chunks (List.mem_filter.mp hb).1, List.map_id']
  | some l => rw [streamPackets, hpieces, h.flatten_lane_chunks, streamVisits]

theorem slice_mem_writtenSlices {b : List Visit}
    (hb : b ∈ c.batches) : Batches.slice b ∈ c.writtenSlices := by
  refine List.mem_filter.mpr ⟨slice_mem_slices hb, ?_⟩
  have hchunks : chunks (fieldsPerWord c.layout.qubitBits) b ≠ [] := by
    intro hnil
    have hb' := h.flatten_batch_chunks hb
    rw [hnil, List.flatten_nil] at hb'
    exact ne_nil_of_mem_batches hb hb'.symm
  have hmeasured : (c.contentAt (Batches.slice b)).measured ≠ [] := by
    intro hnil
    have := List.flatMap_eq_nil_iff.mp hnil b (List.mem_filter.mpr ⟨hb, by simp⟩)
    simp [batchWords, Sequencer.batchWords, chunks_map, hchunks] at this
  simp [SliceContent.present?, hmeasured]

end Accepted

end Circuit

theorem Construction.encode_ok (k : Construction) {p : InstructionProgram} (he : k.circuit.encode = .ok p) :
    k.circuit.Accepted ∧ p.slices = k.circuit.writtenSlices.map fun t =>
      ⟨t, (k.circuit.contentAt t).words k.circuit.layout⟩ := by
  obtain ⟨haccepts, hslices⟩ := k.wellFormed.encode_ok k.numQubits_lt he
  exact ⟨⟨k.wellFormed, k.bits_length_lt, haccepts⟩, hslices⟩

end Sequencer
