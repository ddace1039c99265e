import Mathlib.Data.List.DropRight
import Sequencer.Proofs.Instruction.Concatenation
import Sequencer.Proofs.Instruction.QubitOrder

/-!
# Groups that read as padding

A group whose bits are all set, with no clear bit behind it in its header word,
is lost as padding unless it is the first one of the word. Only a measurement,
a reset or a decoherence of the highest qubit of a power of two has such a
group. The header word is the same as if the lost groups had not been written,
but the trailing words were written for them too. A decoherence word with an
odd number of groups, the last of them lost, therefore leaves a word with a
probability behind, and reading goes on with that word as a header word.
-/

namespace Sequencer

open BitField

-- ---------------------------------------------------------------------------
-- Set bits
-- ---------------------------------------------------------------------------

namespace BitField

def isFull (fs : List BitField) : Bool := fs.all fun f => f.bits == 2 ^ f.width - 1

theorem isFull_iff {fs : List BitField} : isFull fs = true ↔ ∀ f ∈ fs, f.bits = 2 ^ f.width - 1 := by
  simp [isFull]

theorem clear_iff {fs : List BitField} : Clear fs ↔ ¬ isFull fs = true := by
  rw [isFull_iff, Clear]
  push Not
  rfl

theorem ofFields_full (fs : List BitField) {gs : List BitField} (h : isFull gs = true) (n : Nat) :
    Word.ofFields (fs ++ gs ++ [ones n]) = Word.ofFields (fs ++ [ones (totalWidth gs + n)]) := by
  have hgs : concat (gs ++ [ones n]) = 2 ^ totalWidth (gs ++ [ones n]) - 1 := by
    refine concat_eq_ones.mpr fun f hf => ?_
    rcases List.mem_append.mp hf with hf | hf
    · exact isFull_iff.mp h f hf
    · obtain rfl := List.mem_singleton.mp hf
      simp
  have hones : concat [ones (totalWidth gs + n)] = 2 ^ totalWidth [ones (totalWidth gs + n)] - 1 :=
    concat_eq_ones.mpr (by simp)
  have hwidth : totalWidth (gs ++ [ones n]) = totalWidth [ones (totalWidth gs + n)] := by simp
  rw [List.append_assoc, Word.ofFields, Word.ofFields, concat_append fs, concat_append fs, hgs, hones, hwidth]

end BitField

theorem headerWord_append {l : Lane} {kept lost : List Group} (last : Bool)
    (hfull : ∀ g ∈ lost, isFull g.fields = true)
    (fits : totalWidth ((kept ++ lost).flatMap Group.fields) ≤ l.room) :
    headerWord l last (kept ++ lost) = headerWord l last kept := by
  have hlost : isFull (lost.flatMap Group.fields) = true := by
    refine isFull_iff.mpr fun f hf => ?_
    obtain ⟨g, hg, hf⟩ := List.mem_flatMap.mp hf
    exact isFull_iff.mp (hfull g hg) f hf
  rw [List.flatMap_append, totalWidth_append] at fits
  simp only [headerWord, List.flatMap_append, totalWidth_append]
  rw [← List.append_assoc, ofFields_full _ hlost]
  congr 4
  omega

theorem measuredWord_append {w : Nat} {kept lost : List Nat} (last : Bool)
    (hfull : ∀ q ∈ lost, isFull [⟨q, w⟩] = true) (fits : (kept ++ lost).length * w ≤ headerRoom) :
    measuredWord w last (kept ++ lost) = measuredWord w last kept := by
  have hlost : isFull (lost.map fun q => ⟨q, w⟩) = true := by
    refine isFull_iff.mpr (List.forall_mem_map.mpr fun q hq => ?_)
    exact isFull_iff.mp (hfull q hq) _ (List.mem_singleton_self _)
  have hhead : measuredHead w last (kept ++ lost) = measuredHead w last kept ++ lost.map fun q => ⟨q, w⟩ := by
    simp [measuredHead]
  rw [measuredWord, measuredWord, hhead, ofFields_full _ hlost, totalWidth_fields]
  congr 4
  simp only [measuredRoom, List.length_append, Nat.add_mul] at fits ⊢
  omega

section
variable {y : Layout} {items : List (Group × StreamOperation)}

/-- The probability of a decoherence that looks like padding is used up with
the one before it, or has a word to itself that is left. -/
theorem Reads.lossy_decoherence {lost : Group} {q : Fixed} (last : Bool) (hne : items ≠ [])
    (hitems : ∀ i ∈ items, Legible y .decoherence i.1 i.2) (hcarries : ∀ i ∈ items, i.2.Carries i.1.trail)
    (hlen : items.length ≤ Lane.decoherence.room / y.width .decoherence)
    (hclear : ∀ i ∈ items.tail.getLast?, Clear i.1.fields) (hfull : isFull lost.fields = true)
    (fits : totalWidth ((items.map Prod.fst ++ [lost]).flatMap Group.fields) ≤ Lane.decoherence.room)
    (hq : lost.trail = .probability q) :
    ∃ init rest, packetWords .decoherence last (items.map Prod.fst ++ [lost]) = init ++ rest ∧
      rest.length = (if (items.length + 1) % 2 = 1 then 1 else 0) ∧
      Reads y init last.toNat (items.map fun i => i.2.placed 0 last) := by
  have hall (i : Group × StreamOperation) (hi : i ∈ items) :
      i.2.category = .decoherence ∧ ∃ p, i.1.trail = .probability p :=
    ⟨(hitems i hi).category, (hitems i hi).probability.mp rfl⟩
  have hangles := angleWords_eq_nil fun i hi => (hall i hi).2
  have hcount := length_probabilities fun i hi => (hall i hi).2
  have hwords : packetWords .decoherence last (items.map Prod.fst ++ [lost]) =
      headerWord .decoherence last (items.map Prod.fst) ::
        probabilityWords (probabilities (items.map Prod.fst) ++ [q]) := by
    rw [packetWords, headerWord_append last (by simpa using hfull) fits, trailingWords,
      angleWords_append, probabilities_append, hangles]
    simp [angleWords, probabilities, hq]
  by_cases hodd : items.length % 2 = 1
  · refine ⟨_, [], hwords.trans (List.append_nil _).symm, ?_, Reads.header hne hitems hlen hclear ?_ ?_⟩
    · rw [if_neg (by omega)]
      rfl
    · rw [trailingCount_bare (Reads.oneKind_of_legible hitems) hcarries, trailingWords, hangles,
        List.nil_append, length_probabilityWords, length_probabilityWords, hcount, List.length_append,
        hcount, List.length_singleton]
      omega
    · exact attach_probabilities hne hcarries hall [q]
  · refine ⟨packetWords .decoherence last (items.map Prod.fst), probabilityWords [q], ?_, ?_,
      Reads.lane hne hitems hcarries hlen hclear⟩
    · rw [hwords, probabilityWords_append (by rw [hcount]; omega), packetWords, trailingWords, hangles]
      rfl
    · rw [if_pos (by omega)]
      rfl

/-- A packet is read without groups that look like padding. Its words are used
up, but for the probability of such a group that has a word to itself. -/
theorem Reads.lossy {l : Lane} {lost : List Group} (last : Bool) (hne : items ≠ [])
    (hitems : ∀ i ∈ items, Legible y l i.1 i.2) (hcarries : ∀ i ∈ items, i.2.Carries i.1.trail)
    (hlen : items.length ≤ l.room / y.width l) (hclear : ∀ i ∈ items.tail.getLast?, Clear i.1.fields)
    (hfull : ∀ g ∈ lost, isFull g.fields = true) (hone : lost.length ≤ 1)
    (fits : totalWidth ((items.map Prod.fst ++ lost).flatMap Group.fields) ≤ l.room)
    (hplain : l ≠ .decoherence → ∀ g ∈ lost, g.trail = .none)
    (hprobability : l = .decoherence → ∀ g ∈ lost, ∃ q, g.trail = .probability q) :
    ∃ init rest, packetWords l last (items.map Prod.fst ++ lost) = init ++ rest ∧
      rest.length = (if l = .decoherence ∧ (items.length + lost.length) % 2 = 1 ∧ lost ≠ [] then 1 else 0) ∧
      Reads y init last.toNat (items.map fun i => i.2.placed 0 last) := by
  have hlane : Reads y (packetWords l last (items.map Prod.fst)) last.toNat _ :=
    Reads.lane hne hitems hcarries hlen hclear
  by_cases hl : l = .decoherence
  · subst hl
    rcases lost with _ | ⟨g, _ | ⟨_, _⟩⟩
    · exact ⟨packetWords .decoherence last (items.map Prod.fst), [], by simp, by simp, hlane⟩
    · obtain ⟨q, hq⟩ := hprobability rfl g List.mem_cons_self
      obtain ⟨init, rest, hwords, hrest, hread⟩ := Reads.lossy_decoherence last hne hitems hcarries hlen
        hclear (hfull g List.mem_cons_self) fits hq
      exact ⟨init, rest, hwords, by simpa using hrest, hread⟩
    · simp at hone
  · have hnone := hplain hl
    have hangles : angleWords lost = [] :=
      List.filterMap_eq_nil_iff.mpr fun g hg => by simp [hnone g hg]
    have hprobabilities : probabilities lost = [] :=
      List.filterMap_eq_nil_iff.mpr fun g hg => by simp [hnone g hg]
    refine ⟨packetWords l last (items.map Prod.fst), [], ?_, ?_, hlane⟩
    · rw [packetWords, headerWord_append last hfull fits, trailingWords, angleWords_append,
        probabilities_append, hangles, hprobabilities, List.append_nil, List.append_nil, List.append_nil]
      rfl
    · rw [if_neg fun hover => hl hover.1]
      rfl

end

-- ---------------------------------------------------------------------------
-- Packets
-- ---------------------------------------------------------------------------

namespace Packet
variable (c : Circuit) (p : Packet)

def fields (v : Visit) : List BitField :=
  match p.stream with
  | none => [⟨c.position v.2.1, c.layout.qubitBits⟩]
  | some _ => (c.group v).fields

/-- The visits that are told from padding: the first one, and those up to the
last one with a clear bit. -/
def kept : List Visit := p.visits.take 1 ++ (p.visits.drop 1).rdropWhile fun v => isFull (p.fields c v)

def lost : List Visit := (p.visits.drop 1).rtakeWhile fun v => isFull (p.fields c v)

/-- A decoherence packet with an odd number of groups whose last one is lost. -/
def Overhangs : Prop :=
  p.stream = some .decoherence ∧ p.visits.length % 2 = 1 ∧ p.lost c ≠ []

instance : Decidable (p.Overhangs c) := inferInstanceAs (Decidable (_ ∧ _ ∧ _))

theorem kept_append_lost : p.kept c ++ p.lost c = p.visits := by
  rw [kept, lost, List.append_assoc, List.rdropWhile_append_rtakeWhile, List.take_append_drop]

variable {c p}

theorem fields_none (h : p.stream = none) (v : Visit) :
    p.fields c v = [⟨c.position v.2.1, c.layout.qubitBits⟩] := by
  rw [fields, h]

theorem fields_some {l : Lane} (h : p.stream = some l) (v : Visit) : p.fields c v = (c.group v).fields := by
  rw [fields, h]

theorem mem_of_kept {v : Visit} (h : v ∈ p.kept c) : v ∈ p.visits := by
  rw [← p.kept_append_lost c]
  exact List.mem_append_left _ h

theorem mem_of_lost {v : Visit} (h : v ∈ p.lost c) : v ∈ p.visits := by
  rw [← p.kept_append_lost c]
  exact List.mem_append_right _ h

theorem isFull_of_mem_lost {v : Visit} (h : v ∈ p.lost c) : isFull (p.fields c v) = true :=
  List.mem_rtakeWhile_imp (p := fun v => isFull (p.fields c v)) h

theorem kept_ne_nil (h : p.visits ≠ []) : p.kept c ≠ [] := by
  obtain ⟨v, rest, hvisits⟩ := List.exists_cons_of_ne_nil h
  simp [kept, hvisits]

theorem clear_of_last_kept {v : Visit} (h : v ∈ (p.kept c).tail.getLast?) : Clear (p.fields c v) := by
  have htail : (p.kept c).tail = (p.visits.drop 1).rdropWhile fun v => isFull (p.fields c v) := by
    rw [kept]
    cases p.visits <;> simp
  rw [htail, Option.mem_def] at h
  have hne := List.ne_nil_of_mem (List.mem_of_getLast? h)
  rw [List.getLast?_eq_some_getLast hne] at h
  rw [clear_iff, ← Option.some.inj h]
  exact List.rdropWhile_last_not _ _ hne

end Packet

-- ---------------------------------------------------------------------------
-- Groups with all bits set
-- ---------------------------------------------------------------------------

theorem isFull_index {y : Layout} {i : Nat} (hi : i < y.qubits) {fs : List BitField}
    (hmem : ⟨i, y.qubitBits⟩ ∈ fs) (hfull : isFull fs = true) :
    y.qubits = 2 ^ y.qubitBits ∧ i + 1 = y.qubits := by
  have hbits := isFull_iff.mp hfull _ hmem
  rw [bits_eq (f := ⟨i, y.qubitBits⟩) (Layout.lt_two_pow hi)] at hbits
  have := y.qubits_le_two_pow
  simp only at hbits
  omega

namespace Circuit

theorem fields_of_written {c : Circuit} {v : Visit} {l : Lane} {g : Group} (h : c.written? v = some (l, g)) :
    ⟨c.position v.2.1, c.layout.qubitBits⟩ ∈ g.fields ∧
      (l = .reset ∧ g.trail = .none ∨ l = .decoherence ∨ ∃ p, selectorField p ∈ g.fields) := by
  cases groupOf_ok (groupOf_of_written h).1 with
  | reset => exact ⟨by simp, .inl ⟨rfl, rfl⟩⟩
  | decoherence => exact ⟨by simp, .inr (.inl rfl)⟩
  | @controlled p => exact ⟨by simp, .inr (.inr ⟨p, by simp⟩)⟩
  | @single p => exact ⟨by simp, .inr (.inr ⟨p, by simp⟩)⟩

theorem lane_of_isFull {c : Circuit} {v : Visit} {l : Lane} {g : Group} (h : c.written? v = some (l, g))
    (hfull : isFull g.fields = true) : l = .reset ∧ g.trail = .none ∨ l = .decoherence := by
  rcases (fields_of_written h).2 with hreset | hchannel | ⟨p, hp⟩
  · exact .inl hreset
  · exact .inr hchannel
  · -- a selector is never all ones
    have hbits := isFull_iff.mp hfull _ hp
    rw [bits_eq (f := selectorField p) p.selector_lt] at hbits
    exact absurd hbits (by cases p <;> decide)

end Circuit

-- ---------------------------------------------------------------------------
-- Reading packets
-- ---------------------------------------------------------------------------

namespace Circuit
variable {c : Circuit} {t : Int} {l : Lane} {p : Packet} {v : Visit}

theorem visits_of_measured (hp : p ∈ c.streamPackets t none) :
    p.visits ≠ [] ∧ ∀ v ∈ p.visits, v ∈ c.visits := by
  simp only [streamPackets, List.mem_flatMap, List.mem_map] at hp
  obtain ⟨b, hb, piece, hpiece, rfl⟩ := hp
  refine ⟨ne_nil_of_mem_chunks hpiece, fun v hv => ?_⟩
  exact (mem_of_mem_batches (List.mem_filter.mp hb).1 (mem_of_mem_chunks hpiece hv)).1

theorem visits_of_lane (hp : p ∈ c.streamPackets t (some l)) :
    p.visits ≠ [] ∧ p.visits.length ≤ l.room / c.layout.width l ∧
      ∀ v ∈ p.visits, v ∈ c.visits ∧ v.1 = t ∧ c.written? v = some (l, c.group v) := by
  simp only [streamPackets, List.mem_map] at hp
  obtain ⟨piece, hpiece, rfl⟩ := hp
  exact ⟨ne_nil_of_mem_chunks hpiece, length_le_of_mem_chunks hpiece,
    fun v hv => mem_laneVisits.mp (mem_of_mem_chunks hpiece hv)⟩

/-- Every lost visit is of the highest qubit. -/
theorem highest_of_lost {s : Stream} (hp : p ∈ c.streamPackets t s) (hv : v ∈ p.lost c) :
    c.layout.qubits = 2 ^ c.layout.qubitBits ∧ c.position v.2.1 + 1 = c.layout.qubits ∧
      (s = none ∨ s = some .reset ∨ s = some .decoherence) := by
  have hfull := Packet.isFull_of_mem_lost hv
  cases s with
  | none =>
    have hvisit := (visits_of_measured hp).2 v (Packet.mem_of_lost hv)
    rw [Packet.fields_none (stream_of_mem hp)] at hfull
    obtain ⟨hpower, hhighest⟩ := isFull_index (position_lt (mem_visits.mp hvisit).2.1)
      (List.mem_singleton_self _) hfull
    exact ⟨hpower, hhighest, .inl rfl⟩
  | some l =>
    obtain ⟨hvisit, -, he⟩ := (visits_of_lane hp).2.2 v (Packet.mem_of_lost hv)
    rw [Packet.fields_some (stream_of_mem hp)] at hfull
    obtain ⟨hpower, hhighest⟩ := isFull_index (position_lt (mem_visits.mp hvisit).2.1)
      (fields_of_written he).1 hfull
    refine ⟨hpower, hhighest, .inr ?_⟩
    rcases lane_of_isFull he hfull with ⟨rfl, -⟩ | rfl
    · exact .inl rfl
    · exact .inr rfl

namespace Accepted
variable (h : c.Accepted)
include h

theorem length_lost_le (hp : p ∈ c.streamPackets t (some l)) : (p.lost c).length ≤ 1 := by
  have hsublist : (p.lost c).Sublist p.visits :=
    (List.rtakeWhile_suffix _ _).sublist.trans (List.drop_sublist 1 p.visits)
  have hnodup : (p.lost c).Nodup := by
    refine .sublist (hsublist.trans ?_) (h.wellFormed.nodup_streamVisits t (some l))
    rw [← h.visits_streamPackets, List.flatMap_def]
    exact List.sublist_flatten_of_mem (List.mem_map_of_mem hp)
  have hsame : ∀ v ∈ p.lost c, ∀ w ∈ p.lost c, v = w := by
    rintro ⟨s, q, m⟩ hv ⟨r, q', n⟩ hw
    obtain ⟨hvisit, hs, -⟩ := (visits_of_lane hp).2.2 _ (Packet.mem_of_lost hv)
    obtain ⟨hvisit', hr, -⟩ := (visits_of_lane hp).2.2 _ (Packet.mem_of_lost hw)
    obtain rfl : s = r := hs.trans hr.symm
    have hposition := (highest_of_lost hp hv).2.1.trans (highest_of_lost hp hw).2.1.symm
    obtain rfl : q = q' := (position_inj (Circuit.mem_visits.mp hvisit).2.1).mp (Nat.succ.inj hposition)
    have hm : c.at? q s = some m := h.wellFormed.mem_visits.mp hvisit
    have hn : c.at? q s = some n := h.wellFormed.mem_visits.mp hvisit'
    rw [Option.some.inj (hm.symm.trans hn)]
  rcases hlost : p.lost c with _ | ⟨v, _ | ⟨w, rest⟩⟩
  · exact Nat.zero_le 1
  · exact Nat.le_refl 1
  · rw [hlost] at hnodup hsame
    have := hsame v List.mem_cons_self w (by simp)
    simp [this] at hnodup

end Accepted

theorem reads_measured (hp : p ∈ c.streamPackets t none) (last : Bool) :
    Reads c.layout (p.words c last) last.toNat
      ((c.operationsOf p.stream (p.kept c)).map (Operation.placed 0 last)) := by
  have hstream := stream_of_mem hp
  obtain ⟨hne, hvisits⟩ := visits_of_measured hp
  have hlen := (mem_streamPackets_none hp).2
  let positions (vs : List Visit) := vs.map fun v => c.position v.2.1
  have hsplit : positions p.visits = positions (p.kept c) ++ positions (p.lost c) := by
    rw [← List.map_append, p.kept_append_lost]
  have hlost : ∀ q ∈ positions (p.lost c), isFull [⟨q, c.layout.qubitBits⟩] = true := by
    refine List.forall_mem_map.mpr fun v hv => ?_
    rw [← Packet.fields_none hstream v]
    exact Packet.isFull_of_mem_lost hv
  have hfits : (positions (p.kept c) ++ positions (p.lost c)).length * c.layout.qubitBits ≤ headerRoom := by
    rw [← hsplit]
    exact length_mul_le (by simpa [positions] using hlen)
  have hword : p.words c last = [measuredWord c.layout.qubitBits last (positions (p.kept c))] := by
    rw [← measuredWord_append last hlost hfits, ← hsplit, Packet.words, hstream]
  have hlt : ∀ q ∈ positions (p.kept c), q < c.layout.qubits :=
    List.forall_mem_map.mpr fun v hv => position_lt (mem_visits.mp (hvisits v (Packet.mem_of_kept hv))).2.1
  have hclear : ∀ q ∈ (positions (p.kept c)).tail.getLast?, q + 1 < 2 ^ c.layout.qubitBits := by
    intro q hq
    rw [← List.map_tail, List.getLast?_map] at hq
    obtain ⟨v, hv, rfl⟩ := Option.map_eq_some_iff.mp hq
    have hlt := Layout.lt_two_pow (hlt _ (List.mem_map_of_mem (List.mem_of_mem_tail (List.mem_of_getLast? hv))))
    obtain ⟨f, hf, hbits⟩ := Packet.fields_none hstream v ▸ Packet.clear_of_last_kept hv
    rw [List.mem_singleton.mp hf, bits_eq (f := ⟨c.position v.2.1, c.layout.qubitBits⟩) hlt] at hbits
    simp only at hbits
    omega
  have hkept : (p.kept c).length ≤ p.visits.length := by
    rw [← p.kept_append_lost c, List.length_append]
    omega
  have hread : Reads c.layout [measuredWord c.layout.qubitBits last (positions (p.kept c))] last.toNat _ :=
    Reads.measured (by simpa [positions] using Packet.kept_ne_nil hne)
      (by simpa [positions] using Nat.le_trans hkept hlen) hlt hclear
  rw [hword]
  simpa [hstream, operationsOf, positions, Function.comp_def, Operation.placed, measurement] using hread

/-- The words of a lane are read as what the header word keeps; an overhanging
packet leaves its last word unread. -/
theorem Accepted.reads_lane (h : c.Accepted)
    (hparams : ∀ v ∈ c.visits, Gate.encodesAngle v.2.2.gate = true → v.2.2.params ≠ [])
    (hp : p ∈ c.streamPackets t (some l)) (last : Bool) :
    ∃ init rest, p.words c last = init ++ rest ∧ rest.length = (if p.Overhangs c then 1 else 0) ∧
      Reads c.layout init last.toNat ((c.operationsOf p.stream (p.kept c)).map (Operation.placed 0 last)) := by
  have hstream := stream_of_mem hp
  obtain ⟨hne, hlen, hvisits⟩ := visits_of_lane hp
  have hsplit : p.visits.map c.group = (p.kept c).map c.group ++ (p.lost c).map c.group := by
    rw [← List.map_append, p.kept_append_lost]
  obtain ⟨items, hfst, hsnd, hall⟩ := exists_items
    (P := fun g o => Legible c.layout l g o ∧ o.Carries g.trail) (p.kept c) fun v hv => by
      obtain ⟨hvisit, -, he⟩ := hvisits v (Packet.mem_of_kept hv)
      obtain ⟨o, ho, hlegible⟩ := h.legible_group hvisit he
      exact ⟨o, ho, hlegible, hlegible.carries (angle_ne_none ho (hparams v hvisit))⟩
  have hlength : items.length = (p.kept c).length := by simpa using congrArg List.length hfst
  have hcount : items.length + ((p.lost c).map c.group).length = p.visits.length := by
    rw [hlength, List.length_map, ← List.length_append, p.kept_append_lost]
  have hclear : ∀ i ∈ items.tail.getLast?, Clear i.1.fields := by
    intro i hi
    have hi' : i.1 ∈ ((p.kept c).map c.group).tail.getLast? := by
      rw [← hfst, ← List.map_tail, List.getLast?_map]
      exact Option.map_eq_some_iff.mpr ⟨i, hi, rfl⟩
    rw [← List.map_tail, List.getLast?_map] at hi'
    obtain ⟨v, hv, heq⟩ := Option.map_eq_some_iff.mp hi'
    rw [← heq, ← Packet.fields_some hstream]
    exact Packet.clear_of_last_kept hv
  have hlost {g : Group} (hg : g ∈ (p.lost c).map c.group) :
      isFull g.fields = true ∧ (l = .reset ∧ g.trail = .none ∨ l = .decoherence) ∧
        (l = .decoherence → ∃ q, g.trail = .probability q) := by
    obtain ⟨v, hv, rfl⟩ := List.mem_map.mp hg
    obtain ⟨hvisit, -, he⟩ := hvisits v (Packet.mem_of_lost hv)
    obtain ⟨o, -, hlegible⟩ := h.legible_group hvisit he
    have hfull := Packet.fields_some hstream v ▸ Packet.isFull_of_mem_lost hv
    exact ⟨hfull, lane_of_isFull he hfull, hlegible.probability.mp⟩
  have hfits : totalWidth ((items.map Prod.fst ++ (p.lost c).map c.group).flatMap Group.fields) ≤ l.room := by
    rw [hfst, ← hsplit, List.flatMap_map,
      totalWidth_flatMap fun v hv => (h.entry_width (hvisits v hv).1 (hvisits v hv).2.2).1]
    exact Nat.le_trans (Nat.mul_le_mul_right _ hlen) (Nat.div_mul_le_self _ _)
  obtain ⟨init, rest, hwords, hrest, hread⟩ := Reads.lossy last
    (List.length_pos_iff.mp (hlength ▸ List.length_pos_iff.mpr (Packet.kept_ne_nil hne)))
    (fun i hi => (hall i hi).1) (fun i hi => (hall i hi).2) (Nat.le_trans (by omega) hlen) hclear
    (fun g hg => (hlost hg).1) (by simpa using h.length_lost_le hp) hfits
    (fun hl g hg => (hlost hg).2.1.elim And.right fun hd => absurd hd hl) (fun hl g hg => (hlost hg).2.2 hl)
  refine ⟨init, rest, ?_, ?_, ?_⟩
  · rw [← hwords, hfst, ← hsplit, Packet.words, hstream]
  · rw [hrest, hcount]
    simp [Packet.Overhangs, hstream]
  · rw [hstream]
    have hops : (items.map fun i => i.2.placed 0 last) =
        ((p.kept c).filterMap c.operation?).map (Operation.placed 0 last) := by
      rw [← hsnd, List.map_map]
      rfl
    exact hops ▸ hread

theorem Accepted.reads_kept (h : c.Accepted)
    (hparams : ∀ v ∈ c.visits, Gate.encodesAngle v.2.2.gate = true → v.2.2.params ≠ []) {s : Stream}
    (hp : p ∈ c.streamPackets t s) (last : Bool) :
    ∃ init rest, p.words c last = init ++ rest ∧ rest.length = (if p.Overhangs c then 1 else 0) ∧
      Reads c.layout init last.toNat ((c.operationsOf p.stream (p.kept c)).map (Operation.placed 0 last)) := by
  cases s with
  | none =>
    refine ⟨_, [], (List.append_nil _).symm, ?_, reads_measured hp last⟩
    simp [Packet.Overhangs, stream_of_mem hp]
  | some l => exact h.reads_lane hparams hp last

end Circuit

-- ---------------------------------------------------------------------------
-- Programs
-- ---------------------------------------------------------------------------

namespace Packet
variable (c : Circuit)

def readings : List (Bool × Packet) → List StreamOperation
  | [] => []
  | x :: rest =>
    (c.operationsOf x.2.stream (x.2.kept c)).map (Operation.placed 0 x.1) ++
      (readings rest).map (Operation.later x.1.toNat)

variable {c}

theorem countP_flags_cons (x : Bool × Packet) (xs : List (Bool × Packet)) :
    (x :: xs).countP Prod.fst = x.1.toNat + xs.countP Prod.fst := by
  rw [List.countP_cons, Nat.add_comm]
  cases x.1 <;> rfl

theorem readings_concat (xs : List (Bool × Packet)) (x : Bool × Packet) :
    readings c (xs ++ [x]) = readings c xs ++
      ((c.operationsOf x.2.stream (x.2.kept c)).map (Operation.placed 0 x.1)).map
        (Operation.later (xs.countP Prod.fst)) := by
  induction xs with
  | nil => simp [readings, show Operation.later 0 = id from rfl]
  | cons y rest ih =>
    have hlater : Operation.later y.1.toNat ∘ Operation.later (rest.countP Prod.fst) =
        Operation.later ((y :: rest).countP Prod.fst) := by
      funext o
      rw [countP_flags_cons, Nat.add_comm]
      simp only [Operation.later, Function.comp, Nat.add_assoc]
    rw [List.cons_append, readings, ih, readings, List.map_append, List.map_map (g := Operation.later y.1.toNat), hlater,
      List.append_assoc]

end Packet

namespace Circuit
variable {c : Circuit}

open Packet

theorem exists_stream_of_sent {x : Bool × Packet} (hx : x ∈ c.sent) : ∃ t s, x.2 ∈ c.streamPackets t s := by
  have hmem := List.mem_map_of_mem (f := Prod.snd) hx
  rw [map_snd_sent] at hmem
  obtain ⟨⟨t, s⟩, -, hp⟩ := List.mem_flatMap.mp hmem
  exact ⟨t, s, hp⟩

namespace Accepted
variable (h : c.Accepted)
variable (hparams : ∀ v ∈ c.visits, Gate.encodesAngle v.2.2.gate = true → v.2.2.params ≠ [])
include h hparams

theorem reads_wordsOf {xs : List (Bool × Packet)} (hxs : ∀ x ∈ xs, x ∈ c.sent)
    (hover : ∀ x ∈ xs, ¬ x.2.Overhangs c) :
    Reads c.layout (wordsOf c xs) (xs.countP Prod.fst) (readings c xs) := by
  induction xs with
  | nil => exact .nil
  | cons x rest ih =>
    obtain ⟨t, s, hp⟩ := exists_stream_of_sent (hxs x List.mem_cons_self)
    obtain ⟨init, tail, hwords, htail, hread⟩ := h.reads_kept hparams hp x.1
    rw [if_neg (hover x List.mem_cons_self)] at htail
    rw [List.eq_nil_of_length_eq_zero htail, List.append_nil] at hwords
    have hrest := ih (fun y hy => hxs y (List.mem_cons_of_mem _ hy)) fun y hy => hover y (List.mem_cons_of_mem _ hy)
    rw [countP_flags_cons]
    exact (hwords ▸ hread).append hrest

/-- Behind the first packet that overhangs, its last word is read as a header word. -/
theorem decode_overhanging {front back : List (Bool × Packet)} {x : Bool × Packet}
    (hsent : c.sent = front ++ x :: back) (hfront : ∀ y ∈ front, ¬ y.2.Overhangs c) (hx : x.2.Overhangs c) :
    ∃ init w, wordsOf c (front ++ [x]) = init ++ [w] ∧
      Outcomes (fun more all =>
          all = readings c (front ++ [x]) ++ more.map (Operation.later ((front ++ [x]).countP Prod.fst)))
        (decode (w :: wordsOf c back) c.numQubits) (decode (wordsOf c c.sent) c.numQubits) := by
  have hmem : ∀ y ∈ front ++ [x], y ∈ c.sent := by
    intro y hy
    rw [hsent, List.append_cons]
    exact List.mem_append_left _ hy
  obtain ⟨t, s, hp⟩ := exists_stream_of_sent (hmem x (by simp))
  obtain ⟨init, tail, hwords, htail, hread⟩ := h.reads_kept hparams hp x.1
  rw [if_pos hx] at htail
  obtain ⟨w, rfl⟩ := List.length_eq_one_iff.mp htail
  have hboth := (h.reads_wordsOf hparams (fun y hy => hmem y (List.mem_append_left _ hy)) hfront).append hread
  rw [← readings_concat] at hboth
  have hcount : (front ++ [x]).countP Prod.fst = front.countP Prod.fst + x.1.toNat := by
    rw [List.countP_append, countP_flags_cons]
    rfl
  refine ⟨wordsOf c front ++ init, w, ?_, ?_⟩
  · simp [wordsOf, hwords]
  · have hall : wordsOf c c.sent = wordsOf c front ++ init ++ w :: wordsOf c back := by
      simp [wordsOf, hsent, hwords]
    rw [hall, hcount]
    exact decode_after_reads hboth _

end Accepted
end Circuit

/-- Decoding gives the operations of a program but for groups that look like
padding, which are of the highest qubit of a power of two, as long as no packet
overhangs. Behind the first packet that does, reading goes on with its last
word as a header word. -/
theorem decode_encode_kept (k : Construction)
    (hparams : ∀ {q t n}, k.circuit.at? q t = some n → Gate.encodesAngle n.gate = true → n.params ≠ [])
    {p : InstructionProgram} (he : k.circuit.encode = .ok p) :
    p.words = Packet.wordsOf k.circuit k.circuit.sent ∧ (Packet.visitsOf k.circuit.sent).Nodup ∧
      (∀ v, v ∈ Packet.visitsOf k.circuit.sent ↔ v ∈ k.circuit.visits ∧ (k.circuit.encoded? v).isSome = true) ∧
      (∀ x ∈ k.circuit.sent, ∀ v ∈ x.2.lost k.circuit, k.circuit.numQubits.isPowerOfTwo ∧
        k.circuit.position v.2.1 + 1 = k.circuit.numQubits ∧
        (x.2.stream = none ∨ x.2.stream = some .reset ∨ x.2.stream = some .decoherence)) ∧
      ((∀ x ∈ k.circuit.sent, ¬ x.2.Overhangs k.circuit) →
        decode p.words k.circuit.numQubits = .ok (Packet.readings k.circuit k.circuit.sent)) ∧
      ∀ front x back, k.circuit.sent = front ++ x :: back → (∀ y ∈ front, ¬ y.2.Overhangs k.circuit) →
        x.2.Overhangs k.circuit →
          ∃ init w, Packet.wordsOf k.circuit (front ++ [x]) = init ++ [w] ∧
            Outcomes (fun more all => all = Packet.readings k.circuit (front ++ [x]) ++
                more.map (Operation.later ((front ++ [x]).countP Prod.fst)))
              (decode (w :: Packet.wordsOf k.circuit back) k.circuit.numQubits)
              (decode p.words k.circuit.numQubits) := by
  obtain ⟨haccepted, hslices⟩ := k.encode_ok he
  have hwords := haccepted.words_eq_sent hslices
  have hparams' : ∀ v ∈ k.circuit.visits, Gate.encodesAngle v.2.2.gate = true → v.2.2.params ≠ [] :=
    fun v hv => hparams (k.wellFormed.mem_visits.mp hv)
  refine ⟨hwords, haccepted.visitsOf_sent ▸ k.wellFormed.nodup_carried, fun v => haccepted.mem_visitsOf_sent,
    fun x hx v hv => ?_, fun hover => ?_, fun front x back hsent hfront hx => ?_⟩
  · obtain ⟨t, s, hp⟩ := Circuit.exists_stream_of_sent hx
    obtain ⟨hpower, hhighest, hstream⟩ := Circuit.highest_of_lost hp hv
    have hqubits : k.circuit.layout.qubits = k.circuit.numQubits := by
      have hmem : v ∈ k.circuit.visits :=
        (haccepted.mem_visitsOf_sent.mp (List.mem_flatMap.mpr ⟨x, hx, Packet.mem_of_lost hv⟩)).1
      have := Circuit.position_lt_numQubits (Circuit.mem_visits.mp hmem).2.1
      rw [Circuit.qubits_layout]
      omega
    rw [hqubits] at hpower hhighest
    exact ⟨⟨_, hpower⟩, hhighest, Circuit.stream_of_mem hp ▸ hstream⟩
  · rw [hwords]
    exact (haccepted.reads_wordsOf hparams' (fun x hx => hx) hover).decode
  · rw [hwords]
    exact haccepted.decode_overhanging hparams' hsent hfront hx

/-- The highest of four qubits is measured, reset and dephased behind another one. -/
def Construction.dephased : Construction where
  name := "dephased"
  steps := [
    .quantum ⟨"q", 4⟩, .classical ⟨"c", 4⟩,
    .call (.measure ["q[0]", "q[3]"] ["c[0]", "c[3]"] none),
    .call (.reset ["q[1]", "q[3]"] none),
    .call (.named "mixphase" ["q[2]", "q[3]"] [0.25] none)]
  quantum_fresh := by decide
  classical_fresh := by decide
  counted := by decide
  qubits_counted := by decide
  bits_counted := by decide

/-- The highest of four qubits is dephased behind two others. -/
def Construction.overhanging : Construction where
  name := "overhanging"
  steps := [
    .quantum ⟨"q", 4⟩,
    .call (.named "mixphase" ["q[0]", "q[1]", "q[3]"] [0.25] none)]
  quantum_fresh := by decide
  classical_fresh := by decide
  counted := by decide
  qubits_counted := by decide
  bits_counted := by decide

theorem decode_encode_kept_dephased :
    (∃ p, Construction.dephased.circuit.encode = .ok p ∧
      (Construction.dephased.circuit.sent.map fun x =>
        (x.2.lost Construction.dephased.circuit).map fun v => (v.1, v.2.1)) =
          [[(1, "q[3]")], [(2, "q[3]")], [(3, "q[3]")]] ∧
      decode p.words 4 = .ok (Packet.readings Construction.dephased.circuit Construction.dephased.circuit.sent)) ∧
    ∃ p x init w, Construction.overhanging.circuit.encode = .ok p ∧ Construction.overhanging.circuit.sent = [x] ∧
      x.2.Overhangs Construction.overhanging.circuit ∧
      Packet.wordsOf Construction.overhanging.circuit [x] = init ++ [w] ∧
      Outcomes (fun more all => all = Packet.readings Construction.overhanging.circuit [x] ++
          more.map (Operation.later 1)) (decode [w] 4) (decode p.words 4) := by
  have hangles (k : Construction) (h : ∀ v ∈ k.circuit.visits, Gate.encodesAngle v.2.2.gate = false) {q : String}
      {t : Int} {n : Node} (hn : k.circuit.at? q t = some n) : Gate.encodesAngle n.gate = true → n.params ≠ [] := by
    intro hgate
    have := h (t, q, n) (k.wellFormed.mem_visits.mpr hn)
    simp_all
  constructor
  · have hsome : Construction.dephased.circuit.encode.toOption.isSome = true := by decide +kernel
    have hlost : (Construction.dephased.circuit.sent.map fun x =>
        (x.2.lost Construction.dephased.circuit).map fun v => (v.1, v.2.1)) =
          [[(1, "q[3]")], [(2, "q[3]")], [(3, "q[3]")]] := by decide +kernel
    have hover : ∀ x ∈ Construction.dephased.circuit.sent, ¬ x.2.Overhangs Construction.dephased.circuit := by
      decide +kernel
    obtain ⟨p, he⟩ := isSome_toOption.mp hsome
    obtain ⟨-, -, -, -, hdecode, -⟩ := decode_encode_kept .dephased (hangles _ (by decide +kernel)) he
    exact ⟨p, he, hlost, hdecode hover⟩
  · have hsome : Construction.overhanging.circuit.encode.toOption.isSome = true := by decide +kernel
    have hflags : Construction.overhanging.circuit.sent.map Prod.fst = [true] := by decide +kernel
    have hover : ∀ x ∈ Construction.overhanging.circuit.sent, x.2.Overhangs Construction.overhanging.circuit := by
      decide +kernel
    obtain ⟨⟨last, x⟩, hsent, hlast⟩ := List.map_eq_singleton_iff.mp hflags
    obtain rfl : last = true := hlast
    obtain ⟨p, he⟩ := isSome_toOption.mp hsome
    obtain ⟨-, -, -, -, -, hbehind⟩ := decode_encode_kept .overhanging (hangles _ (by decide +kernel)) he
    have hx := hover (true, x) (by simp [hsent])
    obtain ⟨init, w, hwords, houtcomes⟩ := hbehind [] (true, x) [] hsent (by simp) hx
    exact ⟨p, (true, x), init, w, he, hsent, hx, hwords, houtcomes⟩

end Sequencer
