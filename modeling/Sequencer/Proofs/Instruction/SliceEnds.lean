import Sequencer.Proofs.Instruction.Positions

/-!
# Ends of timeslices

Each word of a timeslice is the header word of a packet or trails one. Exactly
one header word has the end flag. It belongs to the last packet, so that only
the words of that packet's own groups come after it.
-/

namespace Sequencer

open BitField

/-- What a word is in its packet. Only header words have an end flag; trailing
words hold parameters and probabilities and may have any bit set. -/
inductive WordRole where
  | header
  | trailing
  deriving DecidableEq, Repr

namespace Packet
variable (c : Circuit)

def header (last : Bool) (p : Packet) : Word :=
  match p.stream with
  | none => measuredWord c.layout.qubitBits last (p.visits.map fun v => c.position v.2.1)
  | some l => headerWord l last (p.visits.map c.group)

def trailing (p : Packet) : List Word :=
  match p.stream with
  | none => []
  | some _ => trailingWords (p.visits.map c.group)

def roles (last : Bool) (p : Packet) : List (WordRole × Word) :=
  (.header, p.header c last) :: (p.trailing c).map fun w => (.trailing, w)

variable {c}

theorem words_eq (last : Bool) (p : Packet) : p.words c last = p.header c last :: p.trailing c := by
  rw [words, header, trailing]
  cases p.stream with
  | none => rfl
  | some l => rfl

theorem map_snd_roles (last : Bool) (p : Packet) : (p.roles c last).map Prod.snd = p.words c last := by
  rw [words_eq, roles, List.map_cons, List.map_map]
  exact congrArg _ (List.map_id _)

theorem flagged_concat (packets : List Packet) (p : Packet) :
    flagged (packets ++ [p]) = packets.map (fun q => (false, q)) ++ [(true, p)] := by
  induction packets with
  | nil => rfl
  | cons q rest ih =>
    rw [List.map_cons, List.cons_append, List.cons_append, ← ih]
    cases rest with
    | nil => rfl
    | cons r rest => rfl

end Packet

namespace Circuit
variable (c : Circuit)

def roles (t : Int) : List (WordRole × Word) :=
  (Packet.flagged (c.packetsAt t)).flatMap fun x => x.2.roles c x.1

def ends (t : Int) : List Word :=
  ((c.roles t).filter fun x => x.1 = .header ∧ x.2.isLast).map Prod.snd

variable {c}

theorem map_snd_roles (t : Int) :
    (c.roles t).map Prod.snd = Packet.wordsOf c (Packet.flagged (c.packetsAt t)) := by
  rw [roles, List.map_flatMap, Packet.wordsOf]
  simp only [Packet.map_snd_roles]

namespace Accepted
variable (h : c.Accepted)
include h

theorem isLast_header {t : Int} {p : Packet} (hp : p ∈ c.packetsAt t) (last : Bool) :
    (p.header c last).isLast = last := by
  obtain ⟨s, -, hp⟩ := List.mem_flatMap.mp hp
  rw [Packet.header, stream_of_mem hp]
  cases s with
  | none =>
    have hlen := (mem_streamPackets_none hp).2
    exact Word.isLast_of_holds (holds_measuredWord (length_mul_le (by simpa using hlen)) last)
  | some l =>
    obtain ⟨piece, hpiece, rfl⟩ := List.mem_map.mp hp
    have hwidth : ∀ v ∈ piece, (c.group v).width = c.layout.width l := fun v hv => by
      obtain ⟨hmem, -, he⟩ := mem_laneVisits.mp (mem_of_mem_chunks hpiece hv)
      exact (h.entry_width hmem he).1
    have hfits : totalWidth ((piece.map c.group).flatMap Group.fields) ≤ l.room := by
      rw [List.flatMap_map, totalWidth_flatMap hwidth]
      exact Nat.le_trans (Nat.mul_le_mul_right _ (length_le_of_mem_chunks hpiece))
        (Nat.div_mul_le_self _ _)
    exact Word.isLast_of_holds (holds_headerWord hfits last)

theorem filter_roles {t : Int} {p : Packet} (hp : p ∈ c.packetsAt t) (last : Bool) :
    ((p.roles c last).filter fun x => x.1 = .header ∧ x.2.isLast) =
      if last then [(.header, p.header c last)] else [] := by
  have hflag := h.isLast_header hp last
  cases last <;> simp [Packet.roles, hflag]

theorem words_eq_roles {t : Int} (ht : t ∈ c.writtenSlices) :
    c.packetsAt t ≠ [] ∧ (c.contentAt t).words c.layout = (c.roles t).map Prod.snd := by
  have hpresent := (List.mem_filter.mp ht).2
  constructor
  · intro hnil
    exact h.closing_ne_nil hpresent (List.flatMap_eq_nil_iff.mp hnil _ (Stream.mem_order _ _))
  · rw [h.words_contentAt hpresent, map_snd_roles, Packet.wordsOf_flagged]

theorem ends_eq {t : Int} {front : List Packet} {last : Packet}
    (hsplit : c.packetsAt t = front ++ [last]) : c.ends t = [last.header c true] := by
  have hmem {p : Packet} (hp : p ∈ front ++ [last]) := hsplit ▸ hp
  have hfront : (front.flatMap fun q => q.roles c false).filter
      (fun x => x.1 = .header ∧ x.2.isLast) = [] := by
    rw [List.filter_flatMap]
    refine List.flatMap_eq_nil_iff.mpr fun q hq => ?_
    exact h.filter_roles (hmem (List.mem_append_left _ hq)) false
  rw [ends, roles, hsplit, Packet.flagged_concat, List.flatMap_append, List.flatMap_map,
    List.filter_append, hfront, List.flatMap_singleton,
    h.filter_roles (hmem (List.mem_append_right _ List.mem_cons_self)) true]
  rfl

end Accepted
end Circuit

/-- Slices come in order and are not empty. Each has exactly one header word
with the end flag, which is its last header word; after it come only the
trailing words of its own groups. -/
theorem slices_end_once (k : Construction) {p : InstructionProgram} (he : k.circuit.encode = .ok p) :
    (p.slices.Pairwise fun a b => a.index < b.index) ∧
      ∀ s ∈ p.slices, s.words ≠ [] ∧ s.words = (k.circuit.roles s.index).map Prod.snd ∧
        ∃ front last, k.circuit.packetsAt s.index = front ++ [last] ∧
          k.circuit.ends s.index = [last.header k.circuit true] ∧
          k.circuit.roles s.index = front.flatMap (fun q => q.roles k.circuit false) ++
            (.header, last.header k.circuit true) ::
              (last.trailing k.circuit).map fun w => (.trailing, w) := by
  obtain ⟨haccepted, hslices⟩ := k.encode_ok he
  refine ⟨?_, fun s hs => ?_⟩
  · rw [hslices]
    exact List.pairwise_map.mpr Circuit.writtenSlices_ordered
  · rw [hslices] at hs
    obtain ⟨t, ht, rfl⟩ := List.mem_map.mp hs
    obtain ⟨hne, hwords⟩ := haccepted.words_eq_roles ht
    obtain ⟨front, last, hsplit⟩ : ∃ front last, k.circuit.packetsAt t = front ++ [last] :=
      ⟨_, _, (List.dropLast_append_getLast hne).symm⟩
    have hroles : k.circuit.roles t = front.flatMap (fun q => q.roles k.circuit false) ++
        last.roles k.circuit true := by
      rw [Circuit.roles, hsplit, Packet.flagged_concat, List.flatMap_append, List.flatMap_map,
        List.flatMap_singleton]
    refine ⟨?_, hwords, front, last, hsplit, haccepted.ends_eq hsplit, hroles⟩
    rw [hwords, hroles]
    simp [Packet.roles]

theorem slices_end_once_teleportation :
    ∃ p, Construction.teleportation.circuit.encode = .ok p ∧
      p.slices.map ProgramSlice.index = [1, 2, 3, 4, 5, 6, 7] ∧
      ∀ s ∈ p.slices, ∃ w, Construction.teleportation.circuit.ends s.index = [w] ∧ w ∈ s.words := by
  have hindices : Construction.teleportation.circuit.encode.toOption.map
      (fun p => p.slices.map ProgramSlice.index) = some [1, 2, 3, 4, 5, 6, 7] := by decide +kernel
  obtain ⟨p, hp, hslices⟩ := Option.map_eq_some_iff.mp hindices
  have he := toOption_eq_some.mp hp
  refine ⟨p, he, hslices, fun s hs => ?_⟩
  obtain ⟨-, hwords, front, last, -, hends, hroles⟩ := (slices_end_once .teleportation he).2 s hs
  refine ⟨_, hends, ?_⟩
  rw [hwords, hroles]
  simp

end Sequencer
