import Mathlib.Data.List.Induction
import Sequencer.Proofs.Checked
import Sequencer.Proofs.Instruction.Contents
import Sequencer.Proofs.Instruction.Layout
import Sequencer.Proofs.Instruction.Measurements

/-!
# Lane buffers hold packets

A lane buffer is filled group by group. After each group it holds the packets
of the groups so far, all but the newest of them closed; the newest one has its
unused bits still clear. Closing the buffer leaves the words of the packets.
-/

namespace Sequencer

open BitField

-- ---------------------------------------------------------------------------
-- One more group
-- ---------------------------------------------------------------------------

namespace Packing

/-- A group put in front touches the first packet only, so what is put behind
the last one stays there. -/
theorem consFirst_concat (g : Group) (init : List (List Group)) (last : List Group) :
    ∃ init' last', ∀ more rest, consFirst g (init ++ (last ++ more) :: rest) = init' ++ (last' ++ more) :: rest := by
  cases init with
  | nil => exact ⟨[], g :: last, fun _ _ => rfl⟩
  | cons p init => exact ⟨(g :: p) :: init, last, fun _ _ => rfl⟩

theorem split_concat (room need free : Nat) (groups : List Group) (g : Group) :
    ∃ init last, split room need free groups = init ++ [last] ∧
      split room need free (groups ++ [g]) =
        if need ≤ freeFrom room need free groups then init ++ [last ++ [g]] else init ++ [last, [g]] := by
  induction groups generalizing free with
  | nil =>
    refine ⟨[], [], rfl, ?_⟩
    by_cases h : need ≤ free <;> simp [split, freeFrom, consFirst, h]
  | cons f rest ih =>
    obtain ⟨init, last, hinit, hnext⟩ := ih ((if need ≤ free then free else room) - f.width)
    obtain ⟨init', last', hmore⟩ := consFirst_concat f init last
    have hfirst := hmore [] []
    have hstart := hmore [] [[g]]
    simp only [List.append_nil] at hfirst hstart
    have hpackets : consFirst f (split room need ((if need ≤ free then free else room) - f.width) (rest ++ [g])) =
        if need ≤ freeFrom room need free (f :: rest) then init' ++ [last' ++ [g]] else init' ++ [last', [g]] := by
      rw [hnext]
      change consFirst f (if need ≤ freeFrom room need free (f :: rest) then _ else _) = _
      split
      · exact hmore [g] []
      · exact hstart
    by_cases h : need ≤ free
    · simp only [h, if_true] at hinit hpackets
      refine ⟨init', last', by rw [split, if_pos h, hinit, hfirst], ?_⟩
      rw [List.cons_append, split, if_pos h, hpackets]
    · simp only [h, if_false] at hinit hpackets
      refine ⟨[] :: init', last', by rw [split, if_neg h, hinit, hfirst, List.cons_append], ?_⟩
      rw [List.cons_append, split, if_neg h, hpackets]
      split
      · rfl
      · rfl

theorem freeAfter_concat (room need : Nat) (groups : List Group) (g : Group) :
    freeAfter room need (groups ++ [g]) = freeFor room need groups - g.width := by
  rw [freeAfter, freeFrom, List.foldl_append]
  rfl

theorem packets_concat {room need : Nat} (hneed : 0 < need) {groups : List Group} {full : List (List Group)}
    {newest : List Group} (h : packets room need groups = full ++ [newest]) (g : Group) :
    packets room need (groups ++ [g]) =
      if need ≤ freeAfter room need groups then full ++ [newest ++ [g]] else full ++ [newest, [g]] := by
  cases groups with
  | nil => simp [packets] at h
  | cons f rest =>
    obtain ⟨init, last, hinit, hnext⟩ := split_concat room need (room - f.width) rest g
    obtain ⟨init', last', hmore⟩ := consFirst_concat f init last
    have hfirst := hmore [] []
    have hstart := hmore [] [[g]]
    simp only [List.append_nil] at hfirst hstart
    rw [packets, hinit, hfirst] at h
    obtain ⟨rfl, hlast⟩ := List.append_inj' h rfl
    obtain rfl := (List.cons.inj hlast).1
    have hfree : freeAfter room need (f :: rest) = freeFrom room need (room - f.width) rest := by
      simp [freeAfter, freeFrom, Nat.not_le.mpr hneed]
    rw [List.cons_append, packets, hnext, hfree]
    split
    · exact hmore [g] []
    · exact hstart

end Packing

-- ---------------------------------------------------------------------------
-- Words of the newest packet
-- ---------------------------------------------------------------------------

def headerFields (l : Lane) (last : Bool) (groups : List Group) : List BitField :=
  [.flag last, ⟨l.category.code, 3⟩] ++ l.flags ++ groups.flatMap Group.fields

def roomBelow (l : Lane) (groups : List Group) : Nat := l.room - totalWidth (groups.flatMap Group.fields)

def openHeader (l : Lane) (groups : List Group) : Word :=
  Word.ofFields (headerFields l false groups ++ [⟨0, roomBelow l groups⟩])

theorem openHeader_nil (l : Lane) : openHeader l [] = l.header := by
  simp [openHeader, headerFields, roomBelow, Lane.header]

theorem headerFields_concat (l : Lane) (last : Bool) (groups : List Group) (g : Group) :
    headerFields l last (groups ++ [g]) = headerFields l last groups ++ g.fields := by
  simp [headerFields]

theorem roomBelow_concat (l : Lane) (groups : List Group) (g : Group) :
    roomBelow l (groups ++ [g]) = roomBelow l groups - g.width := by
  simp [roomBelow, Group.width, Nat.sub_sub]

section
variable {l : Lane} {groups : List Group}

theorem totalWidth_headerFields (fits : totalWidth (groups.flatMap Group.fields) ≤ l.room) (last : Bool) :
    totalWidth (headerFields l last groups) + roomBelow l groups = 64 := by
  have hflags := l.totalWidth_flags
  have hroom := l.room_add_flags
  simp only [headerFields, roomBelow, totalWidth_append, totalWidth_cons, totalWidth_nil, width_flag, hflags,
    headerRoom] at hroom ⊢
  omega

theorem openHeader_pad (fits : totalWidth (groups.flatMap Group.fields) ≤ l.room) :
    openHeader l groups ||| Word.ofFields [.ones (roomBelow l groups)] = headerWord l false groups :=
  ofFields_or _ [ones (roomBelow l groups)] (by simpa using totalWidth_headerFields fits false)

theorem headerWord_flag (fits : totalWidth (groups.flatMap Group.fields) ≤ l.room) :
    headerWord l false groups ||| Word.lastFlag = headerWord l true groups := by
  have h := totalWidth_headerFields fits false
  simp only [headerWord, List.cons_append]
  refine ofFields_or_lastFlag ?_
  simp only [headerFields, roomBelow, totalWidth_append, totalWidth_cons, totalWidth_nil, width_flag,
    width_ones] at h ⊢
  omega

end

def halfWord (p : Fixed) : Word := Word.ofFields [p.field, ⟨0, 32⟩]

theorem halfWord_or (p q : Fixed) : halfWord p ||| Word.ofFields [q.field] = Fixed.pair p q :=
  ofFields_or [p.field] [q.field] rfl

theorem halfWord_pad (p : Fixed) : halfWord p ||| Word.ofFields [.ones 32] = Word.ofFields [p.field, .ones 32] :=
  ofFields_or [p.field] [.ones 32] rfl

theorem probabilityWords_append {ps : List Fixed} (h : ps.length % 2 = 0) (qs : List Fixed) :
    probabilityWords (ps ++ qs) = probabilityWords ps ++ probabilityWords qs := by
  induction ps using List.twoStepInduction with
  | nil => rfl
  | singleton p => simp at h
  | cons_cons p q rest ih _ =>
    have ih := ih (by simp only [List.length_cons] at h; omega)
    simp only [List.cons_append, probabilityWords, ih]

theorem angleWords_append (a b : List Group) : angleWords (a ++ b) = angleWords a ++ angleWords b :=
  List.filterMap_append

theorem probabilities_append (a b : List Group) : probabilities (a ++ b) = probabilities a ++ probabilities b :=
  List.filterMap_append

/-- What is written behind a header word before it is closed. The low half of
the last word is free after an odd number of probabilities. -/
inductive OpenTrail (groups : List Group) : List Word → Bool → Prop
  | whole (even : (probabilities groups).length % 2 = 0) : OpenTrail groups (trailingWords groups) false
  | half {ps : List Fixed} {q : Fixed} (odd : probabilities groups = ps ++ [q]) (even : ps.length % 2 = 0) :
      OpenTrail groups (angleWords groups ++ probabilityWords ps ++ [halfWord q]) true

/-- Decoherence has probabilities behind it, and other operations have not. -/
def Group.Suits (g : Group) (l : Lane) : Prop := l = .decoherence ↔ ∃ p, g.trail = .probability p

theorem probabilities_eq_nil_of_suits {l : Lane} {groups : List Group} (h : ∀ g ∈ groups, g.Suits l)
    (hl : l ≠ .decoherence) : probabilities groups = [] := by
  refine List.filterMap_eq_nil_iff.mpr fun g hg => ?_
  split
  · rename_i p htrail
    exact absurd ((h g hg).mpr ⟨p, htrail⟩) hl
  · rfl

-- ---------------------------------------------------------------------------
-- Buffers
-- ---------------------------------------------------------------------------

theorem modify_at_length {α : Type} (before : List α) (a : α) (after : List α) (f : α → α) :
    (before ++ a :: after).modify before.length f = before ++ f a :: after := by
  induction before with
  | nil => rfl
  | cons b rest ih => simp [ih]

namespace LaneBuffer

def opened (l : Lane) (before : List Word) (newest : List Group) (trailing : List Word) (free : Bool) :
    LaneBuffer where
  words := before ++ openHeader l newest :: trailing
  current := before.length
  isOpen := true
  room := roomBelow l newest
  half := if free then some (before.length + trailing.length) else none

def closed (l : Lane) (before : List Word) (last : Bool) (newest : List Group) : LaneBuffer where
  words := before ++ packetWords l last newest
  current := before.length
  room := roomBelow l newest

inductive Holds (l : Lane) (need : Nat) : List Group → LaneBuffer → Prop
  | empty : Holds l need [] {}
  | filled {groups : List Group} {full : List (List Group)} {newest : List Group} {trailing : List Word}
      {free : Bool} (packed : Packing.packets l.room need groups = full ++ [newest])
      (room : Packing.freeAfter l.room need groups = roomBelow l newest)
      (fits : totalWidth (newest.flatMap Group.fields) ≤ l.room) (trail : OpenTrail newest trailing free)
      (suits : ∀ g ∈ newest, g.Suits l) :
      Holds l need groups (opened l (full.flatMap (packetWords l false)) newest trailing free)

section
variable {l : Lane} {need : Nat} {groups newest : List Group} {before trailing : List Word} {free : Bool}
  {b : LaneBuffer} {g : Group}

theorem close_opened (fits : totalWidth (newest.flatMap Group.fields) ≤ l.room)
    (trail : OpenTrail newest trailing free) :
    (opened l before newest trailing free).close = closed l before false newest := by
  cases trail with
  | whole even =>
    simp [close, closeHeader, closeHalf, opened, closed, setBits, modify_at_length, openHeader_pad fits, packetWords]
  | @half ps q odd even =>
    have htrail : trailingWords newest = angleWords newest ++ probabilityWords ps ++
        [Word.ofFields [q.field, .ones 32]] := by
      rw [trailingWords, odd, probabilityWords_append even, List.append_assoc]
      rfl
    simp only [closed, packetWords, htrail]
    generalize angleWords newest ++ probabilityWords ps = whole
    have hlast := modify_at_length (before ++ headerWord l false newest :: whole) (halfWord q) []
      (· ||| Word.ofFields [.ones 32])
    simp only [halfWord_pad, List.append_assoc, List.cons_append, List.length_append, List.length_cons] at hlast
    simp [close, closeHeader, closeHalf, opened, setBits, modify_at_length, openHeader_pad fits, hlast]

theorem flag_closed (fits : totalWidth (newest.flatMap Group.fields) ≤ l.room) :
    (closed l before false newest).flag = closed l before true newest := by
  simp [flag, closed, setBits, packetWords, modify_at_length, headerWord_flag fits]

theorem foldlM_put (before post : List Word) (half : Option Nat) (fields : List BitField) {head : List BitField}
    {room : Nat} (width : totalWidth head + room = 64) :
    fields.foldlM put ⟨before ++ Word.ofFields (head ++ [⟨0, room⟩]) :: post, before.length, true, room, half⟩ =
      if room < totalWidth fields then .error .outOfRange
      else .ok ⟨before ++ Word.ofFields (head ++ fields ++ [⟨0, room - totalWidth fields⟩]) :: post, before.length,
        true, room - totalWidth fields, half⟩ := by
  induction fields generalizing head room with
  | nil =>
    simp
    rfl
  | cons f rest ih =>
    by_cases hf : room < f.width
    · have hwide : room < totalWidth (f :: rest) := by
        rw [totalWidth_cons]
        omega
      rw [if_pos hwide, List.foldlM_cons, put, if_pos hf]
      rfl
    · have hword := ofFields_or head [f, ⟨0, room - f.width⟩] (by simp; omega)
      have hsum : totalWidth [f, ⟨0, room - f.width⟩] = room := by simp; omega
      rw [hsum] at hword
      have hput : put ⟨before ++ Word.ofFields (head ++ [⟨0, room⟩]) :: post, before.length, true, room, half⟩ f =
          .ok ⟨before ++ Word.ofFields ((head ++ [f]) ++ [⟨0, room - f.width⟩]) :: post, before.length, true,
            room - f.width, half⟩ := by
        rw [put, if_neg hf]
        simp only [setBits, modify_at_length, List.append_assoc, List.cons_append, List.nil_append]
        rw [← hword]
        rfl
      have hwidth : totalWidth (head ++ [f]) + (room - f.width) = 64 := by
        simp only [totalWidth_append, totalWidth_cons, totalWidth_nil]
        omega
      rw [List.foldlM_cons, hput]
      change rest.foldlM put _ = _
      rw [ih hwidth, totalWidth_cons]
      simp only [Nat.sub_sub, List.append_assoc, List.cons_append, List.nil_append]
      by_cases hmore : room < f.width + totalWidth rest
      · rw [if_pos hmore, if_pos (by omega)]
      · rw [if_neg hmore, if_neg (by omega)]

theorem foldlM_put_opened (fits : totalWidth (newest.flatMap Group.fields) ≤ l.room) (before trailing : List Word)
    (free : Bool) (g : Group) :
    g.fields.foldlM put (opened l before newest trailing free) =
      if roomBelow l newest < g.width then .error .outOfRange
      else .ok (opened l before (newest ++ [g]) trailing free) := by
  have hput := foldlM_put before trailing (opened l before newest trailing free).half g.fields
    (totalWidth_headerFields fits false)
  simp only [← headerFields_concat] at hput
  simp only [opened, openHeader, roomBelow_concat]
  exact hput

theorem addTrail_opened (before : List Word) (trail : OpenTrail newest trailing free)
    (suits : ∀ f ∈ newest, f.Suits l) (hg : g.Suits l) : ∃ trailing' free', OpenTrail (newest ++ [g]) trailing' free' ∧
      (opened l before (newest ++ [g]) trailing free).addTrail g.trail =
        opened l before (newest ++ [g]) trailing' free' := by
  have hangles := angleWords_append newest [g]
  have hprobabilities := probabilities_append newest [g]
  cases htrail : g.trail with
  | none =>
    have hangle : angleWords [g] = [] := by simp [angleWords, htrail]
    have hprobability : probabilities [g] = [] := by simp [probabilities, htrail]
    rw [hangle, List.append_nil] at hangles
    rw [hprobability, List.append_nil] at hprobabilities
    refine ⟨trailing, free, ?_, rfl⟩
    cases trail with
    | whole even =>
      rw [trailingWords, ← hangles, ← hprobabilities]
      exact .whole (hprobabilities ▸ even)
    | half odd even =>
      rw [← hangles]
      exact .half (hprobabilities.trans odd) even
  | angle w =>
    have hangle : angleWords [g] = [w] := by simp [angleWords, htrail]
    have hprobability : probabilities [g] = [] := by simp [probabilities, htrail]
    have hl : l ≠ .decoherence := mt hg.mp (by simp [htrail])
    have hnone := probabilities_eq_nil_of_suits suits hl
    rw [hprobability, hnone, List.append_nil] at hprobabilities
    cases trail with
    | whole even =>
      refine ⟨trailingWords newest ++ [w], false, ?_, by simp [addTrail, append, opened]⟩
      have hwords : trailingWords newest ++ [w] = trailingWords (newest ++ [g]) := by
        simp [trailingWords, hangles, hangle, hnone, hprobabilities, probabilityWords]
      rw [hwords]
      exact .whole (by simp [hprobabilities])
    | half odd even => simp [hnone] at odd
  | probability p =>
    have hangle : angleWords [g] = [] := by simp [angleWords, htrail]
    have hprobability : probabilities [g] = [p] := by simp [probabilities, htrail]
    rw [hangle, List.append_nil] at hangles
    rw [hprobability] at hprobabilities
    cases trail with
    | whole even =>
      refine ⟨trailingWords newest ++ [halfWord p], true, ?_, ?_⟩
      · rw [trailingWords, ← hangles]
        exact .half hprobabilities even
      · simp [addTrail, append, opened, halfWord]
    | @half ps q odd even =>
      refine ⟨angleWords newest ++ probabilityWords ps ++ [Fixed.pair q p], false, ?_, ?_⟩
      · have hpair : probabilities (newest ++ [g]) = ps ++ [q, p] := by simp [hprobabilities, odd]
        have hwords : angleWords newest ++ probabilityWords ps ++ [Fixed.pair q p] =
            trailingWords (newest ++ [g]) := by
          rw [trailingWords, hangles, hpair, probabilityWords_append even, List.append_assoc]
          rfl
        rw [hwords]
        refine .whole ?_
        simp only [hpair, List.length_append, List.length_cons, List.length_nil]
        omega
      · generalize angleWords newest ++ probabilityWords ps = whole
        have hlast := modify_at_length (before ++ openHeader l (newest ++ [g]) :: whole) (halfWord q) []
          (· ||| Word.ofFields [p.field])
        simp only [halfWord_or, List.append_assoc, List.cons_append, List.length_append, List.length_cons] at hlast
        simp [addTrail, opened, setBits, hlast]

namespace Holds

theorem makeRoom (h : Holds l need groups b) (hneed : 0 < need) (g : Group) :
    ∃ full newest trailing free,
      b.makeRoom l need = opened l (full.flatMap (packetWords l false)) newest trailing free ∧
      Packing.packets l.room need (groups ++ [g]) = full ++ [newest ++ [g]] ∧
      Packing.freeFor l.room need groups = roomBelow l newest ∧
      totalWidth (newest.flatMap Group.fields) ≤ l.room ∧ OpenTrail newest trailing free ∧
      ∀ f ∈ newest, f.Suits l := by
  cases h with
  | empty =>
    refine ⟨[], [], [], false, ?_, rfl, ?_, Nat.zero_le _, .whole rfl, by simp⟩
    · simp [LaneBuffer.makeRoom, close, closeHeader, closeHalf, opened, openHeader_nil, roomBelow]
    · simp [Packing.freeFor, Packing.freeAfter, Packing.freeFrom, roomBelow, Nat.not_le.mpr hneed]
  | @filled _ full newest trailing free packed room fits trail suits =>
    have hpackets := Packing.packets_concat hneed packed g
    by_cases hroom : need ≤ Packing.freeAfter l.room need groups
    · rw [if_pos hroom] at hpackets
      refine ⟨full, newest, trailing, free, ?_, hpackets, ?_, fits, trail, suits⟩
      · rw [LaneBuffer.makeRoom, if_pos (by simpa [opened, ← room] using hroom)]
      · rw [Packing.freeFor, if_pos hroom, room]
    · rw [if_neg hroom] at hpackets
      refine ⟨full ++ [newest], [], [], false, ?_, by simpa using hpackets, ?_, Nat.zero_le _, .whole rfl, by simp⟩
      · rw [LaneBuffer.makeRoom, if_neg (by simpa [opened, ← room] using hroom), close_opened fits trail]
        simp [closed, opened, openHeader_nil, roomBelow]
      · simp [Packing.freeFor, hroom, roomBelow]

/-- A group is added just when it fits the room for it. -/
theorem add (h : Holds l need groups b) (hneed : 0 < need) (hg : g.Suits l) :
    (Packing.freeFor l.room need groups < g.width ∧ b.add l need g = .error .outOfRange) ∨
      (g.width ≤ Packing.freeFor l.room need groups ∧
        ∃ b', b.add l need g = .ok b' ∧ Holds l need (groups ++ [g]) b') := by
  obtain ⟨full, newest, trailing, free, hb, packed, hfree, fits, trail, suits⟩ := h.makeRoom hneed g
  have hput := foldlM_put_opened fits (full.flatMap (packetWords l false)) trailing free g
  rw [LaneBuffer.add, hb, hfree]
  by_cases hwide : roomBelow l newest < g.width
  · rw [if_pos hwide] at hput
    exact .inl ⟨hwide, bind_eq_error.mpr (.inl hput)⟩
  · rw [if_neg hwide] at hput
    obtain ⟨trailing', free', trail', hadd⟩ := addTrail_opened (full.flatMap (packetWords l false)) trail suits hg
    refine .inr ⟨Nat.not_lt.mp hwide, _, bind_eq_ok.mpr ⟨_, hput, congrArg Except.ok hadd⟩, ?_⟩
    refine .filled packed ?_ ?_ trail' ?_
    · rw [Packing.freeAfter_concat, hfree, roomBelow_concat]
    · simp only [roomBelow, Group.width] at hwide
      simp only [List.flatMap_append, List.flatMap_singleton, totalWidth_append]
      omega
    · exact List.forall_mem_append.mpr ⟨suits, by simpa using hg⟩

theorem close (h : Holds l need groups b) (hne : groups ≠ []) :
    ∃ full newest, Packing.packets l.room need groups = full ++ [newest] ∧
      totalWidth (newest.flatMap Group.fields) ≤ l.room ∧
      b.close = closed l (full.flatMap (packetWords l false)) false newest := by
  cases h with
  | empty => exact absurd rfl hne
  | filled packed _ fits trail _ => exact ⟨_, _, packed, fits, close_opened fits trail⟩

end Holds

end
end LaneBuffer
end Sequencer
