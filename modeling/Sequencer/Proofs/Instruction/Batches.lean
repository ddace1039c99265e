import Mathlib.Data.List.Forall2
import Sequencer.Proofs.Checked
import Sequencer.Proofs.Instruction.Measurements

/-!
# Runs of the measurement buffer

A buffer takes measurements, paddings and closings in any order. The calls up
to a closing are a batch, and the batch is written out in full: its words hold
the added qubits in their order, and a word ends only where it is full or
padded.

Between two paddings the buffer works as on a batch of its own, on top of the
finished words (`MeasurementBuffer.upon`), so the laws of a batch without
paddings carry over.
-/

namespace Sequencer

inductive BufferCall where
  | add (qubit : Nat) (slice : Int)
  | pad
  | close
  deriving DecidableEq

namespace BufferCall

def isPad : BufferCall → Bool
  | .pad => true
  | _ => false

def isClose : BufferCall → Bool
  | .close => true
  | _ => false

def Fits (w : Nat) : BufferCall → Prop
  | .add qubit slice => qubit < 2 ^ w ∧ 0 ≤ slice
  | _ => True

def qubit? : BufferCall → Option Nat
  | .add qubit _ => some qubit
  | _ => none

def slice? : BufferCall → Option Int
  | .add _ slice => some slice
  | _ => none

end BufferCall

def addedQubits (calls : List BufferCall) : List Nat := calls.filterMap BufferCall.qubit?

def lastSlice (calls : List BufferCall) : Int := (calls.filterMap BufferCall.slice?).max?.getD 0

/-- The qubits of a batch by words: what stands between two paddings fills words. -/
def wordParts (w : Nat) (batch : List BufferCall) : List (List Nat) :=
  (batch.splitOnP BufferCall.isPad).flatMap fun part => chunks (fieldsPerWord w) (addedQubits part)

-- ---------------------------------------------------------------------------
-- Calls that are added at the end
-- ---------------------------------------------------------------------------

theorem splitOnP_concat {p : α → Bool} {l : List α} {pieces : List (List α)} {last : List α} {a : α}
    (h : l.splitOnP p = pieces ++ [last]) (ha : p a = false) :
    (l ++ [a]).splitOnP p = pieces ++ [last ++ [a]] := by
  induction l generalizing pieces last with
  | nil =>
    have hsingle : [] ++ [([] : List α)] = pieces ++ [last] := h
    obtain ⟨rfl, rfl⟩ := List.append_singleton_inj.mp hsingle
    simp [List.splitOnP_cons_eq_if_modifyHead, ha]
  | cons b rest ih =>
    rw [List.splitOnP_cons_eq_if_modifyHead] at h
    rw [List.cons_append, List.splitOnP_cons_eq_if_modifyHead]
    obtain ⟨pieces', last', hrest⟩ : ∃ pieces' last', rest.splitOnP p = pieces' ++ [last'] :=
      ⟨_, _, (List.dropLast_append_getLast (List.splitOnP_ne_nil p rest)).symm⟩
    rw [ih hrest]
    rw [hrest] at h
    by_cases hb : p b = true
    · rw [if_pos hb] at h ⊢
      rw [← List.cons_append] at h ⊢
      obtain ⟨rfl, rfl⟩ := List.append_singleton_inj.mp h
      rfl
    · rw [if_neg hb] at h ⊢
      cases pieces' with
      | nil =>
        have hsingle : [] ++ [b :: last'] = pieces ++ [last] := h
        obtain ⟨rfl, rfl⟩ := List.append_singleton_inj.mp hsingle
        rfl
      | cons piece pieces' =>
        have hcons : (b :: piece) :: pieces' ++ [last'] = pieces ++ [last] := h
        obtain ⟨rfl, rfl⟩ := List.append_singleton_inj.mp hcons
        rfl

theorem addedQubits_append (calls more : List BufferCall) :
    addedQubits (calls ++ more) = addedQubits calls ++ addedQubits more := List.filterMap_append

theorem addedQubits_cons (call : BufferCall) (rest : List BufferCall) :
    addedQubits (call :: rest) = call.qubit?.toList ++ addedQubits rest := by
  cases call with
  | add qubit slice => rfl
  | pad => rfl
  | close => rfl

theorem flatMap_addedQubits (batch : List BufferCall) :
    (batch.splitOnP BufferCall.isPad).flatMap addedQubits = addedQubits batch := by
  induction batch with
  | nil => rfl
  | cons call rest ih =>
    rw [List.splitOnP_cons_eq_if_modifyHead, addedQubits_cons, ← ih]
    by_cases hpad : call.isPad = true
    · have hnone : call.qubit? = none := by
        cases call with
        | add qubit slice => cases hpad
        | pad => rfl
        | close => rfl
      rw [if_pos hpad, hnone, List.flatMap_cons]
      rfl
    · obtain ⟨part, parts, hrest⟩ := List.exists_cons_of_ne_nil (List.splitOnP_ne_nil BufferCall.isPad rest)
      rw [if_neg hpad, hrest, List.modifyHead_cons, List.flatMap_cons, List.flatMap_cons, addedQubits_cons,
        List.append_assoc]

theorem flatten_wordParts {w : Nat} (hper : 0 < fieldsPerWord w) (batch : List BufferCall) :
    (wordParts w batch).flatten = addedQubits batch := by
  rw [wordParts, ← List.flatMap_id, List.flatMap_assoc, ← flatMap_addedQubits]
  simp [flatten_chunks hper]

theorem map_wordParts {w : Nat} {batch : List BufferCall} {padded : List (List BufferCall)} {part : List BufferCall}
    (h : batch.splitOnP BufferCall.isPad = padded ++ [part]) :
    (wordParts w batch).map (measuredWord w false) =
      (padded.flatMap fun part => batchWords w (addedQubits part)) ++ batchWords w (addedQubits part) := by
  simp [wordParts, h, List.map_flatMap, batchWords]

theorem foldl_max_eq {slices : List Int} (h : ∀ t ∈ slices, 0 ≤ t) :
    slices.max?.getD 0 = slices.foldl max 0 := by
  cases slices with
  | nil => rfl
  | cons t rest =>
    rw [List.max?_cons', Option.getD_some, List.foldl_cons, max_eq_right (h t List.mem_cons_self)]

theorem lastSlice_concat {batch : List BufferCall} (h : ∀ call ∈ batch, call.Fits w) {q : Nat} {t : Int}
    (ht : 0 ≤ t) : lastSlice (batch ++ [.add q t]) = max (lastSlice batch) t := by
  have hslices : ∀ s ∈ batch.filterMap BufferCall.slice?, 0 ≤ s := by
    intro s hs
    obtain ⟨call, hcall, hslice⟩ := List.mem_filterMap.mp hs
    have hfits := h call hcall
    cases call with
    | add q' t' =>
      cases hslice
      exact hfits.2
    | pad => cases hslice
    | close => cases hslice
  have hadd : (batch ++ [BufferCall.add q t]).filterMap BufferCall.slice? = batch.filterMap BufferCall.slice? ++ [t] := by
    rw [List.filterMap_append]
    rfl
  rw [lastSlice, lastSlice, hadd, foldl_max_eq hslices, foldl_max_eq, List.foldl_append]
  · rfl
  · intro s hs
    rcases List.mem_append.mp hs with hs | hs
    · exact hslices s hs
    · exact List.mem_singleton.mp hs ▸ ht

-- ---------------------------------------------------------------------------
-- Buffers on top of finished words
-- ---------------------------------------------------------------------------

namespace MeasurementBuffer

def upon (b : MeasurementBuffer) (finished : List Word) (t : Int) : MeasurementBuffer :=
  { b with newest := b.newest ++ finished.reverse, slice := t }

theorem setBits_upon {b : MeasurementBuffer} (h : b.newest ≠ []) (finished : List Word) (t : Int) (bits : Nat) :
    (b.upon finished t).setBits bits = (b.setBits bits).upon finished t := by
  obtain ⟨x, rest, hx⟩ := List.exists_cons_of_ne_nil h
  simp [setBits, upon, hx]

section
variable {b : MeasurementBuffer} (h : b.isOpen = true → b.newest ≠ []) (finished : List Word) (t : Int)
include h

theorem pad_upon : (b.upon finished t).pad = (b.pad.1.upon finished t, b.pad.2) := by
  by_cases hopen : b.isOpen = true
  · have hframe : (b.upon finished t).isOpen = true := hopen
    have hroom : (b.upon finished t).room = b.room := rfl
    rw [pad, pad, hopen, hframe, hroom]
    cases lowOnes b.room with
    | error f => rfl
    | ok bits =>
      simp only [Bool.not_true, Bool.false_eq_true, if_false, setBits_upon (h hopen)]
      rfl
  · have hframe : ¬ (b.upon finished t).isOpen = true := hopen
    simp [pad, hopen, hframe]

theorem makeRoom_upon : (b.upon finished t).makeRoom = (b.makeRoom.1.upon finished t, b.makeRoom.2) := by
  unfold makeRoom
  rw [pad_upon h]
  by_cases hroom : (b.isOpen && b.fieldWidth ≤ b.room) = true
  · have hframe : ((b.upon finished t).isOpen && (b.upon finished t).fieldWidth ≤ (b.upon finished t).room) = true :=
      hroom
    rw [if_pos hroom, if_pos hframe]
  · have hframe : ¬ ((b.upon finished t).isOpen && (b.upon finished t).fieldWidth ≤ (b.upon finished t).room) = true :=
      hroom
    rw [if_neg hroom, if_neg hframe]
    obtain ⟨c, fault⟩ := b.pad
    cases fault with
    | none => rfl
    | some f => rfl

omit h in
theorem newest_ne_of_makeRoom {b' : MeasurementBuffer} (h : b.isOpen = true → b.newest ≠ [])
    (hroom : b.makeRoom = (b', none)) : b'.newest ≠ [] := by
  unfold makeRoom at hroom
  split at hroom
  · next hopen =>
    cases hroom
    exact h (Bool.and_eq_true_iff.mp hopen).1
  · split at hroom
    · cases hroom
    · cases hroom
      exact List.cons_ne_nil _ _

theorem add_upon {q s : Int} {b' : MeasurementBuffer} (hadd : b.add q s = (b', none)) :
    (b.upon finished t).add q s = (b'.upon finished (max t s), none) := by
  unfold add at hadd ⊢
  rw [makeRoom_upon h]
  cases hroom : b.makeRoom with
  | mk c fault =>
    cases fault with
    | some f =>
      rw [hroom] at hadd
      cases hadd
    | none =>
      have hne := newest_ne_of_makeRoom h hroom
      rw [hroom] at hadd
      have hbits : fieldBits (c.upon finished t).fieldWidth
          (Integer.wrap ((c.upon finished t).room - (c.upon finished t).fieldWidth)) q =
          fieldBits c.fieldWidth (Integer.wrap (c.room - c.fieldWidth)) q := rfl
      simp only [hbits] at hadd ⊢
      cases hfield : fieldBits c.fieldWidth (Integer.wrap (c.room - c.fieldWidth)) q with
      | error f =>
        rw [hfield] at hadd
        cases hadd
      | ok bits =>
        rw [hfield] at hadd
        cases hadd
        have hset := setBits_upon (b := { c with room := Integer.wrap (c.room - c.fieldWidth) }) hne finished t bits
        exact congrArg (fun b : MeasurementBuffer => ({ b with slice := max t s }, none)) hset

end

theorem Holds.newest_ne (h : Holds w b qubits t) (hopen : b.isOpen = true) : b.newest ≠ [] := by
  cases h with
  | flushed room => cases hopen
  | filled t _ _ _ => exact List.cons_ne_nil _ _

theorem Holds.pad_upon (h : Holds w b qubits s) (finished : List Word) (t : Int) :
    ∃ room, (b.upon finished t).pad =
      (upon ⟨w, [], false, room, 0⟩ (finished ++ batchWords w qubits) t, none) := by
  rw [MeasurementBuffer.pad_upon h.newest_ne]
  cases h with
  | flushed room => exact ⟨room, by simp [pad, batchWords]⟩
  | @filled full newest _ hfull hne hlen =>
    refine ⟨measuredRoom w newest, ?_⟩
    simp [pad_eq hlen, upon, batchWords, chunks_flatten_append hfull hne hlen]

-- ---------------------------------------------------------------------------
-- Runs
-- ---------------------------------------------------------------------------

def settled : MeasurementBuffer × Option Fault → Except Fault MeasurementBuffer
  | (b, none) => .ok b
  | (_, some f) => .error f

/-- A call on a buffer. The batches that were closed so far stand beside it. -/
def perform (state : MeasurementBuffer × List (List Word × Int)) :
    BufferCall → Except Fault (MeasurementBuffer × List (List Word × Int))
  | .add qubit slice => do return (← settled (state.1.add qubit slice), state.2)
  | .pad => do return (← settled state.1.pad, state.2)
  | .close => do
    let (words, slice, b) ← state.1.close
    return (b, state.2 ++ [(words, slice)])

/-- The buffer holds a batch in progress: what was added before the last
padding stands in finished words, and the rest is a batch without paddings. -/
def Collects (w : Nat) (b : MeasurementBuffer) (batch : List BufferCall) : Prop :=
  ∃ padded part c t, batch.splitOnP BufferCall.isPad = padded ++ [part] ∧ Holds w c (addedQubits part) t ∧
    b = c.upon (padded.flatMap fun part => batchWords w (addedQubits part)) (lastSlice batch)

namespace Collects

theorem empty (w : Nat) (room : Int) : Collects w ⟨w, [], false, room, 0⟩ [] :=
  ⟨[], [], _, 0, rfl, .flushed room, rfl⟩

theorem add (h : Collects w b batch) (hw : 0 < w) (hw60 : w ≤ headerRoom)
    (hbatch : ∀ call ∈ batch, call.Fits w) {q : Nat} {t : Int} (hq : q < 2 ^ w) (ht : 0 ≤ t) :
    ∃ b', b.add q t = (b', none) ∧ Collects w b' (batch ++ [.add q t]) := by
  obtain ⟨padded, part, c, s, hsplit, hc, rfl⟩ := h
  obtain ⟨c', hadd, hc'⟩ := hc.add hw hw60 hq t
  refine ⟨_, add_upon hc.newest_ne _ _ hadd, padded, part ++ [.add q t], c', max s t,
    splitOnP_concat hsplit rfl, ?_, ?_⟩
  · rw [addedQubits_append]
    exact hc'
  · rw [lastSlice_concat hbatch ht]

theorem pad_eq (h : Collects w b batch) :
    ∃ room, b.pad = (upon ⟨w, [], false, room, 0⟩ ((wordParts w batch).map (measuredWord w false))
      (lastSlice batch), none) := by
  obtain ⟨padded, part, c, s, hsplit, hc, rfl⟩ := h
  rw [map_wordParts hsplit]
  exact hc.pad_upon _ _

theorem pad (h : Collects w b batch) :
    ∃ b', b.pad = (b', none) ∧ b'.pad = (b', none) ∧ Collects w b' (batch ++ [.pad]) := by
  obtain ⟨room, hpad⟩ := h.pad_eq
  refine ⟨_, hpad, rfl, batch.splitOnP BufferCall.isPad, [], _, 0,
    List.splitOnP_append_cons batch [] rfl, .flushed room, ?_⟩
  have hslice : lastSlice (batch ++ [.pad]) = lastSlice batch := by
    have hnone : [BufferCall.pad].filterMap BufferCall.slice? = [] := rfl
    rw [lastSlice, lastSlice, List.filterMap_append, hnone, List.append_nil]
  rw [hslice, wordParts, List.map_flatMap]
  rfl

theorem close (h : Collects w b batch) :
    ∃ b', b.close = .ok ((wordParts w batch).map (measuredWord w false), lastSlice batch, b') ∧
      Collects w b' [] := by
  obtain ⟨room, hpad⟩ := h.pad_eq
  refine ⟨_, ?_, empty w room⟩
  simp [MeasurementBuffer.close, hpad, upon, words]

theorem isFlushed_iff (h : Collects w b batch) (hper : 0 < fieldsPerWord w) :
    b.isFlushed = true ↔ addedQubits batch = [] := by
  obtain ⟨padded, part, c, s, hsplit, hc, rfl⟩ := h
  have hwords (qubits : List Nat) : batchWords w qubits = [] ↔ qubits = [] := by
    rw [batchWords, List.map_eq_nil_iff, chunks_eq_nil hper]
  have hown : c.newest = [] ↔ addedQubits part = [] := by
    rw [← hc.isFlushed_iff, isFlushed, List.isEmpty_iff]
  rw [← flatMap_addedQubits, hsplit]
  simp [isFlushed, upon, hown, hwords, List.flatMap_eq_nil_iff, and_comm]

end Collects
end MeasurementBuffer

-- ---------------------------------------------------------------------------
-- Written batches
-- ---------------------------------------------------------------------------

/-- The word measures the qubits: they stand in its fields from the top, and
every bit below them is set. -/
structure Word.Measures (w : Nat) (qubits : List Nat) (word : Word) : Prop where
  opcode : word.opcode = 5
  notLast : word.isLast = false
  fits : qubits.length * w ≤ 60
  fields : ∀ (i : Nat) q, qubits[i]? = some q → word.field (59 - i * w) w = .ok q
  padding : word.isPadding (60 - qubits.length * w) = true

theorem Word.Holds.field_eq {word : Word} {pos : Nat} {f : BitField} {fs : List BitField}
    (h : word.Holds pos (f :: fs)) (hpos : pos < 64) :
    word.field (pos - 1) f.width = .ok f.bits := by
  have hle := h.width_le
  have hwrap : Integer.wrap ((pos : Int) - 1 - f.width + 1) = ((pos - f.width : Nat) : Int) := by
    rw [Integer.wrap_of_lt (by unfold Integer.bound; omega) (by unfold Integer.bound; omega)]
    omega
  have hlow : ¬ (((pos - f.width : Nat) : Int) < 0 ∨ (f.width : Int) < 0) := by omega
  have hlow64 : ¬ (64 : Int) ≤ ((pos - f.width : Nat) : Int) := by omega
  have hwidth : ¬ (64 : Int) ≤ f.width := by omega
  simp only [field, hwrap, hlow, hlow64, hwidth, if_false, Int.toNat_natCast, Nat.pow_eq, h.div_mod]

theorem measures_measuredWord {w : Nat} {qubits : List Nat} (hw : w ≤ 60) (hlen : qubits.length ≤ fieldsPerWord w)
    (hq : ∀ q ∈ qubits, q < 2 ^ w) : Word.Measures w qubits (measuredWord w false qubits) := by
  have hfits : qubits.length * w ≤ 60 := length_mul_le hlen
  have hword := holds_measuredWord hfits false
  have hbelow : (measuredWord w false qubits).Holds 60
      ((qubits.map fun q => ⟨q, w⟩) ++ [BitField.ones (measuredRoom w qubits)]) := hword.tail.tail
  refine ⟨Word.opcode_of_holds hword.tail (by decide), Word.isLast_of_holds hword, hfits, ?_, ?_⟩
  · intro i q hi
    obtain ⟨hlt, hget⟩ := List.getElem?_eq_some_iff.mp hi
    have hsplit : qubits = qubits.take i ++ q :: qubits.drop (i + 1) := by
      rw [← hget, List.getElem_cons_drop, List.take_append_drop]
    have htake : (qubits.take i).length = i := List.length_take_of_le (Nat.le_of_lt hlt)
    rw [hsplit, List.map_append, List.map_cons, List.append_assoc, List.cons_append, ← hsplit] at hbelow
    have hfield := hbelow.drop
    rw [totalWidth_fields, htake] at hfield
    have hbits : (BitField.mk q w).bits = q := BitField.bits_eq (hq q (List.mem_of_getElem? hi))
    have hroom : (i + 1) * w ≤ 60 := Nat.le_trans (Nat.mul_le_mul_right w hlt) hfits
    have hread := hfield.field_eq (by omega)
    rw [hbits] at hread
    rw [← hread]
    congr 1
    rw [Nat.succ_mul] at hroom
    push_cast [show i * w ≤ 60 by omega]
    ring
  · have hlast := hbelow.drop
    rw [totalWidth_fields] at hlast
    exact hlast.isPadding_ones

/-- A closed batch: its words hold the qubits, a new word for what does not fit
or follows a padding, and its timeslice is the last one of its measurements. -/
structure WrittenAs (w : Nat) (batch : List BufferCall) (output : List Word × Int) : Prop where
  words : List.Forall₂ (Word.Measures w) (wordParts w batch) output.1
  complete : (wordParts w batch).flatten = addedQubits batch
  slice : output.2 = lastSlice batch

theorem writtenAs {w : Nat} (hw : 0 < w) (hw60 : w ≤ 60) {batch : List BufferCall}
    (hbatch : ∀ call ∈ batch, call.Fits w) :
    WrittenAs w batch ((wordParts w batch).map (measuredWord w false), lastSlice batch) := by
  have hper : 0 < fieldsPerWord w := Nat.div_pos hw60 hw
  have hcomplete := flatten_wordParts hper batch
  refine ⟨?_, hcomplete, rfl⟩
  rw [List.forall₂_map_right_iff, List.forall₂_same]
  intro piece hpiece
  obtain ⟨part, -, hchunk⟩ := List.mem_flatMap.mp hpiece
  refine measures_measuredWord hw60 (length_le_of_mem_chunks hchunk) fun q hq => ?_
  have hadded : q ∈ addedQubits batch := hcomplete ▸ List.mem_flatten.mpr ⟨piece, hpiece, hq⟩
  obtain ⟨call, hcall, hqubit⟩ := List.mem_filterMap.mp hadded
  have hfits := hbatch call hcall
  cases call with
  | add q' t' =>
    cases hqubit
    exact hfits.1
  | pad => cases hqubit
  | close => cases hqubit

namespace MeasurementBuffer

/-- What a run of calls leaves: the closed batches as they were written, and
the last batch in progress. -/
def Ran (w : Nat) (calls : List BufferCall) (state : MeasurementBuffer × List (List Word × Int)) : Prop :=
  ∃ batches batch, calls.splitOnP BufferCall.isClose = batches ++ [batch] ∧ (∀ call ∈ batch, call.Fits w) ∧
    List.Forall₂ (WrittenAs w) batches state.2 ∧ Collects w state.1 batch

theorem Ran.perform {w : Nat} (hw : 0 < w) (hw60 : w ≤ 60) {calls : List BufferCall}
    {state : MeasurementBuffer × List (List Word × Int)} (h : Ran w calls state) {call : BufferCall}
    (hcall : call.Fits w) :
    ∃ state', MeasurementBuffer.perform state call = .ok state' ∧ Ran w (calls ++ [call]) state' := by
  obtain ⟨b, closed⟩ := state
  obtain ⟨batches, batch, hsplit, hbatch, hclosed, hb⟩ := h
  have hfits : ∀ c ∈ batch ++ [call], c.Fits w :=
    List.forall_mem_append.mpr ⟨hbatch, List.forall_mem_singleton.mpr hcall⟩
  cases call with
  | add q t =>
    obtain ⟨b', hadd, hb'⟩ := hb.add hw hw60 hbatch hcall.1 hcall.2
    refine ⟨(b', closed), ?_, batches, _, splitOnP_concat hsplit rfl, hfits, hclosed, hb'⟩
    simp [MeasurementBuffer.perform, hadd, settled, bind, Except.bind, pure, Except.pure]
  | pad =>
    obtain ⟨b', hpad, -, hb'⟩ := hb.pad
    refine ⟨(b', closed), ?_, batches, _, splitOnP_concat hsplit rfl, hfits, hclosed, hb'⟩
    simp [MeasurementBuffer.perform, hpad, settled, bind, Except.bind, pure, Except.pure]
  | close =>
    obtain ⟨b', hclose, hb'⟩ := hb.close
    refine ⟨(b', closed ++ [((wordParts w batch).map (measuredWord w false), lastSlice batch)]), ?_,
      batches ++ [batch], [], ?_, List.forall_mem_nil _, ?_, hb'⟩
    · simp only [MeasurementBuffer.perform, hclose, bind, Except.bind, pure, Except.pure]
    · rw [← hsplit]
      exact List.splitOnP_append_cons calls [] rfl
    · exact List.rel_append hclosed (.cons (writtenAs hw hw60 hbatch) .nil)

/-- Every sequence of calls goes through, and no measurement is lost: each batch
is written in words that hold its qubits in order, at its last timeslice. The
buffer is flushed just when nothing was added since the last closing, and a
second padding changes nothing. -/
theorem measurements_kept {w : Nat} (hw : 1 ≤ w) (hw60 : w ≤ 60) {calls : List BufferCall}
    (hcalls : ∀ call ∈ calls, call.Fits w) :
    ∃ b closed batches batch, calls.foldlM perform (ofWidth w, []) = .ok (b, closed) ∧
      calls.splitOnP BufferCall.isClose = batches ++ [batch] ∧
      List.Forall₂ (WrittenAs w) batches closed ∧
      (b.isFlushed = true ↔ addedQubits batch = []) ∧
      ∃ padded, b.pad = (padded, none) ∧ padded.pad = (padded, none) := by
  have hstart : Ran w [] (ofWidth w, []) :=
    ⟨[], [], rfl, List.forall_mem_nil _, .nil, Collects.empty w 0⟩
  obtain ⟨⟨b, closed⟩, hrun, batches, batch, hsplit, -, hclosed, hb⟩ :=
    foldlM_succeeds (l := calls) (P := Ran w) hstart fun done call rest state hl h =>
      h.perform hw hw60 (hcalls call (hl ▸ List.mem_append_right _ List.mem_cons_self))
  obtain ⟨padded, hpad, hagain, -⟩ := hb.pad
  exact ⟨b, closed, batches, batch, hrun, hsplit, hclosed, hb.isFlushed_iff (Nat.div_pos hw60 hw),
    padded, hpad, hagain⟩

theorem measurements_kept_padded :
    let calls : List BufferCall :=
      [.add 5 7, .add 1048575 9, .add 0 2, .add 6 3, .pad, .pad, .add 1 4, .close, .close, .add 2 0]
    (∀ call ∈ calls, call.Fits 20) ∧
      ∃ b closed, calls.foldlM perform (ofWidth 20, []) = .ok (b, closed) ∧
        List.Forall₂ (WrittenAs 20) [calls.take 7, []] closed ∧
        wordParts 20 (calls.take 7) = [[5, 1048575, 0], [6], [1]] ∧ lastSlice (calls.take 7) = 9 ∧
        b.isFlushed = false := by
  intro calls
  have hfits : ∀ call ∈ calls, call.Fits 20 := by simp [calls, BufferCall.Fits]
  obtain ⟨b, closed, batches, batch, hrun, hsplit, hclosed, hflushed, -⟩ :=
    measurements_kept (by decide) (by decide) hfits
  have hcalls : calls.splitOnP BufferCall.isClose = [calls.take 7, []] ++ [[.add 2 0]] := by decide
  obtain ⟨rfl, rfl⟩ := List.append_singleton_inj.mp (hsplit.symm.trans hcalls)
  refine ⟨hfits, b, closed, hrun, hclosed, ?_, by decide, ?_⟩
  · have hparts : (calls.take 7).splitOnP BufferCall.isPad = [calls.take 4, [], [.add 1 4]] := by decide
    have hfull : chunks 3 ([[5, 1048575, 0]].flatten ++ [6]) = [[5, 1048575, 0]] ++ [[6]] :=
      chunks_flatten_append (by simp) (by decide) (by decide)
    have hlast : chunks 3 [1] = [[1]] := chunks_of_length_le (by decide) (by decide)
    rw [wordParts, hparts]
    change chunks 3 ([[5, 1048575, 0]].flatten ++ [6]) ++ (chunks 3 [] ++ (chunks 3 [1] ++ [])) = _
    rw [hfull, chunks_nil, hlast]
    rfl
  · exact Bool.eq_false_iff.mpr fun h => absurd (hflushed.mp h) (by decide)

end MeasurementBuffer
end Sequencer
