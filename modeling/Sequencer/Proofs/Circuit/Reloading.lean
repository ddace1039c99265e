import Sequencer.Proofs.Circuit.Bookkeeping
import Sequencer.Proofs.Circuit.DocumentReading
import Sequencer.Proofs.Circuit.Keys
import Sequencer.Proofs.Circuit.Visits

/-!
# Loading what was written

A circuit under construction is loaded from its own document, in every field.
Loading declares the registers again and places the nodes qubit by qubit in
the order of their texts, which is not the order they were built in. So two
measurements into one bit at one timeslice may leave another note there; the
recorded notes, which go over those of placing, put that right.
-/

namespace Sequencer
namespace Circuit

open CircuitDraft

-- ---------------------------------------------------------------------------
-- Indices
-- ---------------------------------------------------------------------------

theorem get?_of_perm {α : Type} {l l' : List (String × α)} (hperm : l.Perm l')
    (h : (l'.map Prod.fst).Nodup) (key : String) :
    (⟨l⟩ : Assoc String α).get? key = (⟨l'⟩ : Assoc String α).get? key := by
  have hl : (l.map Prod.fst).Nodup := (hperm.map _).nodup_iff.mpr h
  refine Option.ext fun a => ?_
  rw [Assoc.get?_eq_some hl, Assoc.get?_eq_some h, hperm.mem_iff]

theorem indicesMatch_zipIdx {names : List String} (nodup : names.Nodup) :
    indicesMatch names ⟨(sortedByKey names.zipIdx).map fun e => (e.1, (e.2 : Int))⟩ = true := by
  have hkeys : ((sortedByKey names.zipIdx).map Prod.fst).Nodup :=
    nodup_sortedByKey (by simpa using nodup)
  simp only [indicesMatch, Bool.and_eq_true, List.all_eq_true, beq_iff_eq]
  constructor
  · intro name hname
    obtain ⟨i, hi⟩ : ∃ i, lastIndexOf? name names = some i := by
      refine Option.ne_none_iff_exists'.mp fun hnone => ?_
      exact lastIndexOf?_eq_none.mp hnone hname
    have hget := (lastIndexOf?_eq_some nodup).mp hi
    rw [hi]
    refine (Assoc.get?_eq_some (by simpa [Assoc.keys, Function.comp_def] using hkeys)).mpr ?_
    refine List.mem_map.mpr ⟨(name, i), mem_sortedByKey.mpr ?_, rfl⟩
    simpa [List.mem_zipIdx_iff_getElem?] using hget
  · intro name hname
    obtain ⟨e, he, rfl⟩ : ∃ e ∈ sortedByKey names.zipIdx, e.1 = name := by
      simpa [Assoc.keys, Function.comp_def] using hname
    have hmem : e.1 ∈ names.zipIdx.map Prod.fst := List.mem_map_of_mem (mem_sortedByKey.mp he)
    simpa using hmem

-- ---------------------------------------------------------------------------
-- Nodes
-- ---------------------------------------------------------------------------

theorem placesAll_append {c : Circuit} {first rest : List (String × Node)} :
    c.PlacesAll (first ++ rest) ↔ c.PlacesAll first ∧ (c.placeAll first).PlacesAll rest := by
  induction first generalizing c with
  | nil => simp [PlacesAll]
  | cons e more ih => simp [PlacesAll, ih, and_assoc]

theorem sliceOf_toString {t : Int} (h : Integer.InRange t) : sliceOf (toString t) = .ok t := by
  rw [sliceOf, Decimal.readInt_toString h.1 h.2]
  rfl

theorem placeKeyed_draft {c : Circuit} {q : String} {n : Node} (h : Integer.InRange n.timeslice)
    (hplace : (c.place q n).2 = none) :
    placeKeyed q c (toString n.timeslice) (some n.draft) = .ok (c.place q n).1 := by
  have hpair : c.place q n = ((c.place q n).1, none) := by rw [← hplace]
  simp only [placeKeyed, sliceOf_toString h, Option.map_some, Node.toNode_draft]
  rw [hpair]
  simp [bind, Except.bind, pure, Except.pure]

theorem foldlM_placeKeyed {c : Circuit} {q : String} {l : List (Int × Node)}
    (hl : ∀ e ∈ l, e.2.timeslice = e.1 ∧ Integer.InRange e.1)
    (places : c.PlacesAll (l.map fun e => (q, e.2))) :
    (l.map fun e => (toString e.1, some e.2.draft)).foldlM (fun c e => placeKeyed q c e.1 e.2) c =
      .ok (c.placeAll (l.map fun e => (q, e.2))) := by
  induction l generalizing c with
  | nil => rfl
  | cons e rest ih =>
    obtain ⟨⟨hslice, hrange⟩, hrest⟩ := List.forall_mem_cons.mp hl
    obtain ⟨hplace, hmore⟩ := places
    rw [List.map_cons, List.foldlM_cons, bind_eq_ok]
    exact ⟨_, hslice ▸ placeKeyed_draft (hslice ▸ hrange) hplace, ih hrest hmore⟩

theorem placeQubit_draft {c : Circuit} {q : String} {line : Timeline Node} (hq : q ∈ c.qubits)
    (hline : ∀ e ∈ line.entries, e.2.timeslice = e.1 ∧ Integer.InRange e.1)
    (places : c.PlacesAll ((byText line).map fun e => (q, e.2))) :
    placeQubit c q (lineDraft line) = .ok (c.placeAll ((byText line).map fun e => (q, e.2))) := by
  have hknown : c.hasQubit q = true := by simpa [hasQubit] using hq
  simp only [placeQubit, hknown]
  exact foldlM_placeKeyed (fun e he => hline e ((byText_perm line).mem_iff.mp he)) places

def placements (lines : List (String × Timeline Node)) : List (String × Node) :=
  lines.flatMap fun e => (byText e.2).map fun x => (e.1, x.2)

theorem mem_placements {lines : List (String × Timeline Node)} {q : String} {n : Node} :
    (q, n) ∈ placements lines ↔ ∃ line t, (q, line) ∈ lines ∧ (t, n) ∈ line.entries := by
  simp only [placements, List.mem_flatMap, List.mem_map, (byText_perm _).mem_iff, Prod.mk.injEq,
    Prod.exists]
  constructor
  · rintro ⟨p, line, hline, t, m, hm, rfl, rfl⟩
    exact ⟨line, t, hline, hm⟩
  · rintro ⟨line, t, hline, hm⟩
    exact ⟨q, line, hline, t, n, hm, rfl, rfl⟩

theorem foldlM_placeQubit {c : Circuit} {lines : List (String × Timeline Node)}
    (hq : ∀ e ∈ lines, e.1 ∈ c.qubits)
    (hlines : ∀ e ∈ lines, ∀ x ∈ e.2.entries, x.2.timeslice = x.1 ∧ Integer.InRange x.1)
    (places : c.PlacesAll (placements lines)) :
    (lines.map fun e => (e.1, lineDraft e.2)).foldlM (fun c e => placeQubit c e.1 e.2) c =
      .ok (c.placeAll (placements lines)) := by
  induction lines generalizing c with
  | nil => rfl
  | cons e rest ih =>
    obtain ⟨hqe, hqrest⟩ := List.forall_mem_cons.mp hq
    obtain ⟨he, hrest⟩ := List.forall_mem_cons.mp hlines
    rw [placements, List.flatMap_cons, placesAll_append] at places
    rw [List.map_cons, List.foldlM_cons, bind_eq_ok, placements, List.flatMap_cons, placeAll_append]
    refine ⟨_, placeQubit_draft hqe he places.1, ih ?_ hrest places.2⟩
    simpa [qubits, placeAll_quantum] using hqrest

-- ---------------------------------------------------------------------------
-- Notes
-- ---------------------------------------------------------------------------

theorem foldlM_sliceOf {l : List (Int × String)} (hl : ∀ e ∈ l, Integer.InRange e.1)
    (start : Timeline String) :
    (l.map fun e => (toString e.1, e.2)).foldlM
        (fun (line : Timeline String) e => do return line.insert (← sliceOf e.1) e.2) start =
      .ok (l.foldl (fun line e => line.insert e.1 e.2) start) := by
  induction l generalizing start with
  | nil => rfl
  | cons e rest ih =>
    obtain ⟨he, hrest⟩ := List.forall_mem_cons.mp hl
    rw [List.map_cons, List.foldlM_cons, bind_eq_ok]
    refine ⟨start.insert e.1 e.2, ?_, ih hrest _⟩
    rw [sliceOf_toString he]
    rfl

theorem foldl_insert_eq {line start : Timeline String}
    (h : ∀ t, (start.get? t).isSome → (line.get? t).isSome) :
    (byText line).foldl (fun line e => line.insert e.1 e.2) start = line := by
  have hnodup : ((byText line).map Prod.fst).Nodup :=
    ((byText_perm line).map _).nodup_iff.mpr line.nodup_slices
  refine Timeline.ext_get? fun t => Option.ext fun a => ?_
  rw [Timeline.get?_foldl_insert hnodup, (byText_perm line).mem_iff, Timeline.mem_iff_find line.ordered]
  refine or_iff_left ?_
  rintro ⟨hout, hstart⟩
  obtain ⟨b, hb⟩ := Option.isSome_iff_exists.mp (h t (by simp [hstart]))
  have hmem : (t, b) ∈ byText line :=
    (byText_perm line).mem_iff.mpr ((Timeline.mem_iff_find line.ordered).mpr hb)
  exact hout (List.mem_map_of_mem hmem)

/-- The circuit while its notes are recorded: those of the bits that are done
are right, and no bit has a note at a timeslice without one. -/
structure Recorded (c base : Circuit) (done : List String) (d : Circuit) : Prop where
  frame : d = { base with writes := d.writes }
  keys : d.writes.keys = c.writes.keys
  noted : ∀ b t, ((d.bitWrites b).get? t).isSome → ((c.bitWrites b).get? t).isSome
  right : ∀ b ∈ done, d.bitWrites b = c.bitWrites b

section
variable {c base d : Circuit} {done : List String}

theorem Recorded.recordWrites (h : c.Recorded base done d) (keyed : c.Keyed) (nodup : c.bits.Nodup)
    (classical : base.classical = c.classical)
    {b : String} {line : Timeline String} (he : (b, line) ∈ c.writes.entries)
    (hline : ∀ e ∈ line.entries, Integer.InRange e.1) :
    ∃ d', recordWrites d b (writesDraft line) = .ok d' ∧ c.Recorded base (done ++ [b]) d' := by
  have hkeys : c.writes.keys.Nodup := keyed.writes ▸ nodup
  have hwrites : c.bitWrites b = line := by
    rw [bitWrites, (Assoc.get?_eq_some hkeys).mpr he, Option.getD_some]
  have hmem : b ∈ d.writes.keys := h.keys ▸ List.mem_map_of_mem he
  have hbit : d.hasBit b = true := by
    have hb : b ∈ c.bits := keyed.writes ▸ List.mem_map_of_mem he
    rw [h.frame]
    simpa [hasBit, bits, classical] using hb
  have hfold := foldlM_sliceOf (fun e he => hline e ((byText_perm line).mem_iff.mp he)) (d.bitWrites b)
  rw [foldl_insert_eq (hwrites ▸ h.noted b)] at hfold
  refine ⟨{ d with writes := d.writes.insert b line }, ?_, ?_⟩
  · simp only [CircuitDraft.recordWrites, hbit, writesDraft]
    rw [hfold]
    rfl
  · have hnext (x : String) : ({ d with writes := d.writes.insert b line } : Circuit).bitWrites x =
        if b = x then c.bitWrites b else d.bitWrites x := by
      rw [hwrites]
      simp only [bitWrites, Assoc.get?_insert]
      split <;> rfl
    refine ⟨?_, ?_, ?_, ?_⟩
    · rw [h.frame]
    · exact (Assoc.keys_insert_of_mem _ hmem).trans h.keys
    · intro x t
      rw [hnext]
      split
      · rename_i hx
        rw [hx]
        exact id
      · exact h.noted x t
    · intro x hx
      rw [hnext]
      split
      · rename_i hbx
        rw [hbx]
      · rename_i hbx
        rcases List.mem_append.mp hx with hx | hx
        · exact h.right x hx
        · exact absurd (List.mem_singleton.mp hx).symm hbx

theorem Recorded.foldlM (h : c.Recorded base [] d) (keyed : c.Keyed) (nodup : c.bits.Nodup)
    (classical : base.classical = c.classical)
    (hlines : ∀ e ∈ c.writes.entries, ∀ w ∈ e.2.entries, Integer.InRange w.1) :
    ∃ d', ((sortedByKey c.writes.entries).map fun e => (e.1, writesDraft e.2)).foldlM
        (fun d e => CircuitDraft.recordWrites d e.1 e.2) d = .ok d' ∧
      c.Recorded base c.bits d' := by
  obtain ⟨d', hd', hrec⟩ := foldlM_succeeds
    (f := fun (d : Circuit) (e : String × Assoc String String) => CircuitDraft.recordWrites d e.1 e.2)
    (P := fun done d => c.Recorded base (done.map Prod.fst) d)
    (l := (sortedByKey c.writes.entries).map fun e => (e.1, writesDraft e.2)) h (by
      intro done a rest d hl hd
      obtain ⟨⟨b, line⟩, he, rfl⟩ := List.mem_map.mp (hl ▸ List.mem_append_right done List.mem_cons_self)
      have hentry := mem_sortedByKey.mp he
      simpa using hd.recordWrites keyed nodup classical hentry (hlines _ hentry))
  refine ⟨d', hd', hrec.frame, hrec.keys, hrec.noted, fun b hb => hrec.right b ?_⟩
  rw [← keyed.writes, Assoc.keys, ← ((sortedByKey_perm _).map _).mem_iff] at hb
  simpa [Function.comp_def] using hb

end

-- ---------------------------------------------------------------------------
-- Circuits
-- ---------------------------------------------------------------------------

theorem name_ofRegisters (name : String) (quantum classical : List Register) :
    (ofRegisters name quantum classical).name = name := by
  have hquantum (c : Circuit) :
      (quantum.foldl (fun c r => c.declareQubits r.name r.size) c).name = c.name := by
    induction quantum generalizing c with
    | nil => rfl
    | cons r rest ih => exact ih _
  have hclassical (c : Circuit) :
      (classical.foldl (fun c r => c.declareBits r.name r.size) c).name = c.name := by
    induction classical generalizing c with
    | nil => rfl
    | cons r rest ih => exact ih _
  exact (hclassical _).trans (hquantum _)

theorem bitWrites_ofRegisters (name : String) (quantum classical : List Register) (b : String) :
    (ofRegisters name quantum classical).bitWrites b = .empty := by
  have hquantum (c : Circuit) (h : c.bitWrites b = .empty) :
      (quantum.foldl (fun c r => c.declareQubits r.name r.size) c).bitWrites b = .empty := by
    induction quantum generalizing c with
    | nil => exact h
    | cons r rest ih => exact ih _ h
  have hclassical (c : Circuit) (h : c.bitWrites b = .empty) :
      (classical.foldl (fun c r => c.declareBits r.name r.size) c).bitWrites b = .empty := by
    induction classical generalizing c with
    | nil => exact h
    | cons r rest ih =>
      refine ih _ ?_
      simp only [bitWrites, declareBits, get?_foldl_insert] at h ⊢
      split
      · rfl
      · exact h
  exact hclassical _ (hquantum _ rfl)

theorem union_marks {marks placed : Assoc String Int} {names : List String} (nodup : names.Nodup)
    (hmarks : marks.keys = names) (hplaced : placed.keys = names) :
    placed.union ⟨sortedByKey marks.entries⟩ = marks := by
  have hperm : (sortedByKey marks.entries).Perm marks.entries := sortedByKey_perm _
  have hkeys : (marks.entries.map Prod.fst).Nodup := by
    rw [← hmarks] at nodup
    exact nodup
  refine Assoc.union_eq (hplaced ▸ nodup) ?_ (hmarks.trans hplaced.symm) (get?_of_perm hperm hkeys)
  rw [hplaced, ← hmarks]
  exact hperm.map _

structure Replaced (c base : Circuit) : Prop where
  keyed : base.Keyed
  name : base.name = c.name
  quantum : base.quantum = c.quantum
  classical : base.classical = c.classical
  nodes : ∀ q t, base.at? q t = c.at? q t
  lastSlice : base.lastSlice ≤ c.lastSlice
  lastMeasured : base.lastMeasured ≤ c.lastMeasured
  noted : ∀ b t, ((base.bitWrites b).get? t).isSome → ((c.bitWrites b).get? t).isSome

section
variable {c : Circuit} (wf : c.WellFormed) (keyed : c.Keyed)
include wf keyed

theorem WellFormed.mem_placements {lines : List (String × Timeline Node)}
    (hperm : lines.Perm c.timelines.entries) {q : String} {n : Node} :
    (q, n) ∈ placements lines ↔ c.at? q n.timeslice = some n := by
  have hkeys : c.timelines.keys.Nodup := keyed.timelines ▸ wf.nodup_qubits
  rw [Circuit.mem_placements]
  constructor
  · rintro ⟨line, t, hline, hn⟩
    have hget : c.timeline q = line := by
      rw [timeline, (Assoc.get?_eq_some hkeys).mpr (hperm.mem_iff.mp hline), Option.getD_some]
    have hat : c.at? q t = some n := by
      rw [at?, hget]
      exact (Timeline.mem_iff_find line.ordered).mp hn
    rwa [(wf.slice hat).1]
  · intro hat
    obtain ⟨line, hline⟩ := Option.isSome_iff_exists.mp ((wf.tracks q).mpr (wf.mem_qubits hat))
    have hget : c.timeline q = line := by rw [timeline, hline, Option.getD_some]
    refine ⟨line, n.timeslice, hperm.mem_iff.mpr ((Assoc.get?_eq_some hkeys).mp hline), ?_⟩
    rw [Timeline.mem_iff_find line.ordered, ← hget]
    exact hat

theorem WellFormed.placements_apart {lines : List (String × Timeline Node)}
    (hperm : lines.Perm c.timelines.entries) :
    (placements lines).Pairwise fun a b => a.1 = b.1 → a.2.timeslice ≠ b.2.timeslice := by
  have hnames : c.timelines.keys.Nodup := keyed.timelines ▸ wf.nodup_qubits
  have hkeys : (lines.map Prod.fst).Nodup := (hperm.map _).nodup_iff.mpr hnames
  refine List.pairwise_flatMap.mpr ⟨fun e he => ?_, ?_⟩
  · -- on one qubit every node stands at its own timeslice
    have hslice : ∀ x ∈ byText e.2, x.2.timeslice = x.1 := by
      intro x hx
      have hline : c.timeline e.1 = e.2 := by
        rw [timeline, (Assoc.get?_eq_some hnames).mpr (hperm.mem_iff.mp he), Option.getD_some]
      refine (wf.slice (q := e.1) (n := x.2) ?_).1
      rw [at?, hline]
      exact (Timeline.mem_iff_find e.2.ordered).mp ((byText_perm e.2).mem_iff.mp hx)
    have hnodup : ((byText e.2).map Prod.fst).Nodup :=
      ((byText_perm e.2).map _).nodup_iff.mpr e.2.nodup_slices
    refine List.pairwise_map.mpr ((List.pairwise_map.mp hnodup).imp_of_mem ?_)
    intro x y hx hy hne _ heq
    exact hne (by rw [← hslice x hx, ← hslice y hy, heq])
  · refine (List.pairwise_map.mp hkeys).imp fun {a b} hne x hx y hy heq => ?_
    obtain ⟨_, -, rfl⟩ := List.mem_map.mp hx
    obtain ⟨_, -, rfl⟩ := List.mem_map.mp hy
    exact absurd heq hne

theorem WellFormed.replaced (book : c.Bookkept) {lines : List (String × Timeline Node)}
    (hperm : lines.Perm c.timelines.entries) :
    c.skeleton.PlacesAll (placements lines) ∧ c.Replaced (c.skeleton.placeAll (placements lines)) := by
  have blank := wf.skeleton
  have hmem {q n} := wf.mem_placements keyed hperm (q := q) (n := n)
  have tracked : ∀ e ∈ placements lines, c.skeleton.Tracks e.1 := by
    intro e he
    rw [blank.wellFormed.tracks, qubits, blank.quantum_eq]
    exact wf.mem_qubits (hmem.mp he)
  have notes : ∀ e ∈ placements lines, e.2.measurement = true → ∀ b ∈ e.2.bits,
      (c.skeleton.writes.get? b).isSome := by
    intro e he hm b hb
    rw [blank.wellFormed.notes, bits, blank.classical_eq]
    exact (wf.measured (hmem.mp he) hm).2.2.2 b hb
  refine ⟨placesAll tracked notes, ?_⟩
  refine
    { keyed := (keyed_ofRegisters c.name wf.quantum_names wf.classical_names).placeAll _
      name := placeAll_name.trans (name_ofRegisters ..)
      quantum := placeAll_quantum.trans blank.quantum_eq
      classical := placeAll_classical.trans blank.classical_eq
      nodes := ?_
      lastSlice := ?_
      lastMeasured := ?_
      noted := ?_ }
  · intro q t
    refine Option.ext fun n => ?_
    rw [at?_placeAll tracked (wf.placements_apart keyed hperm), blank.empty]
    simp only [reduceCtorEq, and_false, or_false, hmem]
    constructor
    · rintro ⟨hn, rfl⟩
      exact hn
    · intro hn
      have hslice := (wf.slice hn).1
      exact ⟨hslice.symm ▸ hn, hslice⟩
  · rw [lastSlice_placeAll tracked, blank.lastSlice_eq]
    refine foldl_max_le wf.lastSlice_nonneg (List.forall_mem_map.mpr fun e he => ?_)
    exact wf.slice_le (hmem.mp he)
  · rw [lastMeasured_placeAll tracked, blank.lastMeasured_eq]
    refine foldl_max_le wf.measured_nonneg (List.forall_mem_map.mpr fun e he => ?_)
    obtain ⟨he, hm⟩ := List.mem_filter.mp he
    exact (wf.measured (hmem.mp he) hm).1
  · intro b t hsome
    rw [isSome_bitWrites_placeAll tracked notes, Circuit.skeleton, bitWrites_ofRegisters] at hsome
    rcases hsome with ⟨e, he, hw, rfl⟩ | hsome
    · exact book.noted ⟨e.2, hmem.mp he, hw⟩
    · cases hsome

theorem Replaced.overlaid {base d : Circuit} (h : c.Replaced base) (recorded : c.Recorded base c.bits d) :
    ({ d with
      qubitMarks := d.qubitMarks.union c.draft.qubitMarks
      bitMarks := d.bitMarks.union c.draft.bitMarks
      lastSlice := max d.lastSlice c.lastSlice
      lastMeasured := max d.lastMeasured c.lastMeasured } : Circuit) = c := by
  have hqubits : base.qubits = c.qubits := by rw [qubits, h.quantum, qubits]
  have hbits : base.bits = c.bits := by rw [bits, h.classical, bits]
  have hqubitMarks : base.qubitMarks.union c.draft.qubitMarks = c.qubitMarks :=
    union_marks wf.nodup_qubits keyed.qubitMarks (hqubits ▸ h.keyed.qubitMarks)
  have hbitMarks : base.bitMarks.union c.draft.bitMarks = c.bitMarks :=
    union_marks wf.nodup_bits keyed.bitMarks (hbits ▸ h.keyed.bitMarks)
  rw [recorded.frame]
  simp only [hqubitMarks, hbitMarks]
  refine Keyed.ext keyed ?_ wf.nodup_qubits wf.nodup_bits h.name h.quantum h.classical h.nodes ?_ (fun _ => rfl)
    (fun _ => rfl) ?_ ?_
  · exact ⟨h.keyed.timelines, keyed.qubitMarks.trans hqubits.symm,
      recorded.keys.trans (keyed.writes.trans hbits.symm), keyed.bitMarks.trans hbits.symm⟩
  · intro b t
    show ((d.bitWrites b).get? t) = _
    by_cases hb : b ∈ c.bits
    · rw [recorded.right b hb]
    · have hout {m : Assoc String (Timeline String)} (hm : m.keys = c.writes.keys) : m.get? b = none := by
        rw [← Option.not_isSome_iff_eq_none, Assoc.isSome_get?, hm, keyed.writes]
        exact hb
      rw [bitWrites, bitWrites, hout recorded.keys, hout rfl]
  · exact Int.max_eq_right h.lastSlice
  · exact Int.max_eq_right h.lastMeasured

theorem WellFormed.toCircuit_draft (book : c.Bookkept) (doc : c.Documentable) :
    c.draft.toCircuit = .ok c := by
  have hsorted : (c.draft.nodes.entries.mergeSort fun a b => a.1 ≤ b.1) =
      (sortedByKey (sortedByKey c.timelines.entries)).map fun e => (e.1, lineDraft e.2) :=
    sortedByKey_map _ _
  have hperm : (sortedByKey (sortedByKey c.timelines.entries)).Perm c.timelines.entries :=
    (sortedByKey_perm _).trans (sortedByKey_perm _)
  obtain ⟨places, replaced⟩ := wf.replaced keyed book hperm
  have hline {q : String} {line : Timeline Node} (he : (q, line) ∈ c.timelines.entries) :
      c.timeline q = line := by
    rw [timeline, (Assoc.get?_eq_some doc.timelines.1).mpr he, Option.getD_some]
  have hnodes := foldlM_placeQubit (c := c.skeleton) (by
      intro e he
      rw [qubits, wf.skeleton.quantum_eq, ← qubits, ← keyed.timelines]
      exact List.mem_map_of_mem (hperm.mem_iff.mp he)) (by
      intro e he x hx
      have hentry := hperm.mem_iff.mp he
      refine ⟨(wf.slice (q := e.1) (n := x.2) ?_).1, (doc.timelines.2 e hentry x hx).1⟩
      rw [at?, hline hentry]
      exact (Timeline.mem_iff_find e.2.ordered).mp hx) places
  obtain ⟨d, hd, recorded⟩ := Recorded.foldlM (c := c) (d := c.skeleton.placeAll _)
    ⟨rfl, by rw [replaced.keyed.writes, keyed.writes, bits, replaced.classical, bits], replaced.noted, by simp⟩
    keyed wf.nodup_bits replaced.classical doc.writes.2
  have hmatch : (indicesMatch c.skeleton.qubits c.draft.qubitIndex &&
      indicesMatch c.skeleton.bits c.draft.bitIndex) = true := by
    rw [qubits, wf.skeleton.quantum_eq, bits, wf.skeleton.classical_eq, Bool.and_eq_true]
    exact ⟨indicesMatch_zipIdx wf.nodup_qubits, indicesMatch_zipIdx wf.nodup_bits⟩
  have hrun : c.draft.toCircuit = .ok { d with
      qubitMarks := d.qubitMarks.union c.draft.qubitMarks
      bitMarks := d.bitMarks.union c.draft.bitMarks
      lastSlice := max d.lastSlice c.lastSlice
      lastMeasured := max d.lastMeasured c.lastMeasured } := by
    have hstart : Circuit.ofRegisters c.draft.name c.draft.quantum.items c.draft.classical.items =
        c.skeleton := rfl
    simp only [CircuitDraft.toCircuit, CircuitDraft.toCircuitIn, hstart, hmatch, hsorted]
    show (_ >>= _) = _
    rw [hnodes]
    simp only [bind_eq_ok]
    exact ⟨_, rfl, d, hd, rfl⟩
  rw [hrun, replaced.overlaid wf keyed recorded]

end

/-- The integers that callers choose have 64 bits. -/
structure Representable (c : Circuit) : Prop where
  quantum : ∀ r ∈ c.quantum, Integer.InRange r.size
  classical : ∀ r ∈ c.classical, Integer.InRange r.size
  conditions : ∀ v ∈ c.visits, ∀ k ∈ v.2.2.cond, k.Representable

end Circuit

theorem Circuit.WellFormed.documentable {c : Circuit} (wf : c.WellFormed) (keyed : c.Keyed) (book : c.Bookkept)
    (rep : c.Representable) (params : ∀ v ∈ c.visits, ∀ x ∈ v.2.2.params, Faithful x)
    (hlast : c.lastSlice < Integer.bound) (hqubits : c.numQubits < Integer.bound)
    (hbits : c.bits.length < Integer.bound) : c.Documentable := by
  have hnat {t : Int} (h0 : 0 ≤ t) (h : t ≤ c.lastSlice) : Integer.InRange t :=
    ⟨by omega, by omega⟩
  have hmark {marks : Assoc String Int} {e : String × Int} (hkeys : marks.keys.Nodup)
      (he : e ∈ marks.entries) : Circuit.mark marks e.1 = e.2 := by
    rw [Circuit.mark, (Assoc.get?_eq_some hkeys).mpr he, Option.getD_some]
  have hqubitMarks : c.qubitMarks.keys.Nodup := keyed.qubitMarks ▸ wf.nodup_qubits
  have hbitMarks : c.bitMarks.keys.Nodup := keyed.bitMarks ▸ wf.nodup_bits
  have hwrites : c.writes.keys.Nodup := keyed.writes ▸ wf.nodup_bits
  have htimelines : c.timelines.keys.Nodup := keyed.timelines ▸ wf.nodup_qubits
  refine
    { quantum := rep.quantum
      classical := rep.classical
      qubits := ⟨wf.nodup_qubits, hqubits⟩
      bits := ⟨wf.nodup_bits, hbits⟩
      qubitMarks := ⟨hqubitMarks, fun e he => ?_⟩
      bitMarks := ⟨hbitMarks, fun e he => ?_⟩
      lastSlice := hnat wf.lastSlice_nonneg (Int.le_refl _)
      lastMeasured := hnat wf.measured_nonneg wf.measured_le
      writes := ⟨hwrites, fun e he w hw => ?_⟩
      timelines := ⟨htimelines, fun e he x hx => ?_⟩ }
  · rw [← hmark hqubitMarks he]
    exact hnat (wf.mark_nonneg _) (wf.mark_le _)
  · rw [← hmark hbitMarks he]
    rcases (book.bit_mark e.1).2 with ⟨q, n, hn, -⟩ | ⟨h0, -⟩
    · have := (wf.slice hn).2.1
      exact hnat (by omega) (wf.slice_le hn)
    · rw [h0]
      exact hnat (Int.le_refl 0) wf.lastSlice_nonneg
  · have hline : c.bitWrites e.1 = e.2 := by
      rw [Circuit.bitWrites, (Assoc.get?_eq_some hwrites).mpr he, Option.getD_some]
    obtain ⟨n, hn, -⟩ := book.note (b := e.1) (t := w.1) (q := w.2)
      (hline ▸ (Timeline.mem_iff_find e.2.ordered).mp hw)
    have := (wf.slice hn).2.1
    exact hnat (by omega) (wf.slice_le hn)
  · have hline : c.timeline e.1 = e.2 := by
      rw [Circuit.timeline, (Assoc.get?_eq_some htimelines).mpr he, Option.getD_some]
    have hn : c.at? e.1 x.1 = some x.2 := by
      rw [Circuit.at?, hline]
      exact (Timeline.mem_iff_find e.2.ordered).mp hx
    obtain ⟨hslice, hpos, -⟩ := wf.slice hn
    have hrange : Integer.InRange x.1 := hnat (by omega) (wf.slice_le hn)
    have hvisit : (x.1, e.1, x.2) ∈ c.visits := wf.mem_visits.mpr hn
    exact ⟨hrange, hslice ▸ hrange, params _ hvisit, rep.conditions _ hvisit⟩

theorem Construction.documentable (k : Construction) (rep : k.circuit.Representable)
    (params : ∀ v ∈ k.circuit.visits, ∀ x ∈ v.2.2.params, Faithful x) : k.circuit.Documentable := by
  have hlast : k.circuit.lastSlice < Integer.bound := by
    have := k.sound.lastSlice_le
    have := k.counted
    omega
  exact k.wellFormed.documentable k.keyed k.bookkept rep params hlast k.numQubits_lt k.bits_length_lt

/-- A circuit under construction is written as a document, and loaded from its
text it is the same in every field. -/
theorem load_documentText (k : Construction) (rep : k.circuit.Representable)
    (params : ∀ v ∈ k.circuit.visits, ∀ x ∈ v.2.2.params, Faithful x) :
    ∃ text, k.circuit.documentText = .ok text ∧ Circuit.load text = .ok k.circuit := by
  have doc := k.documentable rep params
  obtain ⟨j, hj, written, hdraft⟩ := Circuit.toJson_spec doc
  refine ⟨j.indented 0 ++ "\n", ?_, ?_⟩
  · rw [Circuit.documentText, hj]
    rfl
  · rw [Circuit.load, written.read?_text (by decide)]
    simp only [hdraft]
    exact k.wellFormed.toCircuit_draft k.keyed k.bookkept doc

/-- Registers come between operations, one of them is empty, there is a rotation,
and two qubits are measured into one bit at one timeslice, the later one by name
first. -/
def Construction.interleaved : Construction where
  name := "interleaved"
  steps := [
    .quantum ⟨"q", 2⟩, .classical ⟨"c", 1⟩,
    .call (.gate "h" "q[0]" [] none),
    .quantum ⟨"empty", 0⟩,
    .call (.measure ["q[1]", "q[0]"] ["c[0]", "c[0]"] none),
    .classical ⟨"d", 2⟩, .quantum ⟨"a", 1⟩,
    .call (.gate "x" "a[0]" [] (some ⟨"c[0]", 1, .bit⟩)),
    .call (.gate "rz" "q[1]" [-0.25] none),
    .call (.controlled "cx" ["q[1]", "a[0]"] "q[0]" [] (some ⟨"d", 2, .register⟩)),
    .call (.barrier ["q[0]", "a[0]"]),
    .call (.reset ["q[1]"] none)]
  quantum_fresh := by decide
  classical_fresh := by decide
  counted := by decide
  qubits_counted := by decide
  bits_counted := by decide

instance (k : Condition) : Decidable k.Representable :=
  decidable_of_iff (Integer.InRange k.value ∧ Integer.InRange k.kind.code ∧
      TestKind.ofCode k.kind.code = k.kind)
    ⟨fun h => ⟨h.1, h.2.1, h.2.2⟩, fun h => ⟨h.value, h.code, h.kind⟩⟩

theorem load_documentText_interleaved :
    ∃ text, Construction.interleaved.circuit.documentText = .ok text ∧
      Circuit.load text = .ok Construction.interleaved.circuit := by
  have rep : Construction.interleaved.circuit.Representable :=
    ⟨by decide +kernel, by decide +kernel, by decide +kernel⟩
  exact load_documentText .interleaved rep (by decide +kernel)

end Sequencer
