import Sequencer.Circuit.Loading
import Sequencer.Proofs.Circuit.Bookkeeping
import Sequencer.Proofs.Decimal.Numerals
import Sequencer.Proofs.Json.Records

/-!
# Extending loaded circuits

A document is accepted whatever marks it records for its qubits, and they go
over those that its nodes gave. A qubit whose mark is not below its nodes is
extended as if the circuit had been built here: every later operation on it
comes after all that is there. A qubit whose mark was recorded too low is not:
the next operation goes to an earlier timeslice, and may take the place of a
loaded one.
-/

namespace Sequencer

namespace Circuit

def WithinMark (c : Circuit) (q : String) : Prop :=
  ∀ t n, c.at? q t = some n → t ≤ max 0 (mark c.qubitMarks q)

def Ready (c : Circuit) : Prop := ∀ q, c.Tracks q ↔ q ∈ c.qubits

/-- The timeslice after the marks of the participants is an integer of 64 bits. -/
def HasRoomFor (c : Circuit) (k : BuildCall) : Prop :=
  ∀ q ∈ k.participants, mark c.qubitMarks q + 1 < Integer.bound

/-- The second circuit has one more operation on the qubit, after all that the
first has. -/
def AppendsTo (c d : Circuit) (q : String) : Prop :=
  ∃ t n, (∀ s m, c.at? q s = some m → s < t) ∧ ∀ s, d.at? q s = if s = t then some n else c.at? q s

/-- Whatever is done to the circuit, a further call that succeeds, with room for
it, either has the qubit among its participants and puts its node after all
that is there, or leaves the qubit alone. -/
def ExtendsSafely (c : Circuit) (q : String) : Prop :=
  ∀ (steps : List BuildStep) (k : BuildCall) (d : Circuit),
    (steps.foldl BuildStep.apply c).perform k = .ok d → (steps.foldl BuildStep.apply c).HasRoomFor k →
      if q ∈ k.participants then AppendsTo (steps.foldl BuildStep.apply c) d q
      else ∀ t, d.at? q t = (steps.foldl BuildStep.apply c).at? q t

-- ---------------------------------------------------------------------------
-- Declarations
-- ---------------------------------------------------------------------------

section
variable {c : Circuit} (register : String) (size : Int)

theorem mark_redeclare (q : String) : mark (c.declareQubits register size).qubitMarks q =
    if q ∈ Register.elements ⟨register, size⟩ then 0 else mark c.qubitMarks q := by
  simp only [mark, declareQubits, get?_foldl_insert]
  split <;> rfl

theorem at?_redeclare (q : String) (t : Int) : (c.declareQubits register size).at? q t =
    if q ∈ Register.elements ⟨register, size⟩ then none else c.at? q t := by
  simp only [at?, timeline, declareQubits, get?_foldl_insert]
  split <;> rfl

theorem Ready.declareQubits (h : c.Ready) : (c.declareQubits register size).Ready := by
  intro q
  have hqubits : (c.declareQubits register size).qubits = c.qubits ++ Register.elements ⟨register, size⟩ := by
    simp [Circuit.declareQubits, qubits]
  rw [hqubits, List.mem_append, ← h]
  simp only [Tracks, Circuit.declareQubits, get?_foldl_insert]
  by_cases hq : q ∈ Register.elements ⟨register, size⟩
  · simp [hq]
  · simp [hq]

theorem WithinMark.declareQubits {q : String} (h : c.WithinMark q) : (c.declareQubits register size).WithinMark q := by
  intro t n hn
  rw [at?_redeclare] at hn
  rw [mark_redeclare]
  by_cases hq : q ∈ Register.elements ⟨register, size⟩
  · rw [if_pos hq] at hn
    cases hn
  · rw [if_neg hq] at hn ⊢
    exact h t n hn

end

-- ---------------------------------------------------------------------------
-- Nodes
-- ---------------------------------------------------------------------------

section
variable {c : Circuit} {p : String} {n : Node} (hp : c.Tracks p)
include hp

theorem Ready.place (h : c.Ready) : (c.place p n).1.Ready := by
  intro q
  rw [place_tracks n hp, h, qubits, qubits, place_quantum]

theorem WithinMark.place {q : String} (h : c.WithinMark q) : (c.place p n).1.WithinMark q := by
  intro t m hm
  rw [at?_place n hp] at hm
  rw [mark_place n hp]
  by_cases hq : q = p
  · subst hq
    rw [if_pos rfl]
    by_cases ht : t = n.timeslice
    · omega
    · rw [if_neg (fun heq => ht heq.2)] at hm
      have := h t m hm
      omega
  · rw [if_neg (fun heq => hq heq.1)] at hm
    rw [if_neg hq]
    exact h t m hm

end

section
variable {c : Circuit} {nodes : List (String × Node)} (hp : ∀ e ∈ nodes, c.Tracks e.1)
include hp

theorem Ready.placeAll (h : c.Ready) : (c.placeAll nodes).Ready := by
  intro q
  rw [placeAll_tracks hp, h, qubits, qubits, placeAll_quantum]

theorem WithinMark.placeAll {q : String} (h : c.WithinMark q) : (c.placeAll nodes).WithinMark q := by
  induction nodes generalizing c with
  | nil => exact h
  | cons e rest ih => exact ih (tracks_tail hp) (WithinMark.place (hp e List.mem_cons_self) h)

theorem at?_placeAll_slot (distinct : (nodes.map Prod.fst).Nodup) {slot : Int}
    (hslot : ∀ e ∈ nodes, e.2.timeslice = slot) (q : String) :
    if q ∈ nodes.map Prod.fst then ∃ n, ∀ t, (c.placeAll nodes).at? q t = if t = slot then some n else c.at? q t
    else ∀ t, (c.placeAll nodes).at? q t = c.at? q t := by
  have hat := at?_placeAll hp ((List.pairwise_map.mp distinct).imp fun hab heq => absurd heq hab) q
  split
  · rename_i hq
    obtain ⟨⟨q, n⟩, hmem, rfl⟩ := List.mem_map.mp hq
    refine ⟨n, fun t => ?_⟩
    by_cases ht : t = slot
    · rw [if_pos ht]
      exact (hat t n).mpr (.inl ⟨hmem, (hslot _ hmem).trans ht.symm⟩)
    · rw [if_neg ht]
      refine Option.ext fun m => (hat t m).trans ⟨fun hm => ?_, fun hm => .inr ⟨?_, hm⟩⟩
      · rcases hm with ⟨hmem, heq⟩ | ⟨-, hm⟩
        · exact absurd (heq.symm.trans (hslot _ hmem)) ht
        · exact hm
      · exact fun e he _ heq => ht (heq.symm.trans (hslot e he))
  · rename_i hq
    refine fun t => Option.ext fun n => (hat t n).trans ⟨fun hn => ?_, fun hn => .inr ⟨?_, hn⟩⟩
    · rcases hn with ⟨hmem, -⟩ | ⟨-, hn⟩
      · exact absurd (List.mem_map_of_mem hmem) hq
      · exact hn
    · exact fun e he heq => absurd (heq ▸ List.mem_map_of_mem he) hq

end

-- ---------------------------------------------------------------------------
-- Calls
-- ---------------------------------------------------------------------------

theorem lt_slotFor {c : Circuit} {k : BuildCall} (h : c.HasRoomFor k) :
    ∀ q ∈ k.participants, max 0 (mark c.qubitMarks q) < c.slotFor k.participants k.cond := by
  intro q hq
  have hle : mark c.qubitMarks q ≤ (k.participants.map (mark c.qubitMarks)).foldl max 0 :=
    le_foldl_max_of_mem (List.mem_map_of_mem hq)
  have hzero := le_foldl_max 0 (k.participants.map (mark c.qubitMarks))
  have hroom : (k.participants.map (mark c.qubitMarks)).foldl max 0 ≤ Integer.bound - 2 := by
    refine foldl_max_le (by decide) fun x hx => ?_
    obtain ⟨p, hp, rfl⟩ := List.mem_map.mp hx
    have := h p hp
    omega
  simp only [slotFor]
  rw [foldl_max_mark, Integer.wrap_of_lt (by omega) (by omega)]
  split <;> omega

theorem slotFor_singleton {c : Circuit} {q : String} (h : mark c.qubitMarks q + 1 < Integer.bound) :
    c.slotFor [q] none = max 0 (mark c.qubitMarks q) + 1 := by
  have hbound : (1 : Int) < Integer.bound := by decide
  simp only [slotFor, List.foldl_cons, List.foldl_nil, Option.isSome_none, Bool.false_eq_true, ↓reduceIte]
  exact Integer.wrap_of_lt (by omega) (by omega)

section
variable {c d : Circuit} {k : BuildCall} (h : c.Ready) (hk : c.perform k = .ok d)
include h hk

theorem Ready.tracks_nodes : ∀ e ∈ k.nodes (c.slotFor k.participants k.cond), c.Tracks e.1 := by
  obtain ⟨-, placed, -⟩ := perform_nodes hk
  exact fun e he => (h e.1).mpr (placed.declared e he)

theorem Ready.perform : d.Ready := by
  have hp := h.tracks_nodes hk
  obtain ⟨-, -, rfl⟩ := perform_nodes hk
  exact h.placeAll hp

theorem WithinMark.perform {q : String} (hq : c.WithinMark q) : d.WithinMark q := by
  have hp := h.tracks_nodes hk
  obtain ⟨-, -, rfl⟩ := perform_nodes hk
  exact hq.placeAll hp

theorem Ready.at?_perform (q : String) :
    if q ∈ k.participants then
      ∃ n, ∀ t, d.at? q t = if t = c.slotFor k.participants k.cond then some n else c.at? q t
    else ∀ t, d.at? q t = c.at? q t := by
  have hp := h.tracks_nodes hk
  obtain ⟨hfst, placed, rfl⟩ := perform_nodes hk
  have hat := at?_placeAll_slot hp placed.distinct placed.slot q
  rw [hfst] at hat
  exact hat

end

theorem Ready.apply {c : Circuit} (h : c.Ready) (s : BuildStep) :
    (s.apply c).Ready ∧ ∀ q, c.WithinMark q → (s.apply c).WithinMark q := by
  cases s with
  | quantum r => exact ⟨h.declareQubits _ _, fun q hq => hq.declareQubits _ _⟩
  | classical r => exact ⟨h, fun q hq => hq⟩
  | call k =>
    cases hk : c.perform k with
    | error e =>
      rw [BuildStep.apply_of_error hk]
      exact ⟨h, fun q hq => hq⟩
    | ok d =>
      rw [BuildStep.apply_of_ok hk]
      exact ⟨h.perform hk, fun q hq => hq.perform h hk⟩

theorem Ready.run {c : Circuit} (h : c.Ready) (steps : List BuildStep) :
    (steps.foldl BuildStep.apply c).Ready ∧ ∀ q, c.WithinMark q → (steps.foldl BuildStep.apply c).WithinMark q := by
  induction steps generalizing c with
  | nil => exact ⟨h, fun q hq => hq⟩
  | cons s rest ih =>
    obtain ⟨hready, hwithin⟩ := h.apply s
    obtain ⟨hready', hwithin'⟩ := ih hready
    exact ⟨hready', fun q hq => hwithin' q (hwithin q hq)⟩

theorem Ready.extendsSafely {c : Circuit} (h : c.Ready) {q : String} (hq : c.WithinMark q) : c.ExtendsSafely q := by
  intro steps k d hk hroom
  obtain ⟨hready, hwithin⟩ := h.run steps
  have hat := hready.at?_perform hk q
  split at hat
  · rename_i hmem
    obtain ⟨n, hn⟩ := hat
    rw [if_pos hmem]
    refine ⟨_, n, fun s m hm => ?_, hn⟩
    have := hwithin q hq s m hm
    have := lt_slotFor hroom q hmem
    omega
  · rename_i hmem
    rw [if_neg hmem]
    exact hat

theorem AppendsTo.behind {c d : Circuit} {q : String} (h : AppendsTo c d q) {t : Int} {n : Node}
    (hat : ∀ s, d.at? q s = if s = t then some n else c.at? q s) : ∀ s m, c.at? q s = some m → s < t := by
  obtain ⟨t', n', hbehind, hat'⟩ := h
  suffices t' = t by rwa [← this]
  by_contra hne
  have hkept := hat t'
  rw [hat', if_pos rfl, if_neg hne] at hkept
  exact Int.lt_irrefl _ (hbehind t' n' hkept.symm)

/-- One gate on a qubit shows whether its mark is too low. -/
theorem Ready.withinMark_of_extendsSafely {c : Circuit} (h : c.Ready) {q : String} (hq : q ∈ c.qubits)
    (counted : ∀ t n, c.at? q t = some n → t < Integer.bound) (hsafe : c.ExtendsSafely q) : c.WithinMark q := by
  intro t n hn
  by_cases hroom : mark c.qubitMarks q + 1 < Integer.bound
  · have hmem : q ∈ (BuildCall.gate "x" q [] none).participants := List.mem_singleton_self q
    have hvalid : (BuildCall.gate "x" q [] none).Valid c :=
      ⟨List.forall_mem_singleton.mpr hq, List.nodup_singleton q, trivial⟩
    obtain ⟨d, hd⟩ := (perform_ok_iff c _).mpr hvalid
    have happends := hsafe [] _ d hd (List.forall_mem_singleton.mpr hroom)
    have hat := h.at?_perform hd q
    rw [if_pos hmem] at happends hat
    obtain ⟨m, hm⟩ := hat
    have hbehind : t < c.slotFor [q] none := happends.behind hm t n hn
    rw [slotFor_singleton hroom] at hbehind
    omega
  · have := counted t n hn
    omega

-- ---------------------------------------------------------------------------
-- Loading
-- ---------------------------------------------------------------------------

structure Marked (c : Circuit) : Prop where
  ready : c.Ready
  within : ∀ q, c.WithinMark q
  counted : ∀ q t n, c.at? q t = some n → t < Integer.bound

theorem Marked.declareQubits {c : Circuit} (h : c.Marked) (register : String) (size : Int) :
    (c.declareQubits register size).Marked := by
  refine ⟨h.ready.declareQubits _ _, fun q => (h.within q).declareQubits _ _, fun q t n hn => ?_⟩
  rw [at?_redeclare] at hn
  split at hn
  · cases hn
  · exact h.counted q t n hn

theorem Marked.place {c : Circuit} (h : c.Marked) {p : String} (hp : p ∈ c.qubits) {n : Node}
    (counted : n.timeslice < Integer.bound) : (c.place p n).1.Marked := by
  have tracked := (h.ready p).mpr hp
  refine ⟨h.ready.place tracked, fun q => (h.within q).place tracked, fun q t m hm => ?_⟩
  rw [at?_place n tracked] at hm
  split at hm
  · rename_i heq
    rw [heq.2]
    exact counted
  · exact h.counted q t m hm

theorem marked_ofRegisters (name : String) (quantum classical : List Register) :
    (ofRegisters name quantum classical).Marked := by
  have hnew : ({ name := name } : Circuit).Marked :=
    ⟨fun q => by simp [Tracks, Assoc.get?, Assoc.find, qubits], fun _ _ _ hn => (nomatch hn),
      fun _ _ _ hn => (nomatch hn)⟩
  have hquantum := List.foldlRecOn (motive := Marked) quantum (fun c r => c.declareQubits r.name r.size) hnew
    fun c hc r _ => hc.declareQubits _ _
  exact List.foldlRecOn (motive := Marked) classical (fun c r => c.declareBits r.name r.size) hquantum
    fun c hc r _ => ⟨hc.ready, hc.within, hc.counted⟩

end Circuit

namespace CircuitDraft

theorem nodup_qubitMarks {d : CircuitDraft} {j : Json} (h : overJson {} j = some d) : d.qubitMarks.keys.Nodup := by
  refine Json.overRecord_keeps (P := fun d => d.qubitMarks.keys.Nodup) ?_ List.nodup_nil h
  intro f hf a j a' ha hread
  simp only [List.mem_cons, List.not_mem_nil, or_false] at hf
  rcases hf with rfl | rfl | rfl | rfl | rfl | rfl | rfl | rfl | rfl | rfl | rfl <;>
    obtain ⟨v, hv, rfl⟩ := Option.map_eq_some_iff.mp hread <;> try exact ha
  -- What is left is the field that sets the marks.
  exact Json.nodup_overMap ha hv

theorem placeKeyed_ok {q key : String} {c c' : Circuit} {draft : Option NodeDraft}
    (h : placeKeyed q c key draft = .ok c') : ∃ n : Node, n.timeslice < Integer.bound ∧ c' = (c.place q n).1 := by
  simp only [placeKeyed, bind_eq_ok] at h
  obtain ⟨t, ht, h⟩ := h
  split at h
  · cases h
  · rename_i n _
    obtain ⟨hslice, h⟩ := check_eq_ok.mp h
    split at h
    · rename_i next hnext
      obtain rfl := pure_eq_ok.mp h
      refine ⟨n, ?_, by rw [hnext]⟩
      rw [not_not.mp hslice]
      exact Decimal.readInt_lt (mapError_eq_ok.mp ht)
    · cases h

theorem marked_placeQubit {c c' : Circuit} {q : String} {nodes : Assoc String (Option NodeDraft)}
    (hc : c.Marked) (h : placeQubit c q nodes = .ok c') : c'.Marked := by
  rw [placeQubit, check_eq_ok] at h
  obtain ⟨hknown, h⟩ := h
  have hq : q ∈ c.qubits := by simpa [Circuit.hasQubit] using hknown
  refine (foldlM_keeps (P := fun _ c => c.Marked ∧ q ∈ c.qubits) ⟨hc, hq⟩ ?_ h).1
  rintro done e rest c c' - ⟨hc, hq⟩ hplace
  obtain ⟨n, counted, rfl⟩ := placeKeyed_ok hplace
  refine ⟨hc.place hq counted, ?_⟩
  rw [Circuit.qubits, Circuit.place_quantum]
  exact hq

theorem recordWrites_ok {c c' : Circuit} {b : String} {writes : Assoc String String}
    (h : recordWrites c b writes = .ok c') : ∃ w, c' = { c with writes := w } := by
  rw [recordWrites, check_eq_ok] at h
  obtain ⟨line, -, h⟩ := bind_eq_ok.mp h.2
  exact ⟨_, (pure_eq_ok.mp h).symm⟩

theorem toCircuitIn_marks {d : CircuitDraft} {qubits : List (String × Assoc String (Option NodeDraft))}
    {c : Circuit} (h : d.toCircuitIn qubits = .ok c) :
    ∃ base : Circuit, base.Marked ∧ ∃ bitMarks lastSlice lastMeasured, c = { base with
      qubitMarks := base.qubitMarks.union d.qubitMarks, bitMarks, lastSlice, lastMeasured } := by
  rw [toCircuitIn, check_eq_ok] at h
  obtain ⟨placed, hplaced, h⟩ := bind_eq_ok.mp h.2
  obtain ⟨recorded, hrecorded, h⟩ := bind_eq_ok.mp h
  have hmarked : placed.Marked := by
    refine foldlM_keeps (P := fun _ c => c.Marked) (Circuit.marked_ofRegisters ..) ?_ hplaced
    intro done e rest c c' _ hc hplace
    exact marked_placeQubit hc hplace
  refine ⟨recorded, ?_, _, _, _, (pure_eq_ok.mp h).symm⟩
  refine foldlM_keeps (P := fun _ c => c.Marked) hmarked ?_ hrecorded
  intro done e rest c c' _ hc hrecord
  obtain ⟨w, rfl⟩ := recordWrites_ok hrecord
  exact ⟨hc.ready, hc.within, hc.counted⟩

end CircuitDraft

namespace Circuit

def document? (text : String) : Option CircuitDraft := (Json.read? text).bind (CircuitDraft.overJson {})

/-- No operation that was loaded on the qubit lies after the mark, if any, that
the document records for it. -/
def MarkedBy (c : Circuit) (d : CircuitDraft) (q : String) : Prop :=
  ∀ m, d.qubitMarks.get? q = some m → ∀ t n, c.at? q t = some n → t ≤ max 0 m

theorem load_document {text : String} {d : CircuitDraft} (h : document? text = some d) : load text = d.toCircuit := by
  obtain ⟨j, hj, hover⟩ := Option.bind_eq_some_iff.mp h
  simp [load, hj, hover]

section
variable {text : String} {d : CircuitDraft} {c : Circuit} (hd : document? text = some d) (hc : load text = .ok c)
include hd hc

theorem load_marks : ∃ base : Circuit, base.Marked ∧ ∃ bitMarks lastSlice lastMeasured, c = { base with
    qubitMarks := base.qubitMarks.union d.qubitMarks, bitMarks, lastSlice, lastMeasured } := by
  rw [load_document hd] at hc
  exact CircuitDraft.toCircuitIn_marks hc

theorem ready_load : c.Ready ∧ ∀ q t n, c.at? q t = some n → t < Integer.bound := by
  obtain ⟨base, hbase, _, _, _, rfl⟩ := load_marks hd hc
  exact ⟨hbase.ready, hbase.counted⟩

theorem withinMark_load (q : String) : c.WithinMark q ↔ c.MarkedBy d q := by
  obtain ⟨base, hbase, _, _, _, rfl⟩ := load_marks hd hc
  obtain ⟨j, -, hover⟩ := Option.bind_eq_some_iff.mp hd
  have hget : (base.qubitMarks.union d.qubitMarks).get? q =
      (d.qubitMarks.get? q).or (base.qubitMarks.get? q) :=
    Assoc.get?_foldl_insert_of_nodup (CircuitDraft.nodup_qubitMarks hover) q
  cases hmark : d.qubitMarks.get? q with
  | none =>
    refine iff_of_true (fun t n hn => ?_) (fun m hm => by rw [hmark] at hm; cases hm)
    simp only [mark, hget, hmark, Option.none_or]
    exact hbase.within q t n hn
  | some m => simp [WithinMark, MarkedBy, mark, hget, hmark]

end

/-- Later operations on a qubit follow the loaded ones exactly when the document
records no mark for the qubit, or one that is not below them. -/
theorem load_extends_iff {text : String} {d : CircuitDraft} {c : Circuit} (hd : document? text = some d)
    (hc : load text = .ok c) {q : String} (hq : q ∈ c.qubits) : c.ExtendsSafely q ↔ c.MarkedBy d q := by
  obtain ⟨ready, counted⟩ := ready_load hd hc
  rw [← withinMark_load hd hc]
  exact ⟨ready.withinMark_of_extendsSafely hq (counted q), ready.extendsSafely⟩

/-- A document with a node on each of two qubits, and for the first of them a
mark that is below it. -/
def staleText : String :=
  "\x7b\x22quantum_registers\x22: [\x7b\x22name\x22: \x22q\x22, \x22size\x22: 2\x7d], " ++
  "\x22qubits_idx\x22: \x7b\x22q[0]\x22: 0, \x22q[1]\x22: 1\x7d, " ++
  "\x22qubit_max_time_slice\x22: \x7b\x22q[0]\x22: 0\x7d, " ++
  "\x22qubits\x22: \x7b\x22q[0]\x22: \x7b\x221\x22: \x7b\x22gate\x22: \x22x\x22, \x22timeslice\x22: 1\x7d\x7d, " ++
  "\x22q[1]\x22: \x7b\x224\x22: \x7b\x22gate\x22: \x22h\x22, \x22timeslice\x22: 4\x7d\x7d\x7d\x7d"

theorem exists_stale : ∃ d c, document? staleText = some d ∧ load staleText = .ok c ∧
    c.qubits = ["q[0]", "q[1]"] ∧ d.qubitMarks.get? "q[0]" = some 0 ∧ d.qubitMarks.get? "q[1]" = none ∧
    (c.at? "q[0]" 1).isSome ∧ (c.at? "q[1]" 4).isSome := by
  have hread : (document? staleText).any (fun d =>
      d.nodes.keys == ["q[0]", "q[1]"] && d.qubitMarks.get? "q[0]" == some 0 &&
      (d.qubitMarks.get? "q[1]").isNone && (d.toCircuitIn d.nodes.entries).toOption.any fun c =>
        c.qubits == ["q[0]", "q[1]"] && (c.at? "q[0]" 1).isSome && (c.at? "q[1]" 4).isSome) = true := by
    decide +kernel
  obtain ⟨d, hd, hread⟩ := (Option.any_eq_true _ _).mp hread
  simp only [Bool.and_eq_true, beq_iff_eq, Option.isNone_iff_eq_none, Option.any_eq_true] at hread
  obtain ⟨⟨⟨hkeys, hfirst⟩, hsecond⟩, c, hc, ⟨hqubits, hx⟩, hh⟩ := hread
  refine ⟨d, c, hd, ?_, hqubits, hfirst, hsecond, hx, hh⟩
  -- The evaluation leaves out the sort, which the kernel does not unfold.
  have hsorted : d.nodes.entries.Pairwise fun a b => decide (a.1 ≤ b.1) = true := by
    have : d.nodes.keys.Pairwise fun a b => decide (a ≤ b) = true := by
      rw [hkeys]
      decide
    exact List.pairwise_map.mp this
  rw [load_document hd, CircuitDraft.toCircuit, List.mergeSort_of_pairwise hsorted]
  exact toOption_eq_some.mp hc

/-- What comes next on the first qubit does not follow its node; the second
qubit, with no mark of its own in the document, is extended safely. -/
theorem load_extends_iff_stale : ∃ d c, document? staleText = some d ∧ load staleText = .ok c ∧
    "q[0]" ∈ c.qubits ∧ "q[1]" ∈ c.qubits ∧ (c.at? "q[1]" 4).isSome ∧
    ¬ c.ExtendsSafely "q[0]" ∧ c.ExtendsSafely "q[1]" := by
  obtain ⟨d, c, hd, hc, hqubits, hfirst, hsecond, hx, hh⟩ := exists_stale
  have hmem : "q[0]" ∈ c.qubits ∧ "q[1]" ∈ c.qubits := by
    rw [hqubits]
    decide
  refine ⟨d, c, hd, hc, hmem.1, hmem.2, hh, fun hsafe => ?_, (load_extends_iff hd hc hmem.2).mpr fun m hm => ?_⟩
  · obtain ⟨n, hn⟩ := Option.isSome_iff_exists.mp hx
    have := (load_extends_iff hd hc hmem.1).mp hsafe 0 hfirst 1 n hn
    omega
  · rw [hsecond] at hm
    cases hm

end Circuit
end Sequencer
