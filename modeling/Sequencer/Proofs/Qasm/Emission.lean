import Mathlib.Data.Nat.Find
import Sequencer.Proofs.Circuit.Keys
import Sequencer.Proofs.Circuit.Replay
import Sequencer.Proofs.Circuit.Visits
import Sequencer.Proofs.Qasm.Elaborated
import Sequencer.Proofs.GateNames
import Sequencer.Proofs.Qasm.Statements

/-!
# The text of a circuit as a script

Each gate instance is written by one of its nodes, the lead, and the barriers
of a timeslice are written together. So the text of a circuit is a list of
calls with their spelling, and the calls are a script of the circuit.
-/

namespace Sequencer

-- ---------------------------------------------------------------------------
-- Participants in their order
-- ---------------------------------------------------------------------------

namespace Circuit

theorem mem_withOthers_head (q : String) (rest : List String) : (q, rest) ∈ withOthers (q :: rest) := by
  simp [withOthers, List.range_succ_eq_map]

theorem withOthers_unique {qubits : List String} (nodup : qubits.Nodup) {q : String} {l l' : List String}
    (h : (q, l) ∈ withOthers qubits) (h' : (q, l') ∈ withOthers qubits) : l = l' := by
  rw [← map_fst_withOthers qubits] at nodup
  exact congrArg Prod.snd (List.inj_on_of_nodup_map nodup h h' rfl)

theorem WellFormed.participant {c : Circuit} (wf : c.WellFormed) {p q : String} {t : Int} {n : Node}
    (hn : c.at? q t = some n) (hp : p ∈ q :: n.partners) :
    ∃ m, c.at? p t = some m ∧ m.SameOperation n ∧ (p :: m.partners).Perm (q :: n.partners) := by
  rcases List.mem_cons.mp hp with rfl | hp
  · exact ⟨n, hn, .refl n, .refl _⟩
  · exact (wf.participants hn).2 p hp

end Circuit

namespace Qasm.Elaborated
variable {c : Circuit} (h : Elaborated c) (room : c.lastSlice < Integer.bound - 1)
include h room

theorem keyed : c.Keyed := by
  have wf := h.wellFormed room
  induction h with
  | start name => exact Circuit.keyed_new name
  | @quantum c r h _ _ _ ih =>
    refine (ih room (h.wellFormed room)).declareQubits ?_
    simpa [Circuit.qubits, Circuit.declareQubits] using wf.nodup_qubits
  | @classical c r h _ _ _ ih =>
    refine (ih room (h.wellFormed room)).declareBits ?_
    simpa [Circuit.bits, Circuit.declareBits] using wf.nodup_bits
  | @call c d k h _ done ih =>
    obtain ⟨nodes, -, -, rfl⟩ := Circuit.perform_ok done
    have hle := Circuit.lastSlice_le_placeAll c nodes
    exact (ih (by omega) (h.wellFormed (by omega))).placeAll nodes

/-- The participants of a controlled gate list the others in the order of the
target and its controls. -/
theorem controls {q : String} {t : Int} {n : Node} (hn : c.at? q t = some n) (hc : n.controlled = true) :
    ∃ r m, c.at? r t = some m ∧ m.target = true ∧ (q, n.partners) ∈ Circuit.withOthers (r :: m.partners) := by
  induction h with
  | start name => cases hn
  | @quantum c r h _ _ fresh ih =>
    have hat := Circuit.at?_declareQubits (h.wellFormed room) fun s hs => fresh s (List.mem_append_left _ hs)
    simp only [hat] at hn ⊢
    exact ih room hn
  | classical _ _ _ _ ih => exact ih room hn
  | @call c d k h permitted done ih =>
    obtain ⟨-, placed, rfl⟩ := Circuit.perform_nodes done
    have hle := Circuit.lastSlice_le_placeAll c (k.nodes (c.slotFor k.participants k.cond))
    have wf := h.wellFormed (by omega)
    have hat {q t n} := placed.at?_placeAll wf (by omega) (q := q) (t := t) (n := n)
    rcases hat.mp hn with ⟨hmem, rfl⟩ | hn
    · cases permitted with
      | controlled =>
        obtain ⟨e, he, heq⟩ := List.mem_map.mp hmem
        obtain ⟨rfl, rfl⟩ := Prod.mk.inj heq
        exact ⟨_, _, hat.mpr (.inl ⟨List.mem_map_of_mem (Circuit.mem_withOthers_head _ _), rfl⟩), by simp, he⟩
      | gate =>
        obtain ⟨rfl, rfl⟩ := Prod.mk.inj (List.mem_singleton.mp hmem)
        cases hc
      | _ =>
        obtain ⟨e, -, heq⟩ := List.mem_map.mp hmem
        obtain ⟨rfl, rfl⟩ := Prod.mk.inj heq
        cases hc
    · obtain ⟨r, m, hm, htarget, hmem⟩ := ih (by omega) hn
      exact ⟨r, m, hat.mpr (.inr hm), htarget, hmem⟩

end Qasm.Elaborated

-- ---------------------------------------------------------------------------
-- Leads
-- ---------------------------------------------------------------------------

namespace Circuit

/-- The node writes the statement of its instance: it is the target, or without
controls the participant of lowest index. -/
def isLead (c : Circuit) (q : String) (n : Node) : Bool :=
  if n.controlled then n.target else n.partners.all fun p => c.position q ≤ c.position p

section
variable {c : Circuit} (wf : c.WellFormed)
include wf

theorem leads_eq {q : String} {t : Int} {n : Node} (hn : c.at? q t = some n) : c.leads q n = .ok (c.isLead q n) := by
  unfold leads isLead
  split
  · rfl
  · have hlowest (l : List String) (hl : ∀ p ∈ l, p ∈ c.qubits) :
        leads.lowest c q l = .ok (l.all fun p => c.position q ≤ c.position p) := by
      induction l with
      | nil => rfl
      | cons p rest ih =>
        obtain ⟨hp, hrest⟩ := List.forall_mem_cons.mp hl
        simp only [leads.lowest, wf.qubitIndex_eq hp, wf.qubitIndex_eq (wf.mem_qubits hn), ih hrest]
        by_cases hlt : c.position p < c.position q
        · simp [bind, Except.bind, pure, Except.pure, hlt, Nat.not_le.mpr hlt]
        · simp [bind, Except.bind, hlt, Nat.not_lt.mp hlt]
    refine hlowest n.partners fun p hp => ?_
    obtain ⟨m, hm, -⟩ := (wf.participants hn).2 p hp
    exact wf.mem_qubits hm

theorem exists_lead {q : String} {t : Int} {n : Node} (hn : c.at? q t = some n) :
    ∃ p m, c.at? p t = some m ∧ m.SameOperation n ∧ q ∈ p :: m.partners ∧ c.isLead p m = true := by
  by_cases hc : n.controlled = true
  · obtain ⟨p, ⟨hp, m, hm, htarget⟩, -⟩ := wf.one_target hn hc
    obtain ⟨x, hx, hsame, hperm⟩ := wf.participant hn hp
    obtain rfl := Option.some.inj (hm.symm.trans hx)
    exact ⟨p, m, hm, hsame, hperm.mem_iff.mpr List.mem_cons_self, by simp [isLead, hsame.controlled, hc, htarget]⟩
  · -- the participant of lowest index
    have hex : ∃ i, ∃ p ∈ q :: n.partners, c.position p = i := ⟨_, q, List.mem_cons_self, rfl⟩
    obtain ⟨p, hp, hposition⟩ := Nat.find_spec hex
    obtain ⟨m, hm, hsame, hperm⟩ := wf.participant hn hp
    refine ⟨p, m, hm, hsame, hperm.mem_iff.mpr List.mem_cons_self, ?_⟩
    simp only [isLead, hsame.controlled, hc, Bool.false_eq_true, ↓reduceIte, List.all_eq_true, decide_eq_true_eq]
    intro r hr
    rw [hposition]
    exact Nat.find_min' hex ⟨r, hperm.mem_iff.mp (List.mem_cons_of_mem _ hr), rfl⟩

theorem lead_unique {p q r : String} {t : Int} {m n : Node} (hm : c.at? p t = some m) (hn : c.at? q t = some n)
    (hp : c.isLead p m = true) (hq : c.isLead q n = true) (hrp : r ∈ p :: m.partners) (hrq : r ∈ q :: n.partners) :
    p = q := by
  obtain ⟨x, hx, hsame, hperm⟩ := wf.participant hm hrp
  obtain ⟨y, hy, hsame', hperm'⟩ := wf.participant hn hrq
  obtain rfl := Option.some.inj (hx.symm.trans hy)
  have hmem : q ∈ p :: m.partners := (hperm.symm.trans hperm').mem_iff.mpr List.mem_cons_self
  have hmem' : p ∈ q :: n.partners := (hperm.symm.trans hperm').mem_iff.mp List.mem_cons_self
  have hcontrolled : m.controlled = n.controlled := hsame.controlled.symm.trans hsame'.controlled
  by_cases hc : m.controlled = true
  · simp only [isLead, ← hcontrolled, hc, ↓reduceIte] at hp hq
    exact (wf.one_target hm hc).unique ⟨List.mem_cons_self, m, hm, hp⟩ ⟨hmem, n, hn, hq⟩
  · simp only [isLead, ← hcontrolled, hc, Bool.false_eq_true, ↓reduceIte, List.all_eq_true, decide_eq_true_eq] at hp hq
    rcases List.mem_cons.mp hmem with rfl | hmem
    · rfl
    · rcases List.mem_cons.mp hmem' with rfl | hmem'
      · rfl
      · have := hp q hmem
        have := hq p hmem'
        exact (position_inj (wf.mem_qubits hm)).mp (by omega)

end

end Circuit

-- ---------------------------------------------------------------------------
-- Calls and their spelling
-- ---------------------------------------------------------------------------

def Node.call (n : Node) (q : String) : BuildCall :=
  if n.measurement then .measure [q] n.bits n.cond
  else if n.reset then .reset [q] n.cond
  else if n.controlled then .controlled n.gate n.partners q n.params n.cond
  else if Gate.isChannel n.gate then .named n.gate (q :: n.partners) n.params n.cond
  else .gate n.gate q n.params n.cond

def Register.declaration (keyword : String) (r : Register) : String :=
  keyword ++ " " ++ r.name ++ "[" ++ toString r.size ++ "];\n"

def BuildCall.text : BuildCall → String
  | .gate name qubit params cond =>
    Circuit.guardText cond ++ (Qasm.headText name params ++ " " ++ Circuit.joined [qubit] ++ ";\n")
  | .controlled name controls target params cond =>
    Circuit.guardText cond ++ (Qasm.headText (Gate.controlledName name controls.length) params ++ " " ++
      Circuit.joined (controls ++ [target]) ++ ";\n")
  | .measure qubits bits cond =>
    Circuit.guardText cond ++ ("measure " ++ Circuit.joined qubits ++ " -> " ++ Circuit.joined bits ++ ";\n")
  | .reset qubits cond => Circuit.guardText cond ++ ("reset " ++ Circuit.joined qubits ++ ";\n")
  | .barrier qubits => "barrier " ++ Circuit.joined qubits ++ ";\n"
  | .named name qubits params cond =>
    Circuit.guardText cond ++ (Qasm.headText name params ++ " " ++ Circuit.joined qubits ++ ";\n")

namespace Circuit

def present (c : Circuit) (t : Int) : List (String × Node) :=
  c.qubits.filterMap fun q => (c.at? q t).map fun n => (q, n)

def barred (c : Circuit) (t : Int) : List String := ((c.present t).filter fun e => e.2.barrier).map Prod.fst

def sliceCalls (c : Circuit) (t : Int) : List BuildCall :=
  (((c.present t).filter fun e => !e.2.barrier).filter fun e => c.isLead e.1 e.2).map (fun e => e.2.call e.1) ++
    if (c.barred t).isEmpty then [] else [.barrier (c.barred t)]

def calls (c : Circuit) : List (Int × BuildCall) := c.slices.flatMap fun t => (c.sliceCalls t).map fun k => (t, k)

theorem headText_eq (name : String) (params : List Float) :
    (if (!params.isEmpty) = true then name ++ "(" ++ Parameter.texts params ++ ")" else name) =
      Qasm.headText name params := by
  cases params <;> rfl

theorem joined_concat {names : List String} (hne : names ≠ []) (name : String) :
    joined (names ++ [name]) = joined names ++ ", " ++ name := by
  rw [joined, String.intercalate_append_of_ne_nil hne (by simp), String.intercalate_singleton, joined]

theorem join_flatMap {α : Type} (f : α → List String) (l : List α) :
    String.join (l.flatMap f) = String.join (l.map fun a => String.join (f a)) := by
  induction l with
  | nil => rfl
  | cons a rest ih => rw [List.flatMap_cons, String.join_append, List.map_cons, String.join_cons, ih]

theorem join_filter {α : Type} (p : α → Bool) (f : α → String) (l : List α) :
    String.join (l.map fun a => if p a then f a else "") = String.join ((l.filter p).map f) := by
  induction l with
  | nil => rfl
  | cons a rest ih =>
    cases hp : p a with
    | false => simp [hp, ih]
    | true => simp [hp, ih]

section
variable {c : Circuit} (wf : c.WellFormed) (admits : ∀ {q t n}, c.at? q t = some n → n.Admitted c.classical)
include wf

theorem mem_present {q : String} {n : Node} {t : Int} : (q, n) ∈ c.present t ↔ c.at? q t = some n := by
  simp only [present, List.mem_filterMap, Option.map_eq_some_iff, Prod.mk.injEq]
  constructor
  · rintro ⟨p, -, m, hm, rfl, rfl⟩
    exact hm
  · intro hn
    exact ⟨q, wf.mem_qubits hn, n, hn, rfl, rfl⟩

include admits

theorem statement_eq {q : String} {t : Int} {n : Node} (hn : c.at? q t = some n) (plain : n.barrier = false) :
    c.statement q n = .ok (if c.isLead q n then (n.call q).text else "") := by
  unfold statement
  rw [leads_eq wf hn]
  cases hlead : c.isLead q n with
  | false => rfl
  | true =>
    have hne := wf.controlled hn
    cases admits hn with
    | gate known =>
      simp only [Node.call, Gate.isChannel, Gate.channel?_of_single? known, BuildCall.text, Node.label, ← headText_eq,
        String.append_assoc, Option.isSome_none, Bool.false_eq_true, ↓reduceIte]
      rfl
    | controlled =>
      simp only [Node.call, BuildCall.text, ← headText_eq, joined_concat (hne rfl), String.append_assoc,
        Bool.false_eq_true, ↓reduceIte]
      rfl
    | measure =>
      simp only [Node.call, BuildCall.text, joined, String.intercalate_singleton, String.append_assoc, ↓reduceIte]
      rfl
    | reset =>
      simp only [Node.call, BuildCall.text, joined, String.intercalate_singleton, String.append_assoc,
        Bool.false_eq_true, ↓reduceIte]
      rfl
    | barrier => cases plain
    | channel known =>
      simp only [Node.call, known, BuildCall.text, Node.label, ← headText_eq, String.append_assoc,
        Bool.false_eq_true, ↓reduceIte]
      rfl

theorem sliceSource_eq (t : Int) : c.sliceSource t = .ok (String.join ((c.sliceCalls t).map BuildCall.text)) := by
  have htexts : ((c.present t).filter fun e => !e.2.barrier).mapM (fun e => c.statement e.1 e.2) =
      .ok (((c.present t).filter fun e => !e.2.barrier).map fun e =>
        if c.isLead e.1 e.2 then (e.2.call e.1).text else "") := by
    refine mapM_eq_map fun e he => ?_
    obtain ⟨hmem, hplain⟩ := List.mem_filter.mp he
    exact statement_eq wf admits ((mem_present wf).mp hmem) (by simpa using hplain)
  change (((c.present t).filter fun e => !e.2.barrier).mapM (fun e => c.statement e.1 e.2) >>= fun texts =>
    pure (String.join texts ++ if (c.barred t).isEmpty then "" else "barrier " ++ joined (c.barred t) ++ ";\n")) = _
  rw [htexts]
  refine congrArg Except.ok ?_
  rw [join_filter (fun e : String × Node => c.isLead e.1 e.2) fun e => (e.2.call e.1).text, sliceCalls,
    List.map_append, String.join_append, List.map_map]
  congr 1
  cases (c.barred t).isEmpty with
  | true => rfl
  | false => simp [BuildCall.text]

theorem source_eq : ∃ gap ∈ ["", "\n"], c.source = .ok ("OPENQASM 2.0;\ninclude \"qelib1.inc\";\n\n" ++
    String.join (c.quantum.map (Register.declaration "qreg") ++ c.classical.map (Register.declaration "creg") ++
      c.channelDeclarations) ++ gap ++ String.join (c.calls.map fun e => e.2.text)) := by
  have hbody : c.slices.mapM c.sliceSource =
      .ok (c.slices.map fun t => String.join ((c.sliceCalls t).map BuildCall.text)) :=
    mapM_eq_map fun t _ => sliceSource_eq wf admits t
  have hcalls : String.join (c.calls.map fun e => e.2.text) =
      String.join (c.slices.map fun t => String.join ((c.sliceCalls t).map BuildCall.text)) := by
    rw [← join_flatMap, calls, List.map_flatMap]
    simp [Function.comp_def]
  refine ⟨if (c.quantum.map (Register.declaration "qreg") ++ c.classical.map (Register.declaration "creg")).isEmpty
    then "" else "\n", by split <;> simp, ?_⟩
  unfold source
  rw [hbody, hcalls]
  refine congrArg Except.ok ?_
  have hhead : String.join (c.quantum.map (Register.declaration "qreg") ++ c.classical.map (Register.declaration "creg") ++
      c.channelDeclarations) = String.join (c.quantum.map (Register.declaration "qreg") ++
        c.classical.map (Register.declaration "creg")) ++ String.join c.channelDeclarations := String.join_append
  rw [hhead, ← String.append_assoc]
  rfl

end

end Circuit

-- ---------------------------------------------------------------------------
-- The calls are a script
-- ---------------------------------------------------------------------------

def BuildCall.mapParams (f : Float → Float) : BuildCall → BuildCall
  | .gate name qubit params cond => .gate name qubit (params.map f) cond
  | .controlled name controls target params cond => .controlled name controls target (params.map f) cond
  | .named name qubits params cond => .named name qubits (params.map f) cond
  | k => k

theorem BuildCall.participants_mapParams (f : Float → Float) (k : BuildCall) :
    (k.mapParams f).participants = k.participants := by
  cases k <;> rfl

theorem Node.Admitted.participants_call {classical : List Register} {n : Node} (h : n.Admitted classical)
    (plain : n.barrier = false) (q : String) : (n.call q).participants = q :: n.partners := by
  cases h with
  | gate known => simp [Node.call, BuildCall.participants, Gate.isChannel, Gate.channel?_of_single? known]
  | barrier => cases plain
  | channel known => simp [Node.call, BuildCall.participants, known]
  | _ => rfl

theorem Node.Admitted.hasParameter_eq {classical : List Register} {n : Node} (h : n.Admitted classical) :
    n.hasParameter = !n.params.isEmpty := by
  cases h <;> rfl

theorem Node.Admitted.bits_eq {classical : List Register} {n : Node} (h : n.Admitted classical)
    (unmeasured : n.measurement = false) : n.bits = [] := by
  cases h with
  | measure => cases unmeasured
  | _ => rfl

theorem Node.SameOperation.alike {same : Float → Float → Prop} {value : Float → Float} {m n : Node}
    (h : m.SameOperation n) (hm : m.hasParameter = !m.params.isEmpty) (bits : m.bits = n.bits)
    (values : ∀ v ∈ n.params, same v (value v)) {others : List String} {target : Bool} (htarget : m.target = target)
    (perm : others.Perm m.partners) (order : m.controlled = true → others = m.partners) (s : Int) :
    m.Alike same { n with
      partners := others, params := n.params.map value, hasParameter := !(n.params.map value).isEmpty,
      target := target, timeslice := s } where
  gate := h.gate.symm
  params := by
    rw [h.params, List.forall₂_map_right_iff, List.forall₂_same]
    exact values
  hasParameter := by
    rw [hm, h.params]
    simp
  controlled := h.controlled.symm
  target := htarget.symm
  partners := perm
  order := order
  bits := bits.symm
  measurement := h.measurement.symm
  reset := h.reset.symm
  barrier := h.barrier.symm
  cond := h.cond.symm

namespace Circuit

section
variable {c : Circuit} (wf : c.WellFormed) (admits : ∀ {q t n}, c.at? q t = some n → n.Admitted c.classical)
include wf

theorem mem_barred {q : String} {t : Int} : q ∈ c.barred t ↔ ∃ n, c.at? q t = some n ∧ n.barrier = true := by
  simp [barred, mem_present wf]

theorem nodup_present (t : Int) : ((c.present t).map Prod.fst).Nodup := by
  refine List.pairwise_map.mpr (List.pairwise_filterMap.mpr (wf.nodup_qubits.imp fun hne a ha b hb => ?_))
  simp only [Option.map_eq_some_iff] at ha hb
  obtain ⟨m, -, rfl⟩ := ha
  obtain ⟨n, -, rfl⟩ := hb
  exact hne

theorem nodup_barred (t : Int) : (c.barred t).Nodup :=
  (nodup_present wf t).sublist (List.filter_sublist.map Prod.fst)

theorem mem_sliceCalls {t : Int} {k : BuildCall} : k ∈ c.sliceCalls t ↔
    (∃ q n, c.at? q t = some n ∧ n.barrier = false ∧ c.isLead q n = true ∧ n.call q = k) ∨
      c.barred t ≠ [] ∧ k = .barrier (c.barred t) := by
  simp only [sliceCalls, List.mem_append, List.mem_map, List.mem_filter, Prod.exists, mem_present wf]
  refine or_congr ?_ ?_
  · simp [and_assoc]
  · cases c.barred t <;> simp

theorem mem_calls {t : Int} {k : BuildCall} : (t, k) ∈ c.calls ↔ k ∈ c.sliceCalls t := by
  simp only [calls, List.mem_flatMap, List.mem_map, Prod.mk.injEq, mem_slices]
  constructor
  · rintro ⟨s, -, j, hj, rfl, rfl⟩
    exact hj
  · intro hk
    refine ⟨t, ?_, k, hk, rfl, rfl⟩
    -- the call was written by a node
    obtain ⟨q, n, hn⟩ : ∃ q n, c.at? q t = some n := by
      rcases (mem_sliceCalls wf).mp hk with ⟨q, n, hn, -⟩ | ⟨hne, -⟩
      · exact ⟨q, n, hn⟩
      · obtain ⟨q, rest, hq⟩ := List.exists_cons_of_ne_nil hne
        obtain ⟨n, hn, -⟩ := (mem_barred wf).mp (hq ▸ List.mem_cons_self)
        exact ⟨q, n, hn⟩
    exact ⟨(wf.slice hn).2.1, wf.slice_le hn⟩

include admits

theorem covers_calls {q : String} {t : Int} {n : Node} (hn : c.at? q t = some n) : Covers c.calls q t := by
  cases hb : n.barrier with
  | true =>
    have hq := (mem_barred wf).mpr ⟨n, hn, hb⟩
    exact ⟨_, (mem_calls wf).mpr ((mem_sliceCalls wf).mpr (.inr ⟨List.ne_nil_of_mem hq, rfl⟩)), rfl, hq⟩
  | false =>
    obtain ⟨p, m, hm, hsame, hq, hlead⟩ := exists_lead wf hn
    have hplain := hsame.barrier.trans hb
    refine ⟨(t, m.call p), (mem_calls wf).mpr ((mem_sliceCalls wf).mpr (.inl ⟨p, m, hm, hplain, hlead, rfl⟩)), rfl, ?_⟩
    rw [(admits hm).participants_call hplain]
    exact hq

theorem calls_ordered : c.calls.Pairwise fun a b =>
    a.1 < b.1 ∨ a.1 = b.1 ∧ a.2.participants.Disjoint b.2.participants := by
  refine List.pairwise_flatMap.mpr ⟨fun t _ => ?_, c.slices_ordered.imp fun hst a ha b hb => ?_⟩
  · refine List.pairwise_map.mpr (List.Pairwise.imp (fun h => .inr ⟨rfl, h⟩) (List.pairwise_append.mpr ⟨?_, ?_, ?_⟩))
    · refine List.pairwise_map.mpr ?_
      have hnodup := ((List.pairwise_map.mp (nodup_present wf t)).filter (fun e => !e.2.barrier)).filter
        fun e => c.isLead e.1 e.2
      refine hnodup.imp_of_mem fun {a b} ha hb hne => ?_
      simp only [List.mem_filter, mem_present wf, Bool.not_eq_true'] at ha hb
      rw [(admits ha.1.1).participants_call ha.1.2, (admits hb.1.1).participants_call hb.1.2]
      intro r hra hrb
      exact hne (lead_unique wf ha.1.1 hb.1.1 ha.2 hb.2 hra hrb)
    · split <;> simp
    · -- a barrier shares no qubit with other operations
      intro a ha b hb
      split at hb
      · cases hb
      · obtain ⟨e, he, rfl⟩ := List.mem_map.mp ha
        simp only [List.mem_filter, mem_present wf, Bool.not_eq_true'] at he
        rw [List.mem_singleton.mp hb, (admits he.1.1).participants_call he.1.2]
        intro r hra hrb
        obtain ⟨x, hx, hsame, -⟩ := wf.participant he.1.1 hra
        obtain ⟨y, hy, hbarrier⟩ := (mem_barred wf).mp hrb
        obtain rfl := Option.some.inj (hx.symm.trans hy)
        rw [hsame.barrier, he.1.2] at hbarrier
        cases hbarrier
  · obtain ⟨j, -, rfl⟩ := List.mem_map.mp ha
    obtain ⟨k, -, rfl⟩ := List.mem_map.mp hb
    exact .inl hst

section
variable {same : Float → Float → Prop} {value : Float → Float}
  (values : ∀ {q t n}, c.at? q t = some n → ∀ v ∈ n.params, same v (value v))
include values

theorem places_call (controls : ∀ {q t n}, c.at? q t = some n → n.controlled = true →
      ∃ r m, c.at? r t = some m ∧ m.target = true ∧ (q, n.partners) ∈ withOthers (r :: m.partners))
    {q : String} {t : Int} {n : Node} (hn : c.at? q t = some n) (plain : n.barrier = false) (lead : c.isLead q n = true)
    (s : Int) : ∀ x ∈ ((n.call q).mapParams value).nodes s, ∃ m, c.at? x.1 t = some m ∧ m.Alike same x.2 := by
  have hparameter := (admits hn).hasParameter_eq
  have hvalues := values hn
  have hnodup := (wf.participants hn).1
  have hone := wf.one_target hn
  have hown (s : Int) : ∃ m, c.at? q t = some m ∧ m.Alike same { n with
      params := n.params.map value, hasParameter := !(n.params.map value).isEmpty, timeslice := s } :=
    ⟨n, hn, (Node.SameOperation.refl n).alike hparameter rfl hvalues rfl (.refl _) (fun _ => rfl) s⟩
  have hother {p : String} {others : List String} (hp : (p, others) ∈ withOthers (q :: n.partners))
      (unmeasured : n.measurement = false) : ∃ m, c.at? p t = some m ∧ m.SameOperation n ∧
        m.hasParameter = !m.params.isEmpty ∧ m.bits = n.bits ∧ others.Perm m.partners := by
    have hperm := perm_of_mem_withOthers hp
    obtain ⟨m, hm, hsame, hperm'⟩ := wf.participant hn (hperm.mem_iff.mp List.mem_cons_self)
    have hbits := ((admits hm).bits_eq (hsame.measurement.trans unmeasured)).trans ((admits hn).bits_eq unmeasured).symm
    exact ⟨m, hm, hsame, (admits hm).hasParameter_eq, hbits, (hperm.trans hperm'.symm).cons_inv⟩
  cases admits hn with
  | gate known =>
    simp only [Node.call, Gate.isChannel, Gate.channel?_of_single? known]
    simpa [BuildCall.mapParams, BuildCall.nodes] using hown s
  | @controlled _ partners =>
    refine List.forall_mem_map.mpr ?_
    rintro ⟨p, others⟩ hp
    obtain ⟨m, hm, hsame, hparameter, hbits, hperm⟩ := hother hp rfl
    -- the lead is the one target, so the participants list each other in its order
    have hq {r : String} (hr : r ∈ q :: partners ∧ ∃ y, c.at? r t = some y ∧ y.target = true) : r = q :=
      (hone rfl).unique hr ⟨List.mem_cons_self, _, hn, by simpa [isLead] using lead⟩
    have hmem := (perm_of_mem_withOthers hp).mem_iff.mp List.mem_cons_self
    refine ⟨m, hm, hsame.alike hparameter hbits hvalues ?_ hperm (fun hc => ?_) s⟩
    · by_cases hpq : p = q
      · subst hpq
        rw [hn] at hm
        rw [← Option.some.inj hm]
        simpa [isLead] using lead
      · have hoff : m.target ≠ true := fun ht => hpq (hq ⟨hmem, m, hm, ht⟩)
        rw [beq_eq_false_iff_ne.mpr hpq]
        simpa using hoff
    · obtain ⟨r, y, hy, hty, hry⟩ := controls hm hc
      have hr := (perm_of_mem_withOthers hry).mem_iff.mpr List.mem_cons_self
      obtain rfl := hq ⟨(hperm.symm.cons p |>.trans (perm_of_mem_withOthers hp)).mem_iff.mp hr, y, hy, hty⟩
      obtain rfl := Option.some.inj (hn.symm.trans hy)
      exact withOthers_unique hnodup hp hry
  | measure => simpa [Node.call, BuildCall.mapParams, BuildCall.nodes] using hown s
  | reset => simpa [Node.call, BuildCall.mapParams, BuildCall.nodes] using hown s
  | barrier => cases plain
  | channel known =>
    simp only [Node.call, known]
    refine List.forall_mem_map.mpr ?_
    rintro ⟨p, others⟩ hp
    obtain ⟨m, hm, hsame, hparameter, hbits, hperm⟩ := hother hp rfl
    refine ⟨m, hm, hsame.alike hparameter hbits hvalues ?_ hperm ?_ s⟩
    · exact wf.target hm hsame.controlled
    · intro hc
      cases hsame.controlled.symm.trans hc

theorem script (controls : ∀ {q t n}, c.at? q t = some n → n.controlled = true →
      ∃ r m, c.at? r t = some m ∧ m.target = true ∧ (q, n.partners) ∈ withOthers (r :: m.partners)) :
    Script same c (c.calls.map fun e => (e.1, e.2.mapParams value)) := by
  refine ⟨List.forall_mem_map.mpr ?_, List.forall_mem_map.mpr ?_, ?_, List.pairwise_map.mpr ?_⟩
  · rintro ⟨t, k⟩ hk
    rcases (mem_sliceCalls wf).mp ((mem_calls wf).mp hk) with ⟨q, n, hn, plain, -, rfl⟩ | ⟨-, rfl⟩
    · refine ⟨?_, ?_, ?_⟩
      · rw [BuildCall.participants_mapParams, (admits hn).participants_call plain]
        intro p hp
        obtain ⟨m, hm, -⟩ := wf.participant hn hp
        exact wf.mem_qubits hm
      · rw [BuildCall.participants_mapParams, (admits hn).participants_call plain]
        exact (wf.participants hn).1
      · have hne := wf.controlled hn
        have hbits := wf.measured hn
        cases admits hn with
        | gate known => simp [Node.call, Gate.isChannel, Gate.channel?_of_single? known, BuildCall.mapParams]
        | controlled => exact hne rfl
        | measure => exact ⟨rfl, (hbits rfl).2.2.2⟩
        | reset => trivial
        | barrier => cases plain
        | channel known => simp [Node.call, known, BuildCall.mapParams]
    · refine ⟨fun q hq => ?_, nodup_barred wf t, trivial⟩
      obtain ⟨n, hn, -⟩ := (mem_barred wf).mp hq
      exact wf.mem_qubits hn
  · rintro ⟨t, k⟩ hk s
    rcases (mem_sliceCalls wf).mp ((mem_calls wf).mp hk) with ⟨q, n, hn, plain, lead, rfl⟩ | ⟨-, rfl⟩
    · exact places_call wf admits values controls hn plain lead s
    · refine List.forall_mem_map.mpr fun q hq => ?_
      obtain ⟨n, hn, hbarrier⟩ := (mem_barred wf).mp hq
      refine ⟨n, hn, ?_⟩
      cases admits hn with
      | barrier => exact ⟨rfl, .nil, rfl, rfl, rfl, .refl _, fun _ => rfl, rfl, rfl, rfl, rfl, rfl⟩
      | _ => cases hbarrier
  · intro q t n hn
    obtain ⟨e, he, ht, hq⟩ := covers_calls wf admits hn
    exact ⟨_, List.mem_map_of_mem he, ht, by rwa [BuildCall.participants_mapParams]⟩
  · simpa only [BuildCall.participants_mapParams] using calls_ordered wf admits

end

end

-- ---------------------------------------------------------------------------
-- Channels
-- ---------------------------------------------------------------------------

/-- Every channel is used with one number of qubits. -/
def SingleArity (c : Circuit) : Prop :=
  ∀ {q t n p s m}, c.at? q t = some n → c.at? p s = some m → Gate.isChannel n.gate = true → m.gate = n.gate →
    m.partners.length = n.partners.length

theorem mem_nodes {c : Circuit} (wf : c.WellFormed) (keyed : c.Keyed) {n : Node} :
    n ∈ c.timelines.entries.flatMap (fun e => e.2.values) ↔ ∃ q t, c.at? q t = some n := by
  have hkeys : c.timelines.keys.Nodup := keyed.timelines ▸ wf.nodup_qubits
  simp only [List.mem_flatMap, Timeline.values, List.mem_map, Prod.exists, exists_eq_right]
  constructor
  · rintro ⟨q, line, hline, t, ht⟩
    have hget : c.timeline q = line := by rw [timeline, (Assoc.get?_eq_some hkeys).mpr hline, Option.getD_some]
    refine ⟨q, t, ?_⟩
    rw [at?, hget]
    exact (Timeline.mem_iff_find line.ordered).mp ht
  · rintro ⟨q, t, ht⟩
    obtain ⟨line, hline⟩ := Option.isSome_iff_exists.mp ((wf.tracks q).mpr (wf.mem_qubits ht))
    have hget : c.timeline q = line := by rw [timeline, hline, Option.getD_some]
    refine ⟨q, line, (Assoc.get?_eq_some hkeys).mp hline, t, ?_⟩
    rw [Timeline.mem_iff_find line.ordered, ← hget]
    exact ht

theorem channelArity?_eq {c : Circuit} (wf : c.WellFormed) (keyed : c.Keyed) (single : c.SingleArity) {q : String}
    {t : Int} {n : Node} (hn : c.at? q t = some n) (known : Gate.isChannel n.gate = true) :
    c.channelArity? n.gate = some (n.partners.length + 1) := by
  simp only [channelArity?]
  cases hlast : ((c.timelines.entries.flatMap fun e => e.2.values).filter fun m => m.gate == n.gate).getLast? with
  | none =>
    have hnil := List.getLast?_eq_none_iff.mp hlast
    exact absurd hnil (List.ne_nil_of_mem (List.mem_filter.mpr ⟨(mem_nodes wf keyed).mpr ⟨q, t, hn⟩, by simp⟩))
  | some m =>
    obtain ⟨hnode, hgate⟩ := List.mem_filter.mp (List.mem_of_getLast? hlast)
    obtain ⟨p, s, hm⟩ := (mem_nodes wf keyed).mp hnode
    rw [Option.map_some, single hn hm known (by simpa using hgate)]

end Circuit
end Sequencer
