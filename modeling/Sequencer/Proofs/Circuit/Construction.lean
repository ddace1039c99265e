import Mathlib.Data.List.Perm.Basic
import Sequencer.Proofs.Checked
import Sequencer.Proofs.Circuit.WellFormed

/-!
# Circuits under construction

A construction declares registers with fresh names and performs builder calls,
in any order. A call makes all its checks before it places a node, so one that
fails changes nothing. Every circuit that comes out is well formed.

Counts of timeslices and bits are integers of 64 bits, so a construction has
fewer steps and fewer classical bits than there are such integers.
-/

namespace Sequencer

-- ---------------------------------------------------------------------------
-- Calls
-- ---------------------------------------------------------------------------

inductive BuildCall where
  | gate (name qubit : String) (params : List Float) (cond : Option Condition)
  | controlled (name : String) (controls : List String) (target : String) (params : List Float)
      (cond : Option Condition)
  | measure (qubits bits : List String) (cond : Option Condition)
  | reset (qubits : List String) (cond : Option Condition)
  | barrier (qubits : List String)
  | named (name : String) (qubits : List String) (params : List Float) (cond : Option Condition)

namespace BuildCall

def participants : BuildCall → List String
  | .gate _ qubit _ _ => [qubit]
  | .controlled _ controls target _ _ => target :: controls
  | .measure qubits _ _ | .reset qubits _ | .barrier qubits | .named _ qubits _ _ => qubits

def cond : BuildCall → Option Condition
  | .gate _ _ _ cond | .controlled _ _ _ _ cond | .measure _ _ cond | .reset _ cond
  | .named _ _ _ cond => cond
  | .barrier _ => none

def nodes (t : Int) : BuildCall → List (String × Node)
  | .gate name qubit params cond =>
    [(qubit,
      { gate := name, params := params, hasParameter := !params.isEmpty, target := true, timeslice := t,
        cond := cond })]
  | .controlled name controls target params cond =>
    (Circuit.withOthers (target :: controls)).map fun e => (e.1,
      { gate := name, controlled := true, partners := e.2, params := params, hasParameter := !params.isEmpty,
        target := e.1 == target, timeslice := t, cond := cond })
  | .measure qubits bits cond =>
    (qubits.zip bits).map fun e => (e.1,
      { gate := "M", bits := [e.2], target := true, timeslice := t, measurement := true, cond := cond })
  | .reset qubits cond =>
    qubits.map fun q => (q, { gate := "reset", target := true, timeslice := t, reset := true, cond := cond })
  | .barrier qubits =>
    qubits.map fun q => (q, { gate := "barrier", target := true, timeslice := t, barrier := true })
  | .named name qubits params cond =>
    (Circuit.withOthers qubits).map fun e => (e.1,
      { gate := name, partners := e.2, params := params, hasParameter := !params.isEmpty, target := true,
        timeslice := t, cond := cond })

def building : BuildCall → Building Unit
  | .gate name qubit params cond => .gate name qubit params cond
  | .controlled name controls target params cond => .controlled name controls target params cond
  | .measure qubits bits cond => .measure qubits bits cond
  | .reset qubits cond => .reset qubits cond
  | .barrier qubits => .barrier qubits
  | .named name qubits params cond => .named name qubits params cond

def Valid (c : Circuit) (k : BuildCall) : Prop :=
  (∀ q ∈ k.participants, q ∈ c.qubits) ∧ k.participants.Nodup ∧
    match k with
    | .controlled _ controls _ _ _ => controls ≠ []
    | .measure qubits bits _ => qubits.length = bits.length ∧ ∀ b ∈ bits, b ∈ c.bits
    | .named _ qubits _ _ => qubits ≠ []
    | .gate .. | .reset .. | .barrier .. => True

end BuildCall

namespace Circuit

def perform (c : Circuit) : BuildCall → Except BuildError Circuit
  | .gate name qubit params cond => c.applyGate name qubit params cond
  | .controlled name controls target params cond => c.applyControlled name controls target params cond
  | .measure qubits bits cond => c.measure qubits bits cond
  | .reset qubits cond => c.resetQubits qubits cond
  | .barrier qubits => c.barrier qubits
  | .named name qubits params cond => c.applyNamed name qubits params cond

/-- The nodes a call places: one per participant, at one timeslice, and alike
up to their partners and bits. A controlled gate has one target among them. -/
structure Placed (c : Circuit) (cond : Option Condition) (nodes : List (String × Node)) : Prop where
  distinct : (nodes.map Prod.fst).Nodup
  declared : ∀ e ∈ nodes, e.1 ∈ c.qubits
  slot : ∀ e ∈ nodes, e.2.timeslice = c.slotFor (nodes.map Prod.fst) cond
  conditioned : ∀ e ∈ nodes, e.2.cond = cond
  alike : ∀ a ∈ nodes, ∀ b ∈ nodes, a.2.SameOperation b.2
  partners : (∀ e ∈ nodes, e.2.partners = []) ∨
    ∀ e ∈ nodes, (e.1 :: e.2.partners).Perm (nodes.map Prod.fst)
  controlled : ∀ e ∈ nodes, e.2.controlled = true → e.2.partners ≠ []
  measured : ∀ e ∈ nodes, e.2.measurement = true →
    e.2.partners = [] ∧ e.2.barrier = false ∧ ∀ b ∈ e.2.bits, b ∈ c.bits
  target : ∀ e ∈ nodes, e.2.controlled = false → e.2.target = true
  one_target : ∀ e ∈ nodes, e.2.controlled = true → ∃! p, ∃ m, (p, m) ∈ nodes ∧ m.target = true

theorem firstRepeated?_eq_none {names : List String} : firstRepeated? names = none ↔ names.Nodup := by
  induction names with
  | nil => simp [firstRepeated?]
  | cons q rest ih =>
    simp only [firstRepeated?, List.nodup_cons]
    by_cases hq : q ∈ rest
    · simp [hq]
    · simp [hq, ih]

theorem checkQubits_ok {c : Circuit} {names : List String} :
    c.checkQubits names = .ok u ↔ (∀ q ∈ names, q ∈ c.qubits) ∧ names.Nodup := by
  simp only [checkQubits]
  cases hf : names.find? fun q => !c.qubits.contains q with
  | some q =>
    have hq := List.find?_some hf
    have hmem := List.mem_of_find?_eq_some hf
    refine ⟨by simp, fun h => ?_⟩
    simp [h.1 q hmem] at hq
  | none =>
    have hknown : ∀ q ∈ names, q ∈ c.qubits := by simpa using hf
    cases hr : firstRepeated? names with
    | some q =>
      refine ⟨by simp, fun h => ?_⟩
      rw [firstRepeated?_eq_none.mpr h.2] at hr
      cases hr
    | none => exact ⟨fun _ => ⟨hknown, firstRepeated?_eq_none.mp hr⟩, fun _ => rfl⟩

theorem checkBits_ok {c : Circuit} {names : List String} :
    c.checkBits names = .ok u ↔ ∀ b ∈ names, b ∈ c.bits := by
  simp only [checkBits]
  cases hf : names.find? fun b => !c.bits.contains b with
  | some b =>
    have hb := List.find?_some hf
    have hmem := List.mem_of_find?_eq_some hf
    refine ⟨by simp, fun h => ?_⟩
    simp [h b hmem] at hb
  | none => exact ⟨fun _ => by simpa using hf, fun _ => rfl⟩

theorem map_fst_withOthers (qubits : List String) : (withOthers qubits).map Prod.fst = qubits := by
  simp only [withOthers, List.map_map]
  exact List.map_snd_zip (by simp)

theorem map_fst_nodes (qubits : List String) (node : String × List String → Node) :
    ((withOthers qubits).map fun e => (e.1, node e)).map Prod.fst = qubits := by
  rw [List.map_map]
  exact map_fst_withOthers qubits

theorem map_fst_measured {qubits bits : List String} (h : qubits.length ≤ bits.length)
    (node : String × String → Node) :
    ((qubits.zip bits).map fun e => (e.1, node e)).map Prod.fst = qubits := by
  rw [List.map_map]
  exact List.map_fst_zip h

theorem perm_of_mem_withOthers {qubits : List String} {e : String × List String}
    (h : e ∈ withOthers qubits) : (e.1 :: e.2).Perm qubits := by
  simp only [withOthers, List.mem_map, Prod.exists] at h
  obtain ⟨i, q, hm, rfl⟩ := h
  obtain ⟨k, hk, he⟩ := List.mem_iff_getElem.mp hm
  simp only [List.getElem_zip, List.getElem_range, Prod.mk.injEq] at he
  obtain ⟨rfl, rfl⟩ := he
  simp only [List.length_zip, List.length_range, Nat.min_self] at hk
  exact List.getElem_cons_eraseIdx_perm hk

theorem length_of_mem_withOthers {qubits : List String} {e : String × List String}
    (h : e ∈ withOthers qubits) : e.2.length + 1 = qubits.length := by
  simpa using (perm_of_mem_withOthers h).length_eq

theorem placed_withOthers {c : Circuit} {qubits : List String} {cond : Option Condition}
    {node : String × List String → Node} (known : ∀ q ∈ qubits, q ∈ c.qubits) (nodup : qubits.Nodup)
    (slot : ∀ e, (node e).timeslice = c.slotFor qubits cond) (hcond : ∀ e, (node e).cond = cond)
    (alike : ∀ a b, (node a).SameOperation (node b)) (others : ∀ e, (node e).partners = e.2)
    (controlled : ∀ e, (node e).controlled = true → 1 < qubits.length)
    (unmeasured : ∀ e, (node e).measurement = false)
    (target : ∀ e, (node e).target = true ↔ ((node e).controlled = true → qubits.head? = some e.1)) :
    c.Placed cond ((withOthers qubits).map fun e => (e.1, node e)) := by
  have hfst := map_fst_nodes qubits node
  exact
    { distinct := by rwa [hfst]
      declared := fun e he => known _ (hfst ▸ List.mem_map_of_mem he)
      slot := by
        rw [hfst]
        exact List.forall_mem_map.mpr fun a _ => slot a
      conditioned := List.forall_mem_map.mpr fun a _ => hcond a
      alike := List.forall_mem_map.mpr fun a _ => List.forall_mem_map.mpr fun b _ => alike a b
      partners := by
        rw [hfst]
        refine .inr (List.forall_mem_map.mpr fun a ha => ?_)
        simpa only [others] using perm_of_mem_withOthers ha
      controlled := by
        refine List.forall_mem_map.mpr fun a ha hc => ?_
        have hlen := length_of_mem_withOthers ha
        have hone := controlled a hc
        rw [others]
        intro hnil
        simp only [hnil, List.length_nil] at hlen
        omega
      measured := by
        refine List.forall_mem_map.mpr fun a _ hm => ?_
        simp [unmeasured] at hm
      target := by
        refine List.forall_mem_map.mpr fun a _ hc => (target a).mpr fun hc' => ?_
        cases hc.symm.trans hc'
      one_target := by
        -- the first qubit is the target
        refine List.forall_mem_map.mpr fun a _ hc => ?_
        have hall (e : String × List String) : (node e).controlled = true :=
          (alike e a).controlled.trans hc
        obtain ⟨first, rest, rfl⟩ := List.exists_cons_of_length_pos (Nat.lt_of_succ_lt (controlled a hc))
        obtain ⟨e, he, rfl⟩ := List.mem_map.mp
          (map_fst_withOthers (first :: rest) ▸ List.mem_cons_self : first ∈ _)
        refine ⟨e.1, ⟨node e, List.mem_map_of_mem he, (target e).mpr fun _ => rfl⟩, ?_⟩
        rintro p ⟨m, hm, ht⟩
        obtain ⟨f, -, hf⟩ := List.mem_map.mp hm
        obtain ⟨rfl, rfl⟩ := Prod.mk.inj hf
        simpa [eq_comm] using (target f).mp ht (hall f) }

theorem placed_apart {c : Circuit} {qubits : List String} {cond : Option Condition}
    {nodes : List (String × Node)} (known : ∀ q ∈ qubits, q ∈ c.qubits) (nodup : qubits.Nodup)
    (hfst : nodes.map Prod.fst = qubits) (slot : ∀ e ∈ nodes, e.2.timeslice = c.slotFor qubits cond)
    (hcond : ∀ e ∈ nodes, e.2.cond = cond) (alike : ∀ a ∈ nodes, ∀ b ∈ nodes, a.2.SameOperation b.2)
    (alone : ∀ e ∈ nodes, e.2.partners = [] ∧ e.2.controlled = false ∧ e.2.target = true)
    (measured : ∀ e ∈ nodes, e.2.measurement = true → e.2.barrier = false ∧ ∀ b ∈ e.2.bits, b ∈ c.bits) :
    c.Placed cond nodes := by
  refine ⟨by rwa [hfst], ?_, by rwa [hfst], hcond, alike, .inl fun e he => (alone e he).1, ?_, ?_,
    fun e he _ => (alone e he).2.2, ?_⟩
  · intro e he
    exact known _ (hfst ▸ List.mem_map_of_mem he)
  · intro e he hc
    simp [(alone e he).2.1] at hc
  · intro e he hm
    exact ⟨(alone e he).1, measured e he hm⟩
  · intro e he hc
    simp [(alone e he).2.1] at hc

theorem placed_nodes {c : Circuit} {k : BuildCall} (h : k.Valid c) :
    (k.nodes (c.slotFor k.participants k.cond)).map Prod.fst = k.participants ∧
      c.Placed k.cond (k.nodes (c.slotFor k.participants k.cond)) := by
  obtain ⟨known, nodup, own⟩ := h
  cases k with
  | gate name qubit params cond =>
    refine ⟨rfl, placed_apart known nodup rfl ?_ ?_ ?_ ?_ ?_⟩ <;>
      simp [BuildCall.nodes, BuildCall.participants, BuildCall.cond]
    exact ⟨rfl, rfl, rfl, rfl, rfl, rfl, rfl⟩
  | controlled name controls target params cond =>
    refine ⟨map_fst_nodes _ _, placed_withOthers known nodup (fun _ => rfl) (fun _ => rfl)
      (fun _ _ => ⟨rfl, rfl, rfl, rfl, rfl, rfl, rfl⟩) (fun _ => rfl) (fun _ _ => ?_)
      (fun _ => rfl) (fun e => ⟨fun h _ => congrArg some (beq_iff_eq.mp h).symm,
        fun h => beq_iff_eq.mpr (Option.some.inj (h rfl)).symm⟩)⟩
    cases controls with
    | nil => exact absurd rfl own
    | cons p rest => simp
  | measure qubits bits cond =>
    obtain ⟨hlen, hbits⟩ := own
    have hfst := map_fst_measured (Nat.le_of_eq hlen)
    refine ⟨hfst _, placed_apart known nodup (hfst _) ?_ ?_ ?_ ?_ ?_⟩
    · exact List.forall_mem_map.mpr fun _ _ => rfl
    · exact List.forall_mem_map.mpr fun _ _ => rfl
    · exact List.forall_mem_map.mpr fun a _ => List.forall_mem_map.mpr fun b _ =>
        ⟨rfl, rfl, rfl, rfl, rfl, rfl, rfl⟩
    · exact List.forall_mem_map.mpr fun _ _ => ⟨rfl, rfl, rfl⟩
    · refine List.forall_mem_map.mpr fun a ha _ => ⟨rfl, fun b hb => ?_⟩
      simp only [List.mem_singleton] at hb
      exact hb ▸ hbits _ (List.of_mem_zip ha).2
  | reset qubits cond =>
    refine ⟨?_, placed_apart known nodup ?_ ?_ ?_ ?_ ?_ ?_⟩ <;>
      simp [Function.comp_def, BuildCall.nodes, BuildCall.participants, BuildCall.cond]
    intros
    exact ⟨rfl, rfl, rfl, rfl, rfl, rfl, rfl⟩
  | barrier qubits =>
    refine ⟨?_, placed_apart known nodup ?_ ?_ ?_ ?_ ?_ ?_⟩ <;>
      simp [Function.comp_def, BuildCall.nodes, BuildCall.participants, BuildCall.cond]
    intros
    exact ⟨rfl, rfl, rfl, rfl, rfl, rfl, rfl⟩
  | named name qubits params cond =>
    exact ⟨map_fst_nodes _ _, placed_withOthers known nodup (fun _ => rfl) (fun _ => rfl)
      (fun _ _ => ⟨rfl, rfl, rfl, rfl, rfl, rfl, rfl⟩) (fun _ => rfl) (fun _ h => by cases h)
      (fun _ => rfl) (fun e => by simp)⟩

end Circuit

-- ---------------------------------------------------------------------------
-- Checks before placing
-- ---------------------------------------------------------------------------

namespace Building

/-- The call makes its checks before it changes the circuit: it passes them and
makes another one, or fails on a circuit that is as it was. -/
def ChecksFirst (m : Building Unit) (c : Circuit) (valid : Prop) (next : Circuit) : Prop :=
  (valid ∧ m c = .ok () next) ∨ (¬ valid ∧ ∃ e, m c = .error e c)

section
variable {c next : Circuit} {valid passes : Prop} {m : Building Unit}

theorem checksFirst_place (c : Circuit) (qubits : List String) (cond : Option Condition)
    (nodes : Int → List (String × Node)) :
    ChecksFirst (do place (nodes (← slotFor qubits cond))) c True (c.placeAll (nodes (c.slotFor qubits cond))) :=
  .inl ⟨trivial, rfl⟩

theorem ChecksFirst.ensure (h : m.ChecksFirst c valid next) (check : Circuit → Except BuildError Unit)
    (hcheck : check c = .ok () ↔ passes) : ChecksFirst (do Building.ensure check; m) c (passes ∧ valid) next := by
  cases hc : check c with
  | ok u =>
    have hpasses : passes := hcheck.mp hc
    have hensure : Building.ensure check c = .ok () c := by rw [Building.ensure, hc]
    have hrun : (do Building.ensure check; m) c = m c := by
      simp only [bind, EStateM.bind, hensure]
    rcases h with ⟨hvalid, hm⟩ | ⟨hvalid, e, hm⟩
    · exact .inl ⟨⟨hpasses, hvalid⟩, hrun.trans hm⟩
    · exact .inr ⟨fun h => hvalid h.2, e, hrun.trans hm⟩
  | error e =>
    have hensure : Building.ensure check c = .error e c := by rw [Building.ensure, hc]
    refine .inr ⟨fun h => ?_, e, ?_⟩
    · rw [hcheck.mpr h.1] at hc
      cases hc
    · simp only [bind, EStateM.bind, hensure]

theorem ChecksFirst.unless {p : Prop} [Decidable p] {e : BuildError} (h : m.ChecksFirst c valid next) :
    ChecksFirst (if p then (throw e : Building PUnit) >>= fun _ => m else m) c (¬ p ∧ valid) next := by
  by_cases hp : p
  · refine .inr ⟨fun h => h.1 hp, e, ?_⟩
    rw [if_pos hp]
    rfl
  · rw [if_neg hp]
    simpa [hp] using h

theorem ChecksFirst.congr {valid' : Prop} (h : m.ChecksFirst c valid next) (hvalid : valid ↔ valid') :
    m.ChecksFirst c valid' next := hvalid.eq ▸ h

end

end Building

theorem BuildCall.checksFirst (k : BuildCall) (c : Circuit) :
    k.building.ChecksFirst c (k.Valid c) (c.placeAll (k.nodes (c.slotFor k.participants k.cond))) := by
  have hplace := Building.checksFirst_place c k.participants k.cond fun t => k.nodes t
  have hqubits := hplace.ensure (fun c => c.checkQubits k.participants) Circuit.checkQubits_ok
  cases k with
  | gate name qubit params cond => exact hqubits.congr (by simp [Valid])
  | controlled name controls target params cond =>
    refine (hqubits.unless (p := controls.isEmpty = true) (e := .noControls name)).congr ?_
    simp [Valid, and_comm, and_assoc]
  | measure qubits bits cond =>
    have hbits := hplace.ensure (fun c => c.checkBits bits) Circuit.checkBits_ok
    have hboth := hbits.ensure (fun c => c.checkQubits qubits) Circuit.checkQubits_ok
    refine (hboth.unless (p := qubits.length ≠ bits.length)
      (e := .unevenMeasure qubits.length bits.length)).congr ?_
    simp only [Valid, participants, not_not, and_true]
    constructor
    · rintro ⟨hlen, ⟨hknown, hnodup⟩, hbits⟩
      exact ⟨hknown, hnodup, hlen, hbits⟩
    · rintro ⟨hknown, hnodup, hlen, hbits⟩
      exact ⟨hlen, ⟨hknown, hnodup⟩, hbits⟩
  | reset qubits cond => exact hqubits.congr (by simp [Valid])
  | barrier qubits => exact hqubits.congr (by simp [Valid])
  | named name qubits params cond =>
    refine (hqubits.unless (p := qubits.isEmpty = true) (e := .noQubits name)).congr ?_
    simp [Valid, and_comm, and_assoc]

namespace Circuit

theorem perform_eq (c : Circuit) (k : BuildCall) : c.perform k = k.building.made c := by
  cases k <;> rfl

theorem perform_ok_iff (c : Circuit) (k : BuildCall) : (∃ d, c.perform k = .ok d) ↔ k.Valid c := by
  rw [perform_eq, Building.made]
  rcases k.checksFirst c with ⟨hvalid, hrun⟩ | ⟨hvalid, e, hrun⟩
  · simp [hrun, hvalid]
  · simp [hrun, hvalid]

theorem perform_nodes {c c' : Circuit} {k : BuildCall} (h : c.perform k = .ok c') :
    (k.nodes (c.slotFor k.participants k.cond)).map Prod.fst = k.participants ∧
      c.Placed k.cond (k.nodes (c.slotFor k.participants k.cond)) ∧
      c' = c.placeAll (k.nodes (c.slotFor k.participants k.cond)) := by
  rw [perform_eq, Building.made] at h
  rcases k.checksFirst c with ⟨hvalid, hrun⟩ | ⟨-, e, hrun⟩
  · rw [hrun] at h
    obtain ⟨hfst, placed⟩ := placed_nodes hvalid
    exact ⟨hfst, placed, (Except.ok.inj h).symm⟩
  · rw [hrun] at h
    cases h

theorem perform_ok {c c' : Circuit} {k : BuildCall} (h : c.perform k = .ok c') :
    ∃ nodes, nodes.map Prod.fst = k.participants ∧ c.Placed k.cond nodes ∧ c' = c.placeAll nodes :=
  ⟨_, perform_nodes h⟩

-- ---------------------------------------------------------------------------
-- The chosen timeslice
-- ---------------------------------------------------------------------------

theorem foldl_max_mark (marks : Assoc String Int) (qubits : List String) (m : Int) :
    qubits.foldl (fun t q => max t (mark marks q)) m = (qubits.map (mark marks)).foldl max m := by
  rw [List.foldl_map]

/-- The chosen timeslice comes after the marks of all participants and after
the measurements a condition waits for, and is at most one further than these. -/
theorem slotFor_within {c : Circuit} {qubits : List String} {cond : Option Condition} {m : Int} (low : 0 ≤ m)
    (high : m + 1 < Integer.bound) (nonneg : 0 ≤ c.lastMeasured) (marks : ∀ q ∈ qubits, mark c.qubitMarks q ≤ m)
    (measured : cond.isSome = true → c.lastMeasured ≤ m) :
    1 ≤ c.slotFor qubits cond ∧ c.slotFor qubits cond ≤ m + 1 ∧
      (∀ q ∈ qubits, mark c.qubitMarks q < c.slotFor qubits cond) ∧
      (cond.isSome = true → c.lastMeasured < c.slotFor qubits cond) := by
  have hfree : 0 ≤ (qubits.map (mark c.qubitMarks)).foldl max 0 := le_foldl_max 0 _
  have hmax : (qubits.map (mark c.qubitMarks)).foldl max 0 ≤ m := by
    refine foldl_max_le low fun x hx => ?_
    obtain ⟨q, hq, rfl⟩ := List.mem_map.mp hx
    exact marks q hq
  have hmarks : ∀ q ∈ qubits, mark c.qubitMarks q ≤ (qubits.map (mark c.qubitMarks)).foldl max 0 :=
    fun q hq => le_foldl_max_of_mem (List.mem_map_of_mem hq)
  unfold slotFor
  rw [foldl_max_mark, Integer.wrap_of_lt (by omega) (by omega)]
  generalize (qubits.map (mark c.qubitMarks)).foldl max 0 = free at *
  cases cond with
  | none =>
    simp only [Option.isSome_none, Bool.false_eq_true, ↓reduceIte]
    refine ⟨by omega, by omega, fun q hq => ?_, by simp⟩
    have := hmarks q hq
    omega
  | some k =>
    have := measured rfl
    rw [Integer.wrap_of_lt (n := c.lastMeasured + 1) (by omega) (by omega)]
    simp only [Option.isSome_some, ↓reduceIte]
    refine ⟨by omega, by omega, fun q hq => ?_, fun _ => by omega⟩
    have := hmarks q hq
    omega

theorem slotFor_bounds {c : Circuit} (h : c.WellFormed) (room : c.lastSlice + 1 < Integer.bound)
    (qubits : List String) (cond : Option Condition) :
    1 ≤ c.slotFor qubits cond ∧ c.slotFor qubits cond ≤ c.lastSlice + 1 ∧
      (∀ q ∈ qubits, mark c.qubitMarks q < c.slotFor qubits cond) ∧
      (cond.isSome = true → c.lastMeasured < c.slotFor qubits cond) :=
  slotFor_within h.lastSlice_nonneg room h.measured_nonneg (fun q _ => h.mark_le q) fun _ => h.measured_le

theorem slotFor_le {c : Circuit} {qubits : List String} {cond : Option Condition} {m : Int} (low : 0 ≤ m)
    (high : m + 1 < Integer.bound) (wf : c.WellFormed) (marks : ∀ q ∈ qubits, mark c.qubitMarks q ≤ m)
    (measured : cond.isSome = true → c.lastMeasured ≤ m) : c.slotFor qubits cond ≤ m + 1 :=
  (slotFor_within low high wf.measured_nonneg marks measured).2.1

-- ---------------------------------------------------------------------------
-- Calls keep circuits well formed
-- ---------------------------------------------------------------------------

section
variable {c : Circuit} {cond : Option Condition} {nodes : List (String × Node)}
variable (h : c.WellFormed) (room : c.lastSlice + 1 < Integer.bound) (placed : c.Placed cond nodes)
include h placed

theorem Placed.tracks : ∀ e ∈ nodes, c.Tracks e.1 :=
  fun e he => (h.tracks e.1).mpr (placed.declared e he)

theorem Placed.mark_le_placeAll (q : String) : mark c.qubitMarks q ≤ mark (c.placeAll nodes).qubitMarks q := by
  rw [mark_placeAll (placed.tracks h)]
  exact le_foldl_max _ _

theorem Placed.lastSlice_le_placeAll : c.lastSlice ≤ (c.placeAll nodes).lastSlice := by
  rw [lastSlice_placeAll (placed.tracks h)]
  exact le_foldl_max _ _

theorem Placed.timeslice_le {e : String × Node} (he : e ∈ nodes) : e.2.timeslice ≤ (c.placeAll nodes).lastSlice := by
  rw [lastSlice_placeAll (placed.tracks h)]
  exact le_foldl_max_of_mem (List.mem_map_of_mem he)

theorem WellFormed.mark_le_lastSlice_placeAll (q : String) :
    mark (c.placeAll nodes).qubitMarks q ≤ (c.placeAll nodes).lastSlice := by
  rw [mark_placeAll (placed.tracks h)]
  refine foldl_max_le (Int.le_trans (h.mark_le q) (placed.lastSlice_le_placeAll h)) fun x hx => ?_
  obtain ⟨e, he, rfl⟩ := List.mem_map.mp hx
  exact placed.timeslice_le h (List.mem_filter.mp he).1

theorem WellFormed.lastMeasured_placeAll_bounds : c.lastMeasured ≤ (c.placeAll nodes).lastMeasured ∧
    (c.placeAll nodes).lastMeasured ≤ (c.placeAll nodes).lastSlice := by
  rw [lastMeasured_placeAll (placed.tracks h)]
  refine ⟨le_foldl_max _ _, foldl_max_le (Int.le_trans h.measured_le (placed.lastSlice_le_placeAll h)) fun x hx => ?_⟩
  obtain ⟨e, he, rfl⟩ := List.mem_map.mp hx
  exact placed.timeslice_le h (List.mem_filter.mp he).1

include room

theorem Placed.at?_placeAll {q : String} {t : Int} {n : Node} :
    (c.placeAll nodes).at? q t = some n ↔
      ((q, n) ∈ nodes ∧ n.timeslice = t) ∨ c.at? q t = some n := by
  have apart : nodes.Pairwise fun a b => a.1 = b.1 → a.2.timeslice ≠ b.2.timeslice :=
    (List.pairwise_map.mp placed.distinct).imp fun hab heq => absurd heq hab
  rw [Circuit.at?_placeAll (placed.tracks h) apart]
  refine or_congr_right ⟨fun hc => hc.2, fun hc => ⟨fun e he hq ht => ?_, hc⟩⟩
  have hmark := (slotFor_bounds h room (nodes.map Prod.fst) cond).2.2.1 e.1 (List.mem_map_of_mem he)
  have hle := (h.slice hc).2.2
  rw [← placed.slot e he, ht, hq] at hmark
  omega

theorem Placed.lastSlice_le : (c.placeAll nodes).lastSlice ≤ c.lastSlice + 1 := by
  rw [lastSlice_placeAll (placed.tracks h)]
  refine foldl_max_le (by omega) fun x hx => ?_
  obtain ⟨e, he, rfl⟩ := List.mem_map.mp hx
  rw [placed.slot e he]
  exact (slotFor_bounds h room _ cond).2.1

theorem Placed.participants_of_mem {q : String} {t : Int} {n : Node} (hm : (q, n) ∈ nodes)
    (ht : n.timeslice = t) :
    (q :: n.partners).Nodup ∧ ∀ p ∈ n.partners, ∃ m, (c.placeAll nodes).at? p t = some m ∧
      m.SameOperation n ∧ (p :: m.partners).Perm (q :: n.partners) := by
  rcases placed.partners with alone | together
  · have hnil : n.partners = [] := alone _ hm
    simp [hnil]
  · have hperm := together _ hm
    refine ⟨hperm.nodup_iff.mpr placed.distinct, fun p hp => ?_⟩
    have hmem : p ∈ nodes.map Prod.fst := hperm.mem_iff.mp (List.mem_cons_of_mem _ hp)
    obtain ⟨⟨p, m⟩, hpm, rfl⟩ := List.mem_map.mp hmem
    refine ⟨m, ?_, placed.alike _ hpm _ hm, (together _ hpm).trans hperm.symm⟩
    rw [placed.at?_placeAll h room]
    refine .inl ⟨hpm, ?_⟩
    have hslot := (placed.slot _ hpm).trans (placed.slot _ hm).symm
    exact hslot.trans ht

theorem Placed.one_target_of_mem {q : String} {t : Int} {n : Node} (hm : (q, n) ∈ nodes)
    (ht : n.timeslice = t) (hctrl : n.controlled = true) :
    ∃! p, p ∈ q :: n.partners ∧ ∃ m, (c.placeAll nodes).at? p t = some m ∧ m.target = true := by
  have hperm : (q :: n.partners).Perm (nodes.map Prod.fst) := by
    rcases placed.partners with alone | together
    · exact absurd (alone _ hm) (placed.controlled _ hm hctrl)
    · exact together _ hm
  have hnode {p : String} {m : Node} (hpm : (p, m) ∈ nodes) : (c.placeAll nodes).at? p t = some m :=
    (placed.at?_placeAll h room).mpr
      (.inl ⟨hpm, ((placed.slot _ hpm).trans (placed.slot _ hm).symm).trans ht⟩)
  obtain ⟨p, ⟨m, hpm, htarget⟩, hunique⟩ := placed.one_target _ hm hctrl
  refine ⟨p, ⟨hperm.mem_iff.mpr (List.mem_map_of_mem hpm), m, hnode hpm, htarget⟩, ?_⟩
  rintro r ⟨hr, x, hx, hxt⟩
  obtain ⟨⟨r, y⟩, hry, rfl⟩ := List.mem_map.mp (hperm.mem_iff.mp hr)
  rw [hnode hry, Option.some.injEq] at hx
  exact hunique r ⟨y, hry, hx ▸ hxt⟩

theorem WellFormed.slice_placeAll {q : String} {t : Int} {n : Node} (hn : (c.placeAll nodes).at? q t = some n) :
    n.timeslice = t ∧ 1 ≤ t ∧ t ≤ mark (c.placeAll nodes).qubitMarks q := by
  rcases (placed.at?_placeAll h room).mp hn with ⟨hm, rfl⟩ | hc
  · refine ⟨rfl, ?_, ?_⟩
    · have hslot : n.timeslice = _ := placed.slot _ hm
      have hfirst := (slotFor_bounds h room (nodes.map Prod.fst) cond).1
      omega
    · rw [mark_placeAll (placed.tracks h)]
      exact le_foldl_max_of_mem (List.mem_map.mpr ⟨_, List.mem_filter.mpr ⟨hm, by simp⟩, rfl⟩)
  · obtain ⟨hslice, hpos, hmark⟩ := h.slice hc
    exact ⟨hslice, hpos, Int.le_trans hmark (placed.mark_le_placeAll h q)⟩

theorem WellFormed.measured_placeAll {q : String} {t : Int} {n : Node} (hn : (c.placeAll nodes).at? q t = some n)
    (hmeasured : n.measurement = true) : t ≤ (c.placeAll nodes).lastMeasured ∧ n.partners = [] ∧
      n.barrier = false ∧ ∀ b ∈ n.bits, b ∈ (c.placeAll nodes).bits := by
  have hbits : (c.placeAll nodes).bits = c.bits := by simp only [bits, placeAll_classical]
  rw [hbits]
  rcases (placed.at?_placeAll h room).mp hn with ⟨hm, rfl⟩ | hc
  · refine ⟨?_, placed.measured _ hm hmeasured⟩
    rw [lastMeasured_placeAll (placed.tracks h)]
    exact le_foldl_max_of_mem (List.mem_map.mpr ⟨_, List.mem_filter.mpr ⟨hm, by simpa using hmeasured⟩, rfl⟩)
  · obtain ⟨hle, hrest⟩ := h.measured hc hmeasured
    exact ⟨Int.le_trans hle (h.lastMeasured_placeAll_bounds placed).1, hrest⟩

theorem WellFormed.participants_placeAll {q : String} {t : Int} {n : Node} (hn : (c.placeAll nodes).at? q t = some n) :
    (q :: n.partners).Nodup ∧ ∀ p ∈ n.partners, ∃ m, (c.placeAll nodes).at? p t = some m ∧
      m.SameOperation n ∧ (p :: m.partners).Perm (q :: n.partners) := by
  rcases (placed.at?_placeAll h room).mp hn with ⟨hm, ht⟩ | hc
  · exact placed.participants_of_mem h room hm ht
  · obtain ⟨hnodup, hpartners⟩ := h.participants hc
    refine ⟨hnodup, fun p hp => ?_⟩
    obtain ⟨m, hpm, hsame⟩ := hpartners p hp
    exact ⟨m, (placed.at?_placeAll h room).mpr (.inr hpm), hsame⟩

theorem WellFormed.one_target_placeAll {q : String} {t : Int} {n : Node} (hn : (c.placeAll nodes).at? q t = some n)
    (hctrl : n.controlled = true) :
    ∃! p, p ∈ q :: n.partners ∧ ∃ m, (c.placeAll nodes).at? p t = some m ∧ m.target = true := by
  have hat {q t n} := placed.at?_placeAll h room (q := q) (t := t) (n := n)
  rcases hat.mp hn with ⟨hm, ht⟩ | hc
  · exact placed.one_target_of_mem h room hm ht hctrl
  · obtain ⟨p, ⟨hp, m, hpm, htarget⟩, hunique⟩ := h.one_target hc hctrl
    refine ⟨p, ⟨hp, m, hat.mpr (.inr hpm), htarget⟩, ?_⟩
    rintro r ⟨hr, x, hx, hxt⟩
    -- an earlier participant keeps its node
    have hrc : c.at? r t = some x := by
      rcases List.mem_cons.mp hr with rfl | hr'
      · rw [hc, ← Option.some.inj (hn.symm.trans hx)]
      · obtain ⟨y, hy, -⟩ := (h.participants hc).2 r hr'
        rw [hy, ← Option.some.inj ((hat.mpr (.inr hy)).symm.trans hx)]
    exact hunique r ⟨hr, x, hrc, hxt⟩

theorem WellFormed.placeAll : (c.placeAll nodes).WellFormed where
  quantum_names := by rw [placeAll_quantum]; exact h.quantum_names
  classical_names := by rw [placeAll_classical]; exact h.classical_names
  tracks q := by rw [placeAll_tracks (placed.tracks h), h.tracks, qubits, qubits, placeAll_quantum]
  notes b := by rw [placeAll_writes, h.notes, bits, bits, placeAll_classical]
  mark_nonneg q := Int.le_trans (h.mark_nonneg q) (placed.mark_le_placeAll h q)
  mark_le := h.mark_le_lastSlice_placeAll placed
  measured_nonneg := Int.le_trans h.measured_nonneg (h.lastMeasured_placeAll_bounds placed).1
  measured_le := (h.lastMeasured_placeAll_bounds placed).2
  slice := h.slice_placeAll room placed
  measured := h.measured_placeAll room placed
  controlled hn := by
    rcases (placed.at?_placeAll h room).mp hn with ⟨hm, -⟩ | hc
    · exact placed.controlled _ hm
    · exact h.controlled hc
  participants := h.participants_placeAll room placed
  target hn := by
    rcases (placed.at?_placeAll h room).mp hn with ⟨hm, -⟩ | hc
    · exact placed.target _ hm
    · exact h.target hc
  one_target := h.one_target_placeAll room placed

end

theorem WellFormed.perform {c c' : Circuit} {k : BuildCall} (h : c.WellFormed)
    (room : c.lastSlice + 1 < Integer.bound) (hk : c.perform k = .ok c') :
    c'.WellFormed ∧ c'.lastSlice ≤ c.lastSlice + 1 := by
  obtain ⟨nodes, -, placed, rfl⟩ := perform_ok hk
  exact ⟨h.placeAll room placed, placed.lastSlice_le h room⟩

theorem perform_registers {c c' : Circuit} {k : BuildCall} (hk : c.perform k = .ok c') :
    c'.quantum = c.quantum ∧ c'.classical = c.classical := by
  obtain ⟨nodes, -, -, rfl⟩ := perform_ok hk
  exact ⟨placeAll_quantum, placeAll_classical⟩

end Circuit

-- ---------------------------------------------------------------------------
-- Constructions
-- ---------------------------------------------------------------------------

inductive BuildStep where
  | quantum (r : Register)
  | classical (r : Register)
  | call (k : BuildCall)

namespace BuildStep

def quantum? : BuildStep → Option Register
  | .quantum r => some r
  | _ => none

def classical? : BuildStep → Option Register
  | .classical r => some r
  | _ => none

def apply (c : Circuit) : BuildStep → Circuit
  | .quantum r => c.declareQubits r.name r.size
  | .classical r => c.declareBits r.name r.size
  | .call k => k.building.left c

theorem apply_of_error {c : Circuit} {k : BuildCall} {e : BuildError} (h : c.perform k = .error e) :
    (call k).apply c = c := by
  rw [Circuit.perform_eq, Building.made] at h
  rw [apply, Building.left]
  rcases k.checksFirst c with ⟨-, hrun⟩ | ⟨-, e', hrun⟩
  · rw [hrun] at h
    cases h
  · rw [hrun]

theorem apply_of_ok {c d : Circuit} {k : BuildCall} (h : c.perform k = .ok d) : (call k).apply c = d := by
  rw [Circuit.perform_eq, Building.made] at h
  rw [apply, Building.left]
  split at h
  · exact Except.ok.inj h
  · cases h

def Fresh (c : Circuit) : BuildStep → Prop
  | .quantum r => ∀ s ∈ c.quantum, s.name ≠ r.name
  | .classical r => ∀ s ∈ c.classical, s.name ≠ r.name
  | .call _ => True

end BuildStep

/-- Declarations of distinctly named registers and builder calls, in order.
Steps, qubits and bits are few enough to be counted by integers of 64 bits. -/
structure Construction where
  name : String
  steps : List BuildStep
  quantum_fresh : ((steps.filterMap BuildStep.quantum?).map Register.name).Nodup
  classical_fresh : ((steps.filterMap BuildStep.classical?).map Register.name).Nodup
  counted : steps.length < Integer.bound
  qubits_counted : ((steps.filterMap BuildStep.quantum?).flatMap Register.elements).length < Integer.bound
  bits_counted : ((steps.filterMap BuildStep.classical?).flatMap Register.elements).length < Integer.bound

namespace Construction

def circuit (k : Construction) : Circuit := k.steps.foldl BuildStep.apply { name := k.name }

structure Sound (steps : List BuildStep) (c : Circuit) : Prop where
  wellFormed : c.WellFormed
  quantum : c.quantum = steps.filterMap BuildStep.quantum?
  classical : c.classical = steps.filterMap BuildStep.classical?
  lastSlice_le : c.lastSlice ≤ steps.length

theorem Sound.step {done : List BuildStep} {c : Circuit} (h : Sound done c) {s : BuildStep}
    (fresh : s.Fresh c) (counted : done.length + 1 < Integer.bound) :
    Sound (done ++ [s]) (s.apply c) := by
  have hlast := h.lastSlice_le
  cases s with
  | quantum r =>
    refine ⟨h.wellFormed.declareQubits fresh, ?_, ?_, ?_⟩
    · simp [BuildStep.apply, Circuit.declareQubits, h.quantum, BuildStep.quantum?]
    · simp [BuildStep.apply, Circuit.declareQubits, h.classical, BuildStep.classical?]
    · simp only [BuildStep.apply, Circuit.declareQubits, List.length_append]
      omega
  | classical r =>
    refine ⟨h.wellFormed.declareBits fresh, ?_, ?_, ?_⟩
    · simp [BuildStep.apply, Circuit.declareBits, h.quantum, BuildStep.quantum?]
    · simp [BuildStep.apply, Circuit.declareBits, h.classical, BuildStep.classical?]
    · simp only [BuildStep.apply, Circuit.declareBits, List.length_append]
      omega
  | call k =>
    have hq : (done ++ [BuildStep.call k]).filterMap BuildStep.quantum? =
        done.filterMap BuildStep.quantum? := by simp [BuildStep.quantum?]
    have hc : (done ++ [BuildStep.call k]).filterMap BuildStep.classical? =
        done.filterMap BuildStep.classical? := by simp [BuildStep.classical?]
    cases hk : c.perform k with
    | error e =>
      rw [BuildStep.apply_of_error hk]
      exact ⟨h.wellFormed, hq ▸ h.quantum, hc ▸ h.classical, by simp; omega⟩
    | ok next =>
      rw [BuildStep.apply_of_ok hk]
      obtain ⟨hwf, hle⟩ := h.wellFormed.perform (by omega) hk
      obtain ⟨hqs, hcs⟩ := Circuit.perform_registers hk
      exact ⟨hwf, hqs.trans (hq ▸ h.quantum), hcs.trans (hc ▸ h.classical), by simp; omega⟩

theorem fresh_step (k : Construction) {done rest : List BuildStep} {s : BuildStep} {c : Circuit}
    (hs : k.steps = done ++ s :: rest) (h : Sound done c) : s.Fresh c := by
  have apart {r : Register} {l₁ l₂ : List Register}
      (hnodup : ((l₁ ++ r :: l₂).map Register.name).Nodup) : ∀ s ∈ l₁, s.name ≠ r.name := by
    rw [List.map_append] at hnodup
    intro s hs heq
    exact (List.nodup_append.mp hnodup).2.2 _ (List.mem_map_of_mem hs) _ (by simp) heq
  have hquantum := k.quantum_fresh
  have hclassical := k.classical_fresh
  rw [hs, List.filterMap_append] at hquantum hclassical
  rw [← h.quantum] at hquantum
  rw [← h.classical] at hclassical
  cases s with
  | quantum r => exact apart hquantum
  | classical r => exact apart hclassical
  | call _ => trivial

/-- What holds of an empty circuit and is kept by every step holds of the
circuits under construction, all of which are well formed. -/
theorem induct (k : Construction) {P : Circuit → Prop} (start : P { name := k.name })
    (step : ∀ {done : List BuildStep} {s : BuildStep} {c : Circuit}, Sound done c → s.Fresh c →
      done.length + 1 < Integer.bound → P c → P (s.apply c)) : Sound k.steps k.circuit ∧ P k.circuit := by
  suffices ∀ rest done c, k.steps = done ++ rest → Sound done c → P c →
      Sound k.steps (rest.foldl BuildStep.apply c) ∧ P (rest.foldl BuildStep.apply c) from
    this k.steps [] _ rfl ⟨Circuit.wellFormed_new k.name, rfl, rfl, Int.le_refl 0⟩ start
  intro rest
  induction rest with
  | nil =>
    intro done c hs h hP
    exact ⟨by simpa [hs] using h, hP⟩
  | cons s rest ih =>
    intro done c hs h hP
    have fresh := k.fresh_step hs h
    have counted : done.length + 1 < Integer.bound := by
      have := k.counted
      simp only [hs, List.length_append, List.length_cons] at this
      omega
    exact ih (done ++ [s]) _ (by simp [hs]) (h.step fresh counted) (step h fresh counted hP)

theorem sound (k : Construction) : Sound k.steps k.circuit :=
  (k.induct (P := fun _ => True) trivial fun _ _ _ _ => trivial).1

theorem wellFormed (k : Construction) : k.circuit.WellFormed := k.sound.wellFormed

theorem numQubits_lt (k : Construction) : k.circuit.numQubits < Integer.bound := by
  rw [Circuit.numQubits, Circuit.qubits, k.sound.quantum]
  exact k.qubits_counted

theorem bits_length_lt (k : Construction) : k.circuit.bits.length < Integer.bound := by
  rw [Circuit.bits, k.sound.classical]
  exact k.bits_counted

/-- Teleportation: the state of the first qubit moves to the third, which is
corrected by what the other two are measured as. -/
def teleportation : Construction where
  name := "teleportation"
  steps := [
    .quantum ⟨"q", 3⟩, .classical ⟨"c", 2⟩,
    .call (.gate "rx" "q[0]" [0.3] none),
    .call (.gate "h" "q[1]" [] none),
    .call (.controlled "cx" ["q[1]"] "q[2]" [] none),
    .call (.controlled "cx" ["q[0]"] "q[1]" [] none),
    .call (.gate "h" "q[0]" [] none),
    .call (.measure ["q[0]", "q[1]"] ["c[0]", "c[1]"] none),
    .call (.gate "x" "q[2]" [] (some ⟨"c[1]", 1, .bit⟩)),
    .call (.gate "z" "q[2]" [] (some ⟨"c[0]", 1, .bit⟩)),
    .call (.reset ["q[0]", "q[1]"] none)]
  quantum_fresh := by decide
  classical_fresh := by decide
  counted := by decide
  qubits_counted := by decide
  bits_counted := by decide

end Construction
end Sequencer
