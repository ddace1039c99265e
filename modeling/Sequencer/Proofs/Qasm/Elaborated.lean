import Mathlib.Algebra.Group.Nat.Defs
import Sequencer.Proofs.Circuit.Construction
import Sequencer.Proofs.Qasm.Programs
import Sequencer.Qasm.Elaboration

/-!
# The circuits of programs

A program declares registers under new names and performs builder calls, of
which every one succeeds. The front end lets only calls through that have an
instruction: known gates under resolved conditions, and measurements, resets,
barriers and channels without one, also where they are reached through
user-defined gates.
-/

namespace Sequencer

/-- The condition tests a declared register of several bits, or one declared
bit, against a number of at most 63 bits. -/
inductive Condition.Resolved (classical : List Register) : Condition → Prop
  | register {r : Register} {value : Int} (declared : r ∈ classical) (several : 1 < r.size)
      (low : 0 ≤ value) (high : value < Integer.bound) : Resolved classical ⟨r.name, value, .register⟩
  | bit {r : Register} {i : Nat} {value : Int} (declared : r ∈ classical) (inside : (i : Int) < r.size)
      (low : 0 ≤ value) (high : value < Integer.bound) :
      Resolved classical ⟨elementName r.name i, value, .bit⟩

inductive BuildCall.Permitted (classical : List Register) : BuildCall → Prop
  | gate {name qubit : String} {params : List Float} {cond : Option Condition}
      (known : (Gate.single? name).isSome = true) (count : params.length = Gate.arity name)
      (resolved : ∀ k ∈ cond, k.Resolved classical) : Permitted classical (.gate name qubit params cond)
  | controlled {name : String} {controls : List String} {target : String} {params : List Float}
      {cond : Option Condition} (known : (Gate.controlled? name).isSome = true)
      (count : params.length = Gate.arity name) (resolved : ∀ k ∈ cond, k.Resolved classical) :
      Permitted classical (.controlled name controls target params cond)
  | measure {qubits bits : List String} : Permitted classical (.measure qubits bits none)
  | reset {qubits : List String} : Permitted classical (.reset qubits none)
  | barrier {qubits : List String} : Permitted classical (.barrier qubits)
  | channel {name : String} {qubits : List String} {params : List Float}
      (known : Gate.isChannel name = true) (count : params.length = Gate.arity name) :
      Permitted classical (.named name qubits params none)

inductive Node.Admitted (classical : List Register) : Node → Prop
  | gate {name : String} {params : List Float} {cond : Option Condition} {t : Int}
      (known : (Gate.single? name).isSome = true) (count : params.length = Gate.arity name)
      (resolved : ∀ k ∈ cond, k.Resolved classical) :
      Admitted classical
        { gate := name, params := params, hasParameter := !params.isEmpty, target := true, timeslice := t,
          cond := cond }
  | controlled {name : String} {partners : List String} {params : List Float} {target : Bool}
      {cond : Option Condition} {t : Int} (known : (Gate.controlled? name).isSome = true)
      (count : params.length = Gate.arity name) (resolved : ∀ k ∈ cond, k.Resolved classical) :
      Admitted classical
        { gate := name, controlled := true, partners := partners, params := params,
          hasParameter := !params.isEmpty, target := target, timeslice := t, cond := cond }
  | measure {bit : String} {t : Int} :
      Admitted classical { gate := "M", bits := [bit], target := true, timeslice := t, measurement := true }
  | reset {t : Int} : Admitted classical { gate := "reset", target := true, timeslice := t, reset := true }
  | barrier {t : Int} :
      Admitted classical { gate := "barrier", target := true, timeslice := t, barrier := true }
  | channel {name : String} {partners : List String} {params : List Float} {t : Int}
      (known : Gate.isChannel name = true) (count : params.length = Gate.arity name) :
      Admitted classical
        { gate := name, partners := partners, params := params, hasParameter := !params.isEmpty,
          target := true, timeslice := t }

section
variable {classical more : List Register}

theorem Condition.Resolved.mono {k : Condition} (h : k.Resolved classical)
    (hsub : ∀ r ∈ classical, r ∈ more) : k.Resolved more := by
  cases h with
  | register declared several low high => exact .register (hsub _ declared) several low high
  | bit declared inside low high => exact .bit (hsub _ declared) inside low high

theorem Node.Admitted.mono {n : Node} (h : n.Admitted classical) (hsub : ∀ r ∈ classical, r ∈ more) :
    n.Admitted more := by
  cases h with
  | gate known count resolved => exact .gate known count fun k hk => (resolved k hk).mono hsub
  | controlled known count resolved => exact .controlled known count fun k hk => (resolved k hk).mono hsub
  | measure => exact .measure
  | reset => exact .reset
  | barrier => exact .barrier
  | channel known count => exact .channel known count

theorem Node.Admitted.moved {n : Node} (h : n.Admitted classical) (t : Int) :
    ({ n with timeslice := t } : Node).Admitted classical := by
  cases h with
  | gate known count resolved => exact .gate known count resolved
  | controlled known count resolved => exact .controlled known count resolved
  | measure => exact .measure
  | reset => exact .reset
  | barrier => exact .barrier
  | channel known count => exact .channel known count

end

theorem BuildCall.Permitted.admitted {k : BuildCall} {classical : List Register} (hk : k.Permitted classical)
    (t : Int) : ∀ e ∈ k.nodes t, e.2.Admitted classical := by
  cases hk with
  | gate known count resolved => simpa [BuildCall.nodes] using .gate known count resolved
  | controlled known count resolved => exact List.forall_mem_map.mpr fun _ _ => .controlled known count resolved
  | measure => exact List.forall_mem_map.mpr fun _ _ => .measure
  | reset => exact List.forall_mem_map.mpr fun _ _ => .reset
  | barrier => exact List.forall_mem_map.mpr fun _ _ => .barrier
  | channel known count => exact List.forall_mem_map.mpr fun _ _ => .channel known count

namespace Circuit

theorem mem_or_at?_of_placeAll {c : Circuit} {nodes : List (String × Node)} {q : String} {t : Int} {n : Node}
    (h : (c.placeAll nodes).at? q t = some n) : (∃ e ∈ nodes, e.2 = n) ∨ c.at? q t = some n := by
  induction nodes generalizing c with
  | nil => exact .inr h
  | cons e rest ih =>
    rcases ih h with ⟨x, hx, hxn⟩ | hc
    · exact .inl ⟨x, List.mem_cons_of_mem _ hx, hxn⟩
    · by_cases htracks : c.Tracks e.1
      · rw [at?_place _ htracks] at hc
        split at hc
        · exact .inl ⟨e, List.mem_cons_self, Option.some.inj hc⟩
        · exact .inr hc
      · simp_all [place, Tracks]

theorem lastSlice_le_placeAll (c : Circuit) (nodes : List (String × Node)) :
    c.lastSlice ≤ (c.placeAll nodes).lastSlice := by
  induction nodes generalizing c with
  | nil => exact Int.le_refl _
  | cons e rest ih =>
    refine Int.le_trans ?_ (ih _)
    by_cases htracks : c.Tracks e.1
    · rw [lastSlice_place _ htracks]
      exact Int.le_max_left _ _
    · simp_all [place, Tracks]

end Circuit

/-- The circuit can be held in memory: a qubit, a classical bit and a timeslice
each take several bytes of 64-bit addresses. -/
structure Circuit.Addressable (c : Circuit) : Prop where
  qubits : c.numQubits ≤ 2 ^ 60
  bits : c.bits.length < Integer.bound
  slices : c.lastSlice < Integer.bound - 1

instance (c : Circuit) : Decidable c.Addressable :=
  decidable_of_iff (c.numQubits ≤ 2 ^ 60 ∧ c.bits.length < Integer.bound ∧ c.lastSlice < Integer.bound - 1)
    ⟨fun h => ⟨h.1, h.2.1, h.2.2⟩, fun h => ⟨h.qubits, h.bits, h.slices⟩⟩

namespace Qasm

-- ---------------------------------------------------------------------------
-- Circuits that statements lead to
-- ---------------------------------------------------------------------------

inductive Elaborated : Circuit → Prop
  | start (name : String) : Elaborated { name := name }
  | quantum {c : Circuit} {r : Register} (h : Elaborated c) (named : IsIdentifier r.name)
      (size : 0 < r.size) (fresh : ∀ s ∈ c.quantum ++ c.classical, s.name ≠ r.name) :
      Elaborated (c.declareQubits r.name r.size)
  | classical {c : Circuit} {r : Register} (h : Elaborated c) (named : IsIdentifier r.name)
      (size : 0 < r.size) (fresh : ∀ s ∈ c.quantum ++ c.classical, s.name ≠ r.name) :
      Elaborated (c.declareBits r.name r.size)
  | call {c d : Circuit} {k : BuildCall} (h : Elaborated c) (permitted : k.Permitted c.classical)
      (done : c.perform k = .ok d) : Elaborated d

namespace Elaborated
variable {c : Circuit} (h : Elaborated c)
include h

theorem register {r : Register} (hr : r ∈ c.quantum ++ c.classical) : IsIdentifier r.name ∧ 0 < r.size := by
  induction h with
  | start => simp at hr
  | @quantum c s _ named size _ ih =>
    simp only [Circuit.declareQubits, List.mem_append, List.mem_singleton] at hr ih
    rcases hr with (hr | rfl) | hr
    · exact ih (.inl hr)
    · exact ⟨named, size⟩
    · exact ih (.inr hr)
  | @classical c s _ named size _ ih =>
    simp only [Circuit.declareBits, List.mem_append, List.mem_singleton] at hr ih
    rcases hr with hr | hr | rfl
    · exact ih (.inl hr)
    · exact ih (.inr hr)
    · exact ⟨named, size⟩
  | call _ _ done ih =>
    obtain ⟨hq, hc⟩ := Circuit.perform_registers done
    exact ih (hq ▸ hc ▸ hr)

theorem admits {q : String} {t : Int} {n : Node} (hn : c.at? q t = some n) : n.Admitted c.classical := by
  induction h with
  | start => cases hn
  | @quantum c r h _ _ _ ih =>
    simp only [Circuit.at?, Circuit.timeline, Circuit.declareQubits, Circuit.get?_foldl_insert] at hn
    split at hn
    · cases hn
    · exact ih hn
  | classical _ _ _ _ ih => exact (ih hn).mono fun r hr => List.mem_append_left _ hr
  | call _ permitted done ih =>
    obtain ⟨-, hclassical⟩ := Circuit.perform_registers done
    obtain ⟨-, -, rfl⟩ := Circuit.perform_nodes done
    rw [hclassical]
    rcases Circuit.mem_or_at?_of_placeAll hn with ⟨e, he, rfl⟩ | hold
    · exact permitted.admitted _ e he
    · exact ih hold

/-- The last timeslice only grows, so a circuit whose timeslices are within
range was so at every step. -/
theorem wellFormed (room : c.lastSlice < Integer.bound - 1) : c.WellFormed := by
  induction h with
  | start name => exact Circuit.wellFormed_new name
  | quantum _ _ _ fresh ih =>
    exact (ih room).declareQubits fun s hs => fresh s (List.mem_append_left _ hs)
  | classical _ _ _ fresh ih =>
    exact (ih room).declareBits fun s hs => fresh s (List.mem_append_right _ hs)
  | @call c d k _ _ done ih =>
    have hle : c.lastSlice ≤ d.lastSlice := by
      obtain ⟨nodes, -, -, rfl⟩ := Circuit.perform_ok done
      exact Circuit.lastSlice_le_placeAll c nodes
    exact ((ih (by omega)).perform (by omega) done).1

end Elaborated

-- ---------------------------------------------------------------------------
-- Gate calls
-- ---------------------------------------------------------------------------

theorem controlled?_of_splitFrom {cs : List Char} {extra n : Nat} {base : String}
    (h : Gate.splitFrom cs extra = some (base, n)) : (Gate.controlled? base).isSome = true := by
  induction cs generalizing extra with
  | nil => cases h
  | cons c rest ih =>
    simp only [Gate.splitFrom] at h
    split at h
    · split at h
      · rename_i hknown
        cases h
        exact hknown
      · exact ih h
    · cases h

theorem checkCounts_eq_ok {name : String} {qubits params : Nat} {i : Instance} :
    checkCounts name qubits params i = .ok () ↔ i.qubits.length = qubits ∧ i.params.length = params := by
  simp only [checkCounts, check_eq_ok, checkLast_eq_ok, not_not, and_true]

section
variable {channels : Assoc String NamedDeclaration} {i : Instance} {c d : Circuit}
  (known : ∀ {name decl}, channels.get? name = some decl → Gate.isChannel name = true)
include known

theorem applyBuiltin?_ok (resolved : ∀ k ∈ i.cond, k.Resolved c.classical)
    (h : applyBuiltin? channels i c = some (.ok d)) :
    ∃ k : BuildCall, k.Permitted c.classical ∧ c.perform k = .ok d := by
  simp only [applyBuiltin?] at h
  split at h
  · rename_i hsingle
    simp only [Option.some.injEq, bind_eq_ok, built, mapError_eq_ok] at h
    obtain ⟨_, hcounts, hd⟩ := h
    exact ⟨.gate .., .gate hsingle (checkCounts_eq_ok.mp hcounts).2 resolved, hd⟩
  · split at h
    · rename_i base n hsplit
      simp only [Option.some.injEq, bind_eq_ok, built, mapError_eq_ok] at h
      obtain ⟨_, hcounts, hd⟩ := h
      exact ⟨.controlled .., .controlled (controlled?_of_splitFrom hsplit) (checkCounts_eq_ok.mp hcounts).2 resolved, hd⟩
    · obtain ⟨decl, hdecl, h⟩ := Option.map_eq_some_iff.mp h
      simp only [bind_eq_ok, check_eq_ok, built, mapError_eq_ok] at h
      obtain ⟨_, hcounts, -, hd⟩ := h
      exact ⟨.named .., .channel (known hdecl) (checkCounts_eq_ok.mp hcounts).2, hd⟩

/-- Inlined gates come down to permitted calls, however deep they nest. -/
theorem applyInstance_elaborated {gates : List GateDeclaration} (h : Elaborated c)
    (resolved : ∀ k ∈ i.cond, k.Resolved c.classical) (hd : applyInstance channels gates i c = .ok d) :
    Elaborated d ∧ d.classical = c.classical := by
  have hbuiltin {i c d} (h : Elaborated c) (resolved : ∀ k ∈ i.cond, k.Resolved c.classical)
      (hd : applyBuiltin? channels i c = some (.ok d)) : Elaborated d ∧ d.classical = c.classical := by
    obtain ⟨k, permitted, done⟩ := applyBuiltin?_ok known resolved hd
    exact ⟨h.call permitted done, (Circuit.perform_registers done).2⟩
  induction gates generalizing i c d with
  | nil =>
    unfold applyInstance at hd
    cases hb : applyBuiltin? channels i c with
    | none =>
      rw [hb] at hd
      cases hd
    | some r =>
      rw [hb] at hd
      exact hbuiltin h resolved (hd ▸ hb)
  | cons decl older ih =>
    unfold applyInstance at hd
    split at hd
    · rename_i hb
      exact hbuiltin h resolved (hd ▸ hb)
    · split at hd
      · -- the condition of an inlined gate guards every call of its body
        simp only [inline, check_eq_ok] at hd
        refine foldlM_keeps (P := fun _ d => Elaborated d ∧ d.classical = c.classical) ⟨h, rfl⟩ ?_ hd.2.2
        rintro done call rest b b' - ⟨hb, hclassical⟩ hcall
        simp only [mapError_eq_ok, bind_eq_ok] at hcall
        obtain ⟨params, -, hcall⟩ := hcall
        obtain ⟨hb', heq⟩ := ih hb (by rw [hclassical]; exact resolved) hcall
        exact ⟨hb', heq.trans hclassical⟩
      · exact ih h resolved hd

end

-- ---------------------------------------------------------------------------
-- Statements
-- ---------------------------------------------------------------------------

structure Scope.Sound (s : Scope) : Prop where
  elaborated : Elaborated s.circuit
  channels : ∀ {name decl}, s.channels.get? name = some decl → Gate.isChannel name = true

theorem exists_of_sizeOf {registers : List Register} {name : String} (h : Circuit.sizeOf registers name ≠ 0) :
    ∃ r ∈ registers, r.name = name ∧ Circuit.sizeOf registers name = r.size := by
  unfold Circuit.sizeOf at h ⊢
  split at h
  · rename_i r hr
    have hname := List.find?_some hr
    exact ⟨r, List.mem_of_find?_eq_some hr, by simpa using hname, rfl⟩
  · exact absurd rfl h

theorem sizeOf_pos {registers : List Register} (hpos : ∀ r ∈ registers, 0 < r.size) {r : Register}
    (hr : r ∈ registers) : 0 < Circuit.sizeOf registers r.name := by
  unfold Circuit.sizeOf
  split
  · rename_i s hs
    exact hpos s (List.mem_of_find?_eq_some hs)
  · rename_i hnone
    exact absurd (List.find?_eq_none.mp hnone r hr) (by simp)

theorem condition_resolved {c : Circuit} {register : String} {index : Option Int} {value : Int}
    {k : Condition} (low : 0 ≤ value) (high : value < Integer.bound)
    (h : c.condition register index value = .ok k) : k.Resolved c.classical := by
  simp only [Circuit.condition] at h
  split at h
  · cases h
  · rename_i hsize
    obtain ⟨r, hr, rfl, heq⟩ := exists_of_sizeOf hsize
    rw [Circuit.classicalSize, heq] at h
    split at h
    · rename_i hseveral
      cases h
      exact .register hr hseveral.2 low high
    · split at h
      · cases h
      · rename_i hinside
        cases h
        obtain ⟨i, hi⟩ : ∃ i : Nat, (index.filter fun i => 0 ≤ i).getD 0 = i := by
          refine Int.eq_ofNat_of_zero_le ?_
          cases index with
          | none => simp
          | some j => by_cases hj : 0 ≤ j <;> simp [Option.filter, hj]
        rw [hi] at hinside ⊢
        exact .bit hr (by omega) low high

theorem checkRegister_ok {s : Scope} {name : String} {size : Int} (h : Elaborated s.circuit)
    (hs : s.checkRegister name size = .ok u) :
    0 < size ∧ ∀ r ∈ s.circuit.quantum ++ s.circuit.classical, r.name ≠ name := by
  simp only [Scope.checkRegister, check_eq_ok, checkLast_eq_ok] at hs
  obtain ⟨hsize, hnew, -⟩ := hs
  refine ⟨by omega, ?_⟩
  rintro r hr rfl
  rcases List.mem_append.mp hr with hr | hr
  · exact hnew (.inl (sizeOf_pos (fun s hs => (h.register (List.mem_append_left _ hs)).2) hr))
  · exact hnew (.inr (sizeOf_pos (fun s hs => (h.register (List.mem_append_right _ hs)).2) hr))

namespace Scope.Sound
variable {s : Scope} (h : s.Sound)
include h

theorem call {call : Call} {cond : Option Condition} {d : Circuit}
    (resolved : ∀ k ∈ cond, k.Resolved s.circuit.classical) (hd : s.call call cond = .ok d) :
    Elaborated d := by
  simp only [Scope.call, bind_eq_ok] at hd
  obtain ⟨params, -, ⟨width, args⟩, -, hd⟩ := hd
  refine (foldlM_keeps (P := fun _ d => Elaborated d ∧ d.classical = s.circuit.classical)
    ⟨h.elaborated, rfl⟩ ?_ hd).1
  rintro done j rest b b' - ⟨hb, hclassical⟩ hstep
  obtain ⟨hb', heq⟩ := applyInstance_elaborated h.channels hb (by rw [hclassical]; exact resolved) hstep
  exact ⟨hb', heq.trans hclassical⟩

theorem act {a : Action} {d : Circuit} (hd : s.act a none = .ok d) : Elaborated d := by
  unfold Scope.act at hd
  split at hd
  · simp only [bind_eq_ok, built, mapError_eq_ok] at hd
    obtain ⟨qubits, -, bits, -, hd⟩ := hd
    exact h.elaborated.call (k := .measure qubits bits none) .measure hd
  · simp only [bind_eq_ok, built, mapError_eq_ok] at hd
    obtain ⟨qubits, -, hd⟩ := hd
    exact h.elaborated.call (k := .reset qubits none) .reset hd
  · simp only [bind_eq_ok, built, mapError_eq_ok] at hd
    obtain ⟨qubits, -, hd⟩ := hd
    exact h.elaborated.call (k := .barrier qubits.flatten) .barrier hd
  · exact h.call (by simp) hd

theorem step {body : StatementBody} {s' : Scope} (legal : body.Legal) (hs : s.step body = .ok s') :
    s'.Sound := by
  cases body with
  | inclusion file =>
    cases hs
    exact h
  | quantumRegister name size =>
    simp only [Scope.step, bind_eq_ok, pure_eq_ok] at hs
    obtain ⟨_, hcheck, rfl⟩ := hs
    obtain ⟨hsize, hfresh⟩ := checkRegister_ok h.elaborated hcheck
    exact ⟨h.elaborated.quantum (r := ⟨name, size⟩) legal hsize hfresh, h.channels⟩
  | classicalRegister name size =>
    simp only [Scope.step, bind_eq_ok, pure_eq_ok] at hs
    obtain ⟨_, hcheck, rfl⟩ := hs
    obtain ⟨hsize, hfresh⟩ := checkRegister_ok h.elaborated hcheck
    exact ⟨h.elaborated.classical (r := ⟨name, size⟩) legal hsize hfresh, h.channels⟩
  | gate decl =>
    simp only [Scope.step, Scope.declareGate, check_eq_ok, bind_eq_ok, pure_eq_ok] at hs
    obtain ⟨-, _, -, rfl⟩ := hs
    exact ⟨h.elaborated, h.channels⟩
  | named decl =>
    simp only [Scope.step] at hs
    split at hs
    · rename_i hchannel
      cases hs
      refine ⟨h.elaborated, fun {name other} hget => ?_⟩
      rw [Assoc.get?_insert] at hget
      split at hget
      · rename_i heq
        exact heq ▸ hchannel
      · exact h.channels hget
    · cases hs
  | guarded guard action =>
    simp only [Scope.step, bind_eq_ok, mapError_eq_ok, pure_eq_ok] at hs
    obtain ⟨k, hk, _, hguarded, d, hd, rfl⟩ := hs
    have resolved := condition_resolved legal.1 legal.2 hk
    cases action with
    | call call => exact ⟨h.call (by simpa using resolved) hd, h.channels⟩
    | measure | reset | barrier => cases hguarded
  | action a =>
    simp only [Scope.step, bind_eq_ok, pure_eq_ok] at hs
    obtain ⟨d, hd, rfl⟩ := hs
    exact ⟨h.act hd, h.channels⟩

end Scope.Sound

theorem elaborated_of_readCircuit {name text : String} {c : Circuit} (h : readCircuit name text = .ok c) :
    Elaborated c := by
  simp only [readCircuit, bind_eq_ok, mapError_eq_ok, Program.toCircuit, pure_eq_ok] at h
  obtain ⟨p, hp, final, hfinal, rfl⟩ := h
  have legal := Grammar.legal_of_read hp
  refine (foldlM_keeps (P := fun _ s => Scope.Sound s) ⟨.start name, by simp [Assoc.get?, Assoc.find]⟩ ?_
    hfinal).elaborated
  rintro done st rest s s' hsplit hs hstep
  exact hs.step (legal st (hsplit ▸ by simp)) (mapError_eq_ok.mp hstep)

end Qasm
end Sequencer
