import Sequencer.Proofs.Circuit.Bookkeeping
import Sequencer.Proofs.Timelines

/-!
# Performing a circuit again

A script lists the operations of a circuit as builder calls, none of them
before an operation of an earlier timeslice. Performed on empty registers it
gives the nodes of the circuit again, on every qubit in the same order.

Timeslices may differ. Operations move to the first timeslice that is free, and
a conditioned one also waits for the measurements of its own timeslice that the
script lists before it. No operation comes to lie beyond twice its timeslice.
-/

namespace Sequencer

/-- Two nodes of one operation, up to timeslices and, without controls, the
order of the partners. Parameters are compared by `same`. -/
structure Node.Alike (same : Float → Float → Prop) (n m : Node) : Prop where
  gate : m.gate = n.gate
  params : List.Forall₂ same n.params m.params
  hasParameter : m.hasParameter = n.hasParameter
  controlled : m.controlled = n.controlled
  target : m.target = n.target
  partners : m.partners.Perm n.partners
  order : n.controlled = true → m.partners = n.partners
  bits : m.bits = n.bits
  measurement : m.measurement = n.measurement
  reset : m.reset = n.reset
  barrier : m.barrier = n.barrier
  cond : m.cond = n.cond

namespace Circuit

/-- `d` has the operations of `c`, on every qubit in the same order, and a
conditioned operation after the measurements that it came after. `slot` gives
the timeslice in `d` for a qubit and a timeslice in `c`. -/
structure Repeats (same : Float → Float → Prop) (c d : Circuit) (slot : String → Int → Int) : Prop where
  quantum : d.quantum = c.quantum
  classical : d.classical = c.classical
  timelines : ∀ q, List.Forall₂ (fun a b => b.1 = slot q a.1 ∧ a.2.Alike same b.2)
    (c.timeline q).entries (d.timeline q).entries
  waits : ∀ {q t n p s m}, c.at? q t = some n → n.isConditioned = true → c.at? p s = some m →
    m.measurement = true → s < t → slot p s < slot q t

/-- One of the calls repeats what the qubit does at `t`. -/
def Covers (calls : List (Int × BuildCall)) (q : String) (t : Int) : Prop :=
  ∃ e ∈ calls, e.1 = t ∧ q ∈ e.2.participants

structure Script (same : Float → Float → Prop) (c : Circuit) (calls : List (Int × BuildCall)) : Prop where
  valid : ∀ e ∈ calls, e.2.Valid c
  places : ∀ e ∈ calls, ∀ s, ∀ x ∈ e.2.nodes s, ∃ n, c.at? x.1 e.1 = some n ∧ n.Alike same x.2
  covers : ∀ {q t n}, c.at? q t = some n → Covers calls q t
  ordered : calls.Pairwise fun a b => a.1 < b.1 ∨ a.1 = b.1 ∧ a.2.participants.Disjoint b.2.participants

structure Replayed (same : Float → Float → Prop) (c : Circuit) (done : List (Int × BuildCall))
    (slot : String → Int → Int) (d : Circuit) : Prop where
  wellFormed : d.WellFormed
  bookkept : d.Bookkept
  quantum : d.quantum = c.quantum
  classical : d.classical = c.classical
  kept : ∀ {q t}, Covers done q t → ∃ n m, c.at? q t = some n ∧ d.at? q (slot q t) = some m ∧ n.Alike same m
  only : ∀ {q s m}, d.at? q s = some m → ∃ t, Covers done q t ∧ slot q t = s
  ordered : ∀ {q s t}, Covers done q s → Covers done q t → s < t → slot q s < slot q t
  waits : ∀ {q t n p s m}, Covers done q t → Covers done p s → c.at? q t = some n → n.isConditioned = true →
    c.at? p s = some m → m.measurement = true → s < t → slot p s < slot q t
  early : ∀ {q t}, Covers done q t → slot q t ≤ 2 * t
  early_unguarded : ∀ {q t n}, Covers done q t → c.at? q t = some n → n.cond = none → slot q t < 2 * t

theorem not_covers_nil {q : String} {t : Int} : ¬ Covers [] q t := by
  rintro ⟨e, he, -⟩
  cases he

theorem covers_concat {done : List (Int × BuildCall)} {t : Int} {k : BuildCall} {q : String} {s : Int} :
    Covers (done ++ [(t, k)]) q s ↔ Covers done q s ∨ s = t ∧ q ∈ k.participants := by
  simp [Covers, or_and_right, exists_or, eq_comm]

theorem Valid.congr {c d : Circuit} {k : BuildCall} (h : k.Valid c) (quantum : d.quantum = c.quantum)
    (classical : d.classical = c.classical) : k.Valid d := by
  have hqubits : d.qubits = c.qubits := by simp only [qubits, quantum]
  have hbits : d.bits = c.bits := by simp only [bits, classical]
  unfold BuildCall.Valid at h ⊢
  rwa [hqubits, hbits]

namespace Replayed
variable {same : Float → Float → Prop} {c d : Circuit} {done : List (Int × BuildCall)} {slot : String → Int → Int}
  {t : Int} {k : BuildCall} (h : Replayed same c done slot d)
include h

theorem lastSlice_le (wf : c.WellFormed) : d.lastSlice ≤ 2 * c.lastSlice := by
  rcases h.bookkept.last_slice.2 with ⟨q, n, hn⟩ | ⟨hzero, -⟩
  · obtain ⟨t, ht, hslot⟩ := h.only hn
    obtain ⟨x, -, hx, -, -⟩ := h.kept ht
    have := wf.slice_le hx
    have := h.early ht
    omega
  · have := wf.lastSlice_nonneg
    omega

theorem mark_le {q : String} (positive : 1 ≤ t) (before : ∀ s, Covers done q s → s < t) :
    mark d.qubitMarks q ≤ 2 * t - 2 := by
  rcases (h.bookkept.qubit_mark q).2 with ⟨n, hn⟩ | ⟨hzero, -⟩
  · obtain ⟨s, hs, hslot⟩ := h.only hn
    have := before s hs
    have := h.early hs
    omega
  · omega

theorem lastMeasured_le (positive : 1 ≤ t) (before : ∀ q s, Covers done q s → s ≤ t)
    (unguarded : ∀ {q t n}, c.at? q t = some n → n.measurement = true → n.cond = none) :
    d.lastMeasured ≤ 2 * t - 1 := by
  rcases h.bookkept.last_measured.2 with ⟨q, m, hm, hmeasured⟩ | ⟨hzero, -⟩
  · obtain ⟨s, hs, hslot⟩ := h.only hm
    obtain ⟨n, m', hn, hm', alike⟩ := h.kept hs
    rw [hslot, hm] at hm'
    obtain rfl := Option.some.inj hm'
    have hearly := h.early_unguarded hs hn (unguarded hn (alike.measurement ▸ hmeasured))
    have := before q s hs
    omega
  · omega

end Replayed

-- ---------------------------------------------------------------------------
-- One more call
-- ---------------------------------------------------------------------------

/-- The call that a script has for `t` after the calls `done` puts its nodes
into `new`: behind what their qubits did before, and not too far. -/
structure Lands (same : Float → Float → Prop) (c d : Circuit) (done : List (Int × BuildCall)) (t : Int)
    (k : BuildCall) (new : Int) (d' : Circuit) : Prop where
  le : ∀ {q s}, Covers done q s → s ≤ t
  lt : ∀ {q s}, Covers done q s → q ∈ k.participants → s < t
  placed : ∀ {q s m}, d'.at? q s = some m ↔ ((q, m) ∈ k.nodes new ∧ s = new) ∨ d.at? q s = some m
  participant : ∀ {q m}, (q, m) ∈ k.nodes new → q ∈ k.participants
  node : ∀ {q}, q ∈ k.participants →
    ∃ n m, c.at? q t = some n ∧ (q, m) ∈ k.nodes new ∧ n.Alike same m ∧ n.cond = k.cond
  behind : ∀ {q s m}, q ∈ k.participants → d.at? q s = some m → s < new
  waits : ∀ {q s m}, k.cond.isSome = true → d.at? q s = some m → m.measurement = true → s < new
  early : ∀ {q}, q ∈ k.participants → new ≤ 2 * t
  early_unguarded : ∀ {q}, q ∈ k.participants → k.cond = none → new < 2 * t

/-- The slots after the call: those of its nodes are chosen, all others stay. -/
def slotAfter (slot : String → Int → Int) (k : BuildCall) (t new : Int) (q : String) (s : Int) : Int :=
  if q ∈ k.participants ∧ s = t then new else slot q s

section
variable {same : Float → Float → Prop} {c d d' : Circuit} {done : List (Int × BuildCall)} {slot : String → Int → Int}
  {t new : Int} {k : BuildCall}

theorem slotAfter_new {q : String} (hq : q ∈ k.participants) : slotAfter slot k t new q t = new :=
  if_pos ⟨hq, rfl⟩

namespace Lands
variable (l : Lands same c d done t k new d') (h : Replayed same c done slot d)
include l

theorem slotAfter_old {q : String} {s : Int} (hs : Covers done q s) : slotAfter slot k t new q s = slot q s := by
  refine if_neg ?_
  rintro ⟨hq, rfl⟩
  exact Int.lt_irrefl _ (l.lt hs hq)

include h

theorem kept {q : String} {s : Int} (hs : Covers (done ++ [(t, k)]) q s) :
    ∃ n m, c.at? q s = some n ∧ d'.at? q (slotAfter slot k t new q s) = some m ∧ n.Alike same m := by
  rcases covers_concat.mp hs with hs | ⟨rfl, hq⟩
  · obtain ⟨n, m, hn, hm, alike⟩ := h.kept hs
    rw [l.slotAfter_old hs]
    exact ⟨n, m, hn, l.placed.mpr (.inr hm), alike⟩
  · obtain ⟨n, m, hn, hm, alike, -⟩ := l.node hq
    rw [slotAfter_new hq]
    exact ⟨n, m, hn, l.placed.mpr (.inl ⟨hm, rfl⟩), alike⟩

theorem only {q : String} {s : Int} {m : Node} (hm : d'.at? q s = some m) :
    ∃ u, Covers (done ++ [(t, k)]) q u ∧ slotAfter slot k t new q u = s := by
  rcases l.placed.mp hm with ⟨hmem, rfl⟩ | hm
  · have hq := l.participant hmem
    exact ⟨t, covers_concat.mpr (.inr ⟨rfl, hq⟩), slotAfter_new hq⟩
  · obtain ⟨u, hu, hslot⟩ := h.only hm
    exact ⟨u, covers_concat.mpr (.inl hu), (l.slotAfter_old hu).trans hslot⟩

theorem ordered {q : String} {s u : Int} (hs : Covers (done ++ [(t, k)]) q s) (hu : Covers (done ++ [(t, k)]) q u)
    (hsu : s < u) : slotAfter slot k t new q s < slotAfter slot k t new q u := by
  rcases covers_concat.mp hu with old' | ⟨rfl, hq⟩
  · rcases covers_concat.mp hs with old | ⟨rfl, -⟩
    · rw [l.slotAfter_old old, l.slotAfter_old old']
      exact h.ordered old old' hsu
    · exact absurd (l.le old') (Int.not_le.mpr hsu)
  · rcases covers_concat.mp hs with old | ⟨rfl, -⟩
    · obtain ⟨-, m, -, hm, -⟩ := h.kept old
      rw [l.slotAfter_old old, slotAfter_new hq]
      exact l.behind hq hm
    · exact absurd hsu (Int.lt_irrefl _)

/-- A measurement that the call is conditioned behind is among those that it
waits for. -/
theorem waited {q p : String} {u s : Int} {n m : Node} (hu : Covers (done ++ [(t, k)]) q u)
    (hs : Covers (done ++ [(t, k)]) p s) (hn : c.at? q u = some n) (hcond : n.isConditioned = true)
    (hm : c.at? p s = some m) (hmeasured : m.measurement = true) (hsu : s < u) :
    slotAfter slot k t new p s < slotAfter slot k t new q u := by
  rcases covers_concat.mp hu with old' | ⟨rfl, hq⟩
  · rcases covers_concat.mp hs with old | ⟨rfl, -⟩
    · rw [l.slotAfter_old old, l.slotAfter_old old']
      exact h.waits old' old hn hcond hm hmeasured hsu
    · exact absurd (l.le old') (Int.not_le.mpr hsu)
  · rcases covers_concat.mp hs with old | ⟨rfl, -⟩
    · obtain ⟨n', -, hn', -, -, hkcond⟩ := l.node hq
      obtain rfl := Option.some.inj (hn.symm.trans hn')
      obtain ⟨m', y, hm', hy, alike⟩ := h.kept old
      obtain rfl := Option.some.inj (hm.symm.trans hm')
      rw [l.slotAfter_old old, slotAfter_new hq]
      exact l.waits (hkcond ▸ hcond) hy (alike.measurement.trans hmeasured)
    · exact absurd hsu (Int.lt_irrefl _)

theorem slot_le {q : String} {s : Int} (hs : Covers (done ++ [(t, k)]) q s) :
    slotAfter slot k t new q s ≤ 2 * s := by
  rcases covers_concat.mp hs with hs | ⟨rfl, hq⟩
  · rw [l.slotAfter_old hs]
    exact h.early hs
  · rw [slotAfter_new hq]
    exact l.early hq

theorem slot_lt {q : String} {s : Int} {n : Node} (hs : Covers (done ++ [(t, k)]) q s) (hn : c.at? q s = some n)
    (hcond : n.cond = none) : slotAfter slot k t new q s < 2 * s := by
  rcases covers_concat.mp hs with hs | ⟨rfl, hq⟩
  · rw [l.slotAfter_old hs]
    exact h.early_unguarded hs hn hcond
  · obtain ⟨n', -, hn', -, -, hkcond⟩ := l.node hq
    obtain rfl := Option.some.inj (hn.symm.trans hn')
    rw [slotAfter_new hq]
    exact l.early_unguarded hq (hkcond ▸ hcond)

end Lands
end

namespace Replayed
variable {same : Float → Float → Prop} {c d : Circuit} {done : List (Int × BuildCall)} {slot : String → Int → Int}
  {t : Int} {k : BuildCall}

theorem start (blank : d.Blank c.quantum c.classical) (bookkept : d.Bookkept) :
    Replayed same c [] (fun _ _ => 0) d where
  wellFormed := blank.wellFormed
  bookkept := bookkept
  quantum := blank.quantum_eq
  classical := blank.classical_eq
  kept ht := absurd ht not_covers_nil
  only hm := by simp [blank.empty] at hm
  ordered hs := absurd hs not_covers_nil
  waits ht := absurd ht not_covers_nil
  early ht := absurd ht not_covers_nil
  early_unguarded ht := absurd ht not_covers_nil

section
variable (h : Replayed same c done slot d) (wf : c.WellFormed)
  (unguarded : ∀ {q t n}, c.at? q t = some n → n.measurement = true → n.cond = none)
  (before : ∀ e ∈ done, e.1 < t ∨ e.1 = t ∧ e.2.participants.Disjoint k.participants)
include before

theorem le_of_covers {q : String} {s : Int} (hs : Covers done q s) : s ≤ t := by
  obtain ⟨e, he, rfl, -⟩ := hs
  have := before e he
  omega

theorem lt_of_covers {q : String} {s : Int} (hs : Covers done q s) (hq : q ∈ k.participants) : s < t := by
  obtain ⟨e, he, rfl, hqe⟩ := hs
  rcases before e he with hlt | ⟨-, hdisjoint⟩
  · exact hlt
  · exact absurd hq (hdisjoint hqe)

include h wf unguarded

theorem slotFor_early (small : 2 * c.lastSlice + 1 < Integer.bound) {q : String} {n : Node}
    (hn : c.at? q t = some n) : d.slotFor k.participants k.cond ≤ 2 * t ∧
      (k.cond = none → d.slotFor k.participants k.cond < 2 * t) := by
  have positive := (wf.slice hn).2.1
  have hslice := wf.slice_le hn
  have marks (p) (hp : p ∈ k.participants) := h.mark_le positive fun s hs => lt_of_covers before hs hp
  have measured := h.lastMeasured_le positive (fun _ _ hs => le_of_covers before hs) unguarded
  constructor
  · have hslot : d.slotFor k.participants k.cond ≤ 2 * t - 1 + 1 := slotFor_le (by omega) (by omega) h.wellFormed
      (fun p hp => Int.le_trans (marks p hp) (by omega)) fun _ => measured
    omega
  · intro hcond
    have hslot : d.slotFor k.participants k.cond ≤ 2 * t - 2 + 1 :=
      slotFor_le (by omega) (by omega) h.wellFormed marks (by simp [hcond])
    omega

theorem lands (small : 2 * c.lastSlice + 1 < Integer.bound) {d' : Circuit} (hd' : d.perform k = .ok d')
    (places : ∀ s, ∀ x ∈ k.nodes s, ∃ n, c.at? x.1 t = some n ∧ n.Alike same x.2) :
    Lands same c d done t k (d.slotFor k.participants k.cond) d' := by
  have hlast := h.lastSlice_le wf
  have room : d.lastSlice + 1 < Integer.bound := by omega
  obtain ⟨hfst, placed, rfl⟩ := perform_nodes hd'
  obtain ⟨-, -, hfree, hwait⟩ := slotFor_bounds h.wellFormed room k.participants k.cond
  have hslot {q m} (hm : (q, m) ∈ k.nodes (d.slotFor k.participants k.cond)) :
      m.timeslice = d.slotFor k.participants k.cond := by
    have hslot := placed.slot _ hm
    rwa [hfst] at hslot
  have hnode {q} (hq : q ∈ k.participants) : ∃ n m, c.at? q t = some n ∧
      (q, m) ∈ k.nodes (d.slotFor k.participants k.cond) ∧ n.Alike same m ∧ n.cond = k.cond := by
    rw [← hfst] at hq
    obtain ⟨⟨q, m⟩, hm, rfl⟩ := List.mem_map.mp hq
    obtain ⟨n, hn, alike⟩ := places _ _ hm
    exact ⟨n, m, hn, hm, alike, alike.cond.symm.trans (placed.conditioned _ hm)⟩
  have hearly {q} (hq : q ∈ k.participants) : d.slotFor k.participants k.cond ≤ 2 * t ∧
      (k.cond = none → d.slotFor k.participants k.cond < 2 * t) := by
    obtain ⟨n, -, hn, -⟩ := hnode hq
    exact h.slotFor_early wf unguarded before small hn
  exact
    { le := le_of_covers before
      lt := lt_of_covers before
      placed := by
        intro q s m
        rw [placed.at?_placeAll h.wellFormed room]
        exact or_congr_left (and_congr_right fun hm => hslot hm ▸ eq_comm)
      participant := fun hm => hfst ▸ List.mem_map_of_mem hm
      node := hnode
      behind := fun hq hm => Int.lt_of_le_of_lt (h.wellFormed.slice hm).2.2 (hfree _ hq)
      waits := fun hcond hm hmeasured =>
        Int.lt_of_le_of_lt (h.wellFormed.measured hm hmeasured).1 (hwait hcond)
      early := fun hq => (hearly hq).1
      early_unguarded := fun hq => (hearly hq).2 }

theorem step (small : 2 * c.lastSlice + 1 < Integer.bound) (valid : k.Valid c)
    (places : ∀ s, ∀ x ∈ k.nodes s, ∃ n, c.at? x.1 t = some n ∧ n.Alike same x.2) :
    ∃ slot' d', d.perform k = .ok d' ∧ Replayed same c (done ++ [(t, k)]) slot' d' := by
  obtain ⟨d', hd'⟩ := (perform_ok_iff d k).mpr (Valid.congr valid h.quantum h.classical)
  have l := h.lands wf unguarded before small hd' places
  have hlast := h.lastSlice_le wf
  have room : d.lastSlice + 1 < Integer.bound := by omega
  obtain ⟨hquantum, hclassical⟩ := perform_registers hd'
  obtain ⟨-, placed, hnodes⟩ := perform_nodes hd'
  exact ⟨slotAfter slot k t (d.slotFor k.participants k.cond), d', hd',
    { wellFormed := hnodes ▸ h.wellFormed.placeAll room placed
      bookkept := hnodes ▸ h.bookkept.placeAll h.wellFormed room placed
      quantum := hquantum.trans h.quantum
      classical := hclassical.trans h.classical
      kept := l.kept h
      only := l.only h
      ordered := l.ordered h
      waits := l.waited h
      early := l.slot_le h
      early_unguarded := l.slot_lt h }⟩

end
end Replayed

-- ---------------------------------------------------------------------------
-- The whole script
-- ---------------------------------------------------------------------------

theorem Script.replayed {same : Float → Float → Prop} {c d : Circuit} {calls : List (Int × BuildCall)}
    (script : Script same c calls) (wf : c.WellFormed) (small : 2 * c.lastSlice + 1 < Integer.bound)
    (unguarded : ∀ {q t n}, c.at? q t = some n → n.measurement = true → n.cond = none)
    (blank : d.Blank c.quantum c.classical) (bookkept : d.Bookkept) :
    ∃ d', calls.foldlM (fun d e => d.perform e.2) d = .ok d' ∧ ∃ slot, Replayed same c calls slot d' := by
  refine foldlM_succeeds (P := fun done d => ∃ slot, Replayed same c done slot d)
    ⟨_, Replayed.start blank bookkept⟩ ?_
  rintro done ⟨t, k⟩ rest d hsplit ⟨slot, h⟩
  have hmem : (t, k) ∈ calls := by simp [hsplit]
  have hordered := script.ordered
  rw [hsplit, List.pairwise_append] at hordered
  obtain ⟨slot', d', hd', h'⟩ := h.step wf unguarded (fun e he => hordered.2.2 e he _ List.mem_cons_self) small
    (script.valid _ hmem) (script.places _ hmem)
  exact ⟨d', hd', slot', h'⟩

theorem Script.repeats {same : Float → Float → Prop} {c d : Circuit} {calls : List (Int × BuildCall)}
    (script : Script same c calls) (wf : c.WellFormed) (small : 2 * c.lastSlice + 1 < Integer.bound)
    (unguarded : ∀ {q t n}, c.at? q t = some n → n.measurement = true → n.cond = none)
    (blank : d.Blank c.quantum c.classical) (bookkept : d.Bookkept) :
    ∃ d', calls.foldlM (fun d e => d.perform e.2) d = .ok d' ∧ ∃ slot, Repeats same c d' slot := by
  obtain ⟨d', hd', slot, h⟩ := script.replayed wf small unguarded blank bookkept
  refine ⟨d', hd', slot, h.quantum, h.classical, fun q => ?_, fun hn hcond hm hmeasured hlt =>
    h.waits (script.covers hn) (script.covers hm) hn hcond hm hmeasured hlt⟩
  refine Timeline.forall₂_entries (fun {t n} hn => ?_) (fun {s m} hm => ?_)
    fun hm hn hlt => h.ordered (script.covers hm) (script.covers hn) hlt
  · obtain ⟨n', m, hn', hm, alike⟩ := h.kept (script.covers hn)
    obtain rfl := Option.some.inj (hn.symm.trans hn')
    exact ⟨m, hm, alike⟩
  · obtain ⟨t, ht, hslot⟩ := h.only hm
    obtain ⟨n, -, hn, -⟩ := h.kept ht
    exact ⟨t, n, hn, hslot⟩

end Circuit
end Sequencer
