import Sequencer.Proofs.Schedule.Rescheduled
import Sequencer.Schedule.Basic

/-!
# Packed scheduling is a valid rescheduling

`packed_reschedules`: packed scheduling only delays nodes, keeps the order
along each qubit, keeps the nodes of an instance together, gives different
timeslices to different off-diagonal instances, and moves conditioned nodes
behind the measurements that were before them.

An instance gets its timeslice at the first of its nodes. Until the other
nodes are met their qubits are not delayed further, so `shifted` speaks of all
participants of a move and not of its own qubit only.
-/

namespace Sequencer

namespace PackedMemory
variable (m : PackedMemory) (q : String) (t : Int) (n : Node)

theorem le_delayFor : m.delay q ≤ m.delayFor q t n ∧
    (∀ p ∈ n.partners, m.delay p ≤ m.delayFor q t n) ∧
    (Gate.isOffDiagonal n.gate = true → m.offDiagonal + 1 - t ≤ m.delayFor q t n) ∧
    (n.isConditioned = true → m.measured + 1 - t ≤ m.delayFor q t n) := by
  simp only [delayFor]
  generalize hown : (if Gate.isOffDiagonal n.gate then max (m.delay q) (m.offDiagonal + 1 - t)
    else m.delay q) = own
  have hq : m.delay q ≤ own := by
    rw [← hown]
    split <;> omega
  have hoff : Gate.isOffDiagonal n.gate = true → m.offDiagonal + 1 - t ≤ own := by
    intro h
    rw [← hown, if_pos h]
    omega
  have hfold : n.partners.foldl (fun d p => max d (m.delay p)) own =
      (n.partners.map m.delay).foldl max own := by rw [List.foldl_map]
  have hle := le_foldl_max own (n.partners.map m.delay)
  have hpartners : ∀ p ∈ n.partners, m.delay p ≤ (n.partners.map m.delay).foldl max own :=
    fun p hp => le_foldl_max_of_mem (List.mem_map_of_mem hp)
  rw [hfold]
  generalize (n.partners.map m.delay).foldl max own = shared at *
  have hshared : shared ≤ (if n.isConditioned then max shared (m.measured + 1 - t) else shared) := by
    split <;> omega
  refine ⟨by omega, fun p hp => ?_, fun h => ?_, fun h => ?_⟩
  · have := hpartners p hp
    omega
  · have := hoff h
    omega
  · rw [if_pos h]
    omega

@[simp] theorem delay_moved (slot : Int) (p : String) :
    (packed.moved m q t slot).delay p = if q = p then slot - t else m.delay p := by
  simp only [packed, delay, Assoc.get?_insert]
  split <;> rfl

end PackedMemory

structure PackedSoFar (moves : List Move) (m : PackedMemory) : Prop where
  delay_nonneg : ∀ q, 0 ≤ m.delay q
  delay : ∀ a ∈ moves, a.slot - a.visit.1 ≤ m.delay a.visit.2.1
  offDiagonal : ∀ a ∈ moves, Gate.isOffDiagonal a.visit.2.2.gate = true → a.slot ≤ m.offDiagonal
  measured : ∀ a ∈ moves, a.visit.2.2.measurement = true → a.slot ≤ m.measured
  later : ∀ a ∈ moves, a.visit.1 ≤ a.slot
  shifted : ∀ a ∈ moves, ∀ d ∈ moves, d.visit.2.1 ∈ a.visit.participants →
    d.visit.1 < a.visit.1 → d.slot - d.visit.1 ≤ a.slot - a.visit.1
  exclusive : ∀ a ∈ moves, ∀ b ∈ moves, Gate.isOffDiagonal a.visit.2.2.gate = true →
    Gate.isOffDiagonal b.visit.2.2.gate = true → ¬ a.visit.SameInstance b.visit → a.slot ≠ b.slot
  waits : ∀ a ∈ moves, ∀ b ∈ moves, a.visit.2.2.isConditioned = true →
    b.visit.2.2.measurement = true → b.visit.1 < a.visit.1 → b.slot < a.slot

namespace PackedSoFar

theorem start : PackedSoFar [] packed.start where
  delay_nonneg q := by simp [packed, PackedMemory.delay, Assoc.get?, Assoc.find]
  delay := by simp
  offDiagonal := by simp
  measured := by simp
  later := by simp
  shifted := by simp
  exclusive := by simp
  waits := by simp

variable {moves : List Move} {m m' : PackedMemory} {v : Visit} {slot : Int}

/-- One more move keeps everything, if it waits for all that its node has to
wait for and the memory notes it. -/
theorem snoc (h : PackedSoFar moves m) (ahead : ∀ a ∈ moves, a.visit.Before v)
    (delays : m'.delays = m.delays) (later : v.1 ≤ slot)
    (shifted : ∀ d ∈ moves, d.visit.2.1 ∈ v.participants → d.visit.1 < v.1 →
      d.slot - d.visit.1 ≤ slot - v.1)
    (exclusive : ∀ a ∈ moves, Gate.isOffDiagonal a.visit.2.2.gate = true →
      Gate.isOffDiagonal v.2.2.gate = true → ¬ a.visit.SameInstance v → a.slot ≠ slot)
    (waits : ∀ b ∈ moves, v.2.2.isConditioned = true → b.visit.2.2.measurement = true →
      b.visit.1 < v.1 → b.slot < slot)
    (offDiagonal : m.offDiagonal ≤ m'.offDiagonal ∧
      (Gate.isOffDiagonal v.2.2.gate = true → slot ≤ m'.offDiagonal))
    (measured : m.measured ≤ m'.measured ∧ (v.2.2.measurement = true → slot ≤ m'.measured)) :
    PackedSoFar (moves ++ [⟨v, slot⟩]) (packed.moved m' v.2.1 v.1 slot) := by
  have hdelay (q : String) : m'.delay q = m.delay q := by simp only [PackedMemory.delay, delays]
  have notLater {a : Move} (ha : a ∈ moves) : ¬ v.1 < a.visit.1 := Int.not_lt.mpr (ahead a ha).le
  exact
    { delay_nonneg := by
        intro q
        rw [PackedMemory.delay_moved, hdelay]
        have := h.delay_nonneg q
        split_ifs <;> omega
      delay := by
        refine Move.forall_concat (fun a ha => ?_) ?_
        · -- The qubit was moved again: its new delay is at least the one it had.
          rw [PackedMemory.delay_moved, hdelay]
          split_ifs with hq
          · refine shifted a ha (hq ▸ List.mem_cons_self) ?_
            rcases ahead a ha with hlt | ⟨-, hne⟩
            · exact hlt
            · exact absurd hq.symm hne
          · exact h.delay a ha
        · refine Int.le_of_eq ?_
          rw [PackedMemory.delay_moved, if_pos rfl]
      offDiagonal := Move.forall_concat (fun a ha hoff => Int.le_trans (h.offDiagonal a ha hoff) offDiagonal.1)
        offDiagonal.2
      measured := Move.forall_concat (fun a ha hm => Int.le_trans (h.measured a ha hm) measured.1) measured.2
      later := Move.forall_concat h.later later
      shifted := Move.forall_concat
        (fun a ha => Move.forall_concat (h.shifted a ha) fun _ hlt => absurd hlt (notLater ha))
        (Move.forall_concat shifted fun _ hlt => absurd hlt (Int.lt_irrefl _))
      exclusive := Move.forall_concat
        (fun a ha => Move.forall_concat (h.exclusive a ha) (exclusive a ha))
        (Move.forall_concat
          (fun b hb hoffv hoffb hne heq => exclusive b hb hoffb hoffv (fun hs => hne hs.symm) heq.symm)
          fun _ _ hne => absurd ⟨rfl, .refl _⟩ hne)
      waits := Move.forall_concat
        (fun a ha => Move.forall_concat (h.waits a ha) fun _ _ hlt => absurd hlt (notLater ha))
        (Move.forall_concat waits fun _ _ hlt => absurd hlt (Int.lt_irrefl _)) }

/-- A node that follows its instance waits long enough, because the instance
did so on behalf of all its participants. -/
theorem follow {c : Circuit} (wf : c.WellFormed) (h : PackedSoFar moves m) {first : Move}
    (hvisit : first.visit ∈ c.visits) (hv : v ∈ c.visits) (ahead : ∀ a ∈ moves, a.visit.Before v)
    (hfirst : first ∈ moves) (hsame : first.visit.SameInstance v) :
    PackedSoFar (moves ++ [⟨v, first.slot⟩]) (packed.moved m v.2.1 v.1 first.slot) := by
  have hop := wf.sameOperation hvisit hv hsame
  have ht := hsame.1
  have unmeasured : v.2.2.measurement = false := by
    refine Bool.eq_false_iff.mpr fun hm => ?_
    have hfm : first.visit.2.2.measurement = true := hop.measurement ▸ hm
    have hmulti := hsame.isMultiQubit (ahead first hfirst)
    simp [Node.isMultiQubit, (wf.measured (wf.mem_visits.mp hvisit) hfm).2.1] at hmulti
  have hcond : v.2.2.isConditioned = first.visit.2.2.isConditioned := by
    simp only [Node.isConditioned, hop.cond]
  refine h.snoc ahead rfl ?_ ?_ ?_ ?_ ⟨Int.le_refl _, fun hoff => ?_⟩ ⟨Int.le_refl _, fun hm => ?_⟩
  · have := h.later first hfirst
    omega
  · intro d hd hmem hlt
    have := h.shifted first hfirst d hd (hsame.2.mem_iff.mpr hmem) (by omega)
    omega
  · intro a ha hoffa hoffv hne
    exact h.exclusive a ha first hfirst hoffa (hop.gate ▸ hoffv)
      fun hs => hne (hs.trans hsame)
  · intro b hb hc hm hlt
    exact h.waits first hfirst b hb (hcond ▸ hc) hm (by omega)
  · exact h.offDiagonal first hfirst (hop.gate ▸ hoff)
  · simp [unmeasured] at hm

theorem choose (h : PackedSoFar moves m) (ahead : ∀ a ∈ moves, a.visit.Before v)
    (hchoose : packed.choose m v.2.1 v.1 v.2.2 = (slot, m')) :
    PackedSoFar (moves ++ [⟨v, slot⟩]) (packed.moved m' v.2.1 v.1 slot) := by
  obtain ⟨hown, hpartners, hoff, hcond⟩ := m.le_delayFor v.2.1 v.1 v.2.2
  simp only [packed, Prod.mk.injEq] at hchoose
  obtain ⟨hslot, rfl⟩ := hchoose
  generalize m.delayFor v.2.1 v.1 v.2.2 = delay at *
  subst hslot
  have hnonneg := h.delay_nonneg v.2.1
  refine h.snoc ahead rfl (by omega) ?_ ?_ ?_ ⟨?_, fun hg => ?_⟩ ⟨?_, fun hm => ?_⟩
  · intro d hd hmem _
    have hd' := h.delay d hd
    rcases List.mem_cons.mp hmem with heq | hmem
    · rw [heq] at hd'
      omega
    · have := hpartners _ hmem
      omega
  · intro a ha hoffa hoffv _
    have := h.offDiagonal a ha hoffa
    have := hoff hoffv
    omega
  · intro b hb hc hm _
    have := h.measured b hb hm
    have := hcond hc
    omega
  · dsimp only
    split_ifs <;> omega
  · simp only [hg, ↓reduceIte]
    omega
  · dsimp only
    split_ifs <;> omega
  · simp only [hm, ↓reduceIte]
    omega

theorem of_moves {c : Circuit} (wf : c.WellFormed) (run : packed.Moves c moves m) :
    PackedSoFar moves m := by
  induction run with
  | start => exact start
  | follow run hv ahead hfirst hsame ih =>
    exact ih.follow wf (run.mem_visits hfirst) hv ahead hfirst hsame
  | choose _ _ ahead _ hchoose ih => exact ih.choose ahead hchoose

theorem ordered (h : PackedSoFar moves m) : ∀ a ∈ moves, ∀ b ∈ moves,
    a.visit.2.1 = b.visit.2.1 → a.visit.1 < b.visit.1 → a.slot < b.slot := by
  intro a ha b hb hq hlt
  have := h.shifted b hb a ha (hq ▸ List.mem_cons_self) hlt
  omega

/-- Nodes are only delayed, so none leaves the timeslices of the circuit. -/
theorem one_le {c : Circuit} (h : PackedSoFar moves m) (wf : c.WellFormed) (run : packed.Moves c moves m) :
    ∀ a ∈ moves, 1 ≤ a.slot := by
  intro a ha
  have hslice := (wf.slice (wf.mem_visits.mp (run.mem_visits ha))).2.1
  have hlater := h.later a ha
  omega

end PackedSoFar

/-- The circuit `d` is `c` with its nodes moved to the timeslices `slot`: none
earlier than before, no two off-diagonal instances together, and the counters
of `d` the largest of the new timeslices. -/
structure Circuit.PackedAs (c d : Circuit) (slot : String → Int → Int) : Prop
    extends c.Rescheduled d slot where
  later : ∀ {q t n}, c.at? q t = some n → t ≤ slot q t
  exclusive : ∀ {q t n p s m}, c.at? q t = some n → c.at? p s = some m →
    Gate.isOffDiagonal n.gate = true → Gate.isOffDiagonal m.gate = true →
    ¬ (s = t ∧ p ∈ q :: n.partners) → slot p s ≠ slot q t
  lastSlice : Largest d.lastSlice fun x => ∃ q t n, c.at? q t = some n ∧ slot q t = x
  lastMeasured : Largest d.lastMeasured fun x =>
    ∃ q t n, c.at? q t = some n ∧ n.measurement = true ∧ slot q t = x

/-- Packed scheduling of a circuit under construction succeeds and is a valid
rescheduling. -/
theorem packed_reschedules (k : Construction) (comma : k.circuit.CommaFree) :
    ∃ d slot, k.circuit.schedule ⟨true, Mode.packed.code⟩ = .ok d ∧ k.circuit.PackedAs d slot := by
  have wf := k.wellFormed
  obtain ⟨moves, memory, run, hvisits, hd⟩ := wf.reschedule_moves comma packed
  have inv := PackedSoFar.of_moves wf run
  have hpos := inv.one_le wf run
  have hbase := wf.rescheduled hvisits run inv.ordered inv.waits
  refine ⟨_, slotIn moves, hd,
    { hbase with
      later := ?_
      exclusive := ?_
      lastSlice := wf.largest_lastSlice hvisits hpos
      lastMeasured := wf.largest_lastMeasured hvisits hpos }⟩
  · intro q t n hn
    obtain ⟨a, ha, hav, has⟩ := wf.exists_move hvisits hn
    have := inv.later a ha
    rwa [has, hav] at this
  · intro q t n p s m hn hm hoffn hoffm hne
    obtain ⟨a, ha, hav, has⟩ := wf.exists_move hvisits hn
    obtain ⟨b, hb, hbv, hbs⟩ := wf.exists_move hvisits hm
    rw [← has, ← hbs]
    refine inv.exclusive b hb a ha (by rw [hbv]; exact hoffm) (by rw [hav]; exact hoffn) ?_
    rw [hav, hbv]
    rintro ⟨hts, hperm⟩
    exact hne ⟨hts, hperm.mem_iff.mp List.mem_cons_self⟩

theorem packed_reschedules_teleportation :
    ∃ d slot, Construction.teleportation.circuit.schedule ⟨true, Mode.packed.code⟩ = .ok d ∧
      Construction.teleportation.circuit.PackedAs d slot :=
  packed_reschedules .teleportation (by decide +kernel)

end Sequencer
