import Sequencer.Inspector.Basic
import Sequencer.Proofs.Instruction.Reading

/-!
# Streams one behind the other

What is read of a stream depends on the words before it only through the
operations that still wait for trailing words and the number of timeslices that
have ended. A stream that is read to its end leaves nothing waiting, so the
next one is read as it would be on its own, with higher timeslices. The
inspector, which reads a program timeslice by timeslice, therefore shows what
the whole stream is read as.
-/

namespace Sequencer

-- ---------------------------------------------------------------------------
-- The number of a word
-- ---------------------------------------------------------------------------

namespace HeaderWord
variable (y : Layout) (w : Word) (m n : Nat)

theorem readSingle_number (l : Lane) (pos : Nat) :
    Outcomes Eq ((mk m w).readSingle y l pos) ((mk n w).readSingle y l pos) := by
  refine (Outcomes.refl ((mk m w).read pos y.qubitBits)).bind ?_
  rintro ⟨q, pos⟩ _ rfl
  refine (Outcomes.refl ((mk m w).read pos Layout.selectorBits)).bind ?_
  rintro ⟨selector, pos⟩ _ rfl
  dsimp only
  cases Primitive.ofSelector? selector with
  | none => exact .error
  | some p => exact .refl _

theorem readControlled_number (l : Lane) (pos : Nat) :
    Outcomes Eq ((mk m w).readControlled y l pos) ((mk n w).readControlled y l pos) := by
  refine (Outcomes.refl ((mk m w).readControls y l pos)).bind ?_
  rintro ⟨controls, pos⟩ _ rfl
  refine (Outcomes.refl ((mk m w).read pos y.qubitBits)).bind ?_
  rintro ⟨q, pos⟩ _ rfl
  refine (Outcomes.refl ((mk m w).read pos Layout.selectorBits)).bind ?_
  rintro ⟨selector, pos⟩ _ rfl
  dsimp only
  cases Primitive.ofSelector? selector with
  | none => exact .error
  | some p => exact .refl _

theorem readGroup_number (l : Lane) (pos : Nat) :
    Outcomes Eq ((mk m w).readGroup y l pos) ((mk n w).readGroup y l pos) := by
  cases l with
  | single | singleBit | singleRange => exact readSingle_number y w m n _ pos
  | decoherence | reset => exact .refl _
  | _ => exact readControlled_number y w m n _ pos

theorem readGroups_number {read read' : Nat → Except DecodeError (StreamOperation × Nat)}
    (h : ∀ pos, Outcomes Eq (read pos) (read' pos)) (start : Nat) (width : Int) (fuel pos : Nat) :
    Outcomes Eq (readGroups read (mk m w) start width fuel pos)
      (readGroups read' (mk n w) start width fuel pos) := by
  induction fuel generalizing pos with
  | zero => exact .ok rfl
  | succ fuel ih =>
    have hsame : (mk m w).hasMore start width pos = (mk n w).hasMore start width pos := rfl
    rw [readGroups, readGroups, hsame]
    by_cases hmore : (mk n w).hasMore start width pos
    · rw [if_pos hmore, if_pos hmore]
      refine (h pos).bind ?_
      rintro ⟨o, pos⟩ _ rfl
      refine (ih pos).bind ?_
      rintro rest _ rfl
      exact .refl _
    · rw [if_neg hmore, if_neg hmore]
      exact .ok rfl

theorem operations_number : Outcomes Eq ((mk m w).operations y) ((mk n w).operations y) := by
  unfold operations
  split
  · exact readGroups_number w m n (fun pos => .refl _) ..
  · cases Lane.ofWord? w with
    | none => exact .error
    | some l => exact readGroups_number w m n (readGroup_number y w m n l) ..

end HeaderWord

-- ---------------------------------------------------------------------------
-- Operations of later timeslices
-- ---------------------------------------------------------------------------

theorem trailingCount_later (n : Nat) (ops : List StreamOperation) :
    trailingCount (ops.map (Operation.later n)) = trailingCount ops :=
  trailingCount_map (Operation.later n) (fun _ => rfl) (fun _ => rfl) ops

theorem attach_later (n : Nat) (ops : List StreamOperation) (ws : List Word) :
    attach (ops.map (Operation.later n)) ws = (attach ops ws).map (Operation.later n) :=
  attach_map (Operation.later n) (fun _ => rfl) (fun _ => rfl) (fun _ _ => rfl) (fun _ _ => rfl) ops ws

/-- Trailing words add angles and probabilities, and leave the rest as it is. -/
theorem map_attach (f : StreamOperation → α) (angle : ∀ o a, f { o with angle := a } = f o)
    (probability : ∀ o p, f { o with probability := p } = f o) (ops : List StreamOperation) (ws : List Word) :
    (attach ops ws).map f = ops.map f := by
  have hangles : (attachAngles ops ws).map f = ops.map f := by
    fun_induction attachAngles ops ws with
    | case1 ws => rfl
    | case2 o rest => rfl
    | case3 o rest w ws hangle ih => simp [ih, angle]
    | case4 o rest w ws hplain ih => simp [ih]
  have hprobabilities : (attachProbabilities ops ws).map f = ops.map f := by
    clear hangles
    fun_induction attachProbabilities ops ws with
    | case1 o p rest w ws ih => simp [ih, probability]
    | case2 o w ws => simp [probability]
    | case3 ops ws => rfl
  rw [attach]
  split
  · exact hprobabilities
  · exact hangles

theorem map_slice_attach (ops : List StreamOperation) (ws : List Word) :
    (attach ops ws).map Operation.slice = ops.map Operation.slice :=
  map_attach Operation.slice (fun _ _ => rfl) (fun _ _ => rfl) ops ws

def Pending.later (n : Nat) (p : Pending) : Pending := { p with ops := p.ops.map (Operation.later n) }

namespace DecodeState
variable {y : Layout} {s a b : DecodeState}

theorem takeTrailing_last {p : Pending} (h : p.missing ≤ 1) (w : Word) :
    s.takeTrailing p w =
      { s with read := s.read + 1, done := s.done ++ attach p.ops (w :: p.newest).reverse, pending := none } :=
  if_pos h

theorem takeTrailing_more {p : Pending} (h : ¬ p.missing ≤ 1) (w : Word) :
    s.takeTrailing p w =
      { s with read := s.read + 1, pending := some ⟨p.ops, p.missing - 1, w :: p.newest⟩ } :=
  if_neg h

/-- `b` has read behind `s` what `a` has read from the start. -/
structure Behind (s a b : DecodeState) : Prop where
  slice : b.slice = a.slice + s.slice
  done : b.done = s.done ++ a.done.map (Operation.later s.slice)
  pending : b.pending = a.pending.map (Pending.later s.slice)

theorem Behind.start (hs : s.pending = none) : Behind s {} s :=
  ⟨(Nat.zero_add _).symm, (List.append_nil _).symm, hs⟩

theorem Behind.step (h : Behind s a b) (w : Word) :
    Outcomes (Behind s) (DecodeState.step y a w) (DecodeState.step y b w) := by
  obtain ⟨hslice, hdone, hpending⟩ := h
  cases ha : a.pending with
  | some p =>
    rw [ha] at hpending
    simp only [DecodeState.step, ha, hpending, Option.map_some]
    refine .ok ?_
    by_cases hlast : p.missing ≤ 1
    · rw [takeTrailing_last hlast, takeTrailing_last (p := p.later _) hlast]
      exact ⟨hslice, by simp [hdone, Pending.later, attach_later], rfl⟩
    · rw [takeTrailing_more hlast, takeTrailing_more (p := p.later _) hlast]
      exact ⟨hslice, hdone, rfl⟩
  | none =>
    rw [ha] at hpending
    simp only [DecodeState.step, ha, hpending, Option.map_none]
    refine (HeaderWord.operations_number y w a.read b.read).bind ?_
    rintro ops _ rfl
    have hops : (ops.map fun o => { o with slice := b.slice, last := w.isLast }) =
        (ops.map fun o => { o with slice := a.slice, last := w.isLast }).map (Operation.later s.slice) := by
      rw [List.map_map, hslice]
      rfl
    simp only [hops, trailingCount_later]
    split
    · exact .ok ⟨by simp only [hslice]; omega, by simp [hdone], by simp [ha, hpending]⟩
    · exact .ok ⟨by simp only [hslice]; omega, hdone, rfl⟩

theorem Behind.foldlM (h : Behind s a b) (ws : List Word) :
    Outcomes (Behind s) (ws.foldlM (DecodeState.step y) a) (ws.foldlM (DecodeState.step y) b) :=
  Outcomes.foldlM h fun _ _ w h' => h'.step w

theorem Behind.finish (h : Behind s a b) :
    Outcomes (fun ops more => more = s.done ++ ops.map (Operation.later s.slice)) a.finish b.finish := by
  obtain ⟨-, hdone, hpending⟩ := h
  cases ha : a.pending with
  | none =>
    simp only [DecodeState.finish, ha, hpending, Option.map_none]
    exact .ok hdone
  | some p =>
    simp only [DecodeState.finish, ha, hpending, Option.map_some]
    split <;> split <;> exact .error

end DecodeState

-- ---------------------------------------------------------------------------
-- Header words of a stream
-- ---------------------------------------------------------------------------

def trailingAfter (y : Layout) (w : Word) : Nat :=
  (((HeaderWord.mk 0 w).operations y).toOption.map trailingCount).getD 0

/-- The header words of a stream that starts with so many trailing words. -/
def headersFrom (y : Layout) : Nat → List Word → List Word
  | _, [] => []
  | 0, w :: rest => w :: headersFrom y (trailingAfter y w) rest
  | n + 1, _ :: rest => headersFrom y n rest

def headerWords (y : Layout) (ws : List Word) : List Word := headersFrom y 0 ws

def endFlags (y : Layout) (ws : List Word) : Nat := (headerWords y ws).countP Word.isLast

namespace DecodeState
variable {y : Layout} {s s' : DecodeState}

def missing (s : DecodeState) : Nat := (s.pending.map Pending.missing).getD 0

def operations (s : DecodeState) : List StreamOperation :=
  s.done ++ (s.pending.map Pending.ops).getD []

structure HasRead (y : Layout) (ws headers : List Word) (s : DecodeState) : Prop where
  rest : ∀ more, headerWords y (ws ++ more) = headers ++ headersFrom y s.missing more
  slice : s.slice = headers.countP Word.isLast
  /-- An operation lies in the timeslice that its header word belongs to. -/
  ops : ∀ o ∈ s.operations, o.slice ≤ headers.dropLast.countP Word.isLast
  pending : ∀ p, s.pending = some p → 0 < p.missing

theorem hasRead_nil (y : Layout) : HasRead y [] [] {} where
  rest _ := rfl
  slice := rfl
  ops o ho := by simp [operations] at ho
  pending p hp := by cases hp

theorem HasRead.takeTrailing {ws headers : List Word} (h : HasRead y ws headers s) {p : Pending}
    (hs : s.pending = some p) (w : Word) : HasRead y (ws ++ [w]) headers (s.takeTrailing p w) := by
  have hmissing : s.missing = (p.missing - 1) + 1 := by
    have := h.pending p hs
    simp only [missing, hs, Option.map_some, Option.getD_some]
    omega
  have hheaders (more : List Word) :
      headerWords y (ws ++ [w] ++ more) = headers ++ headersFrom y (p.missing - 1) more := by
    rw [List.append_assoc, h.rest, hmissing]
    rfl
  have hops := h.ops
  simp only [operations, hs, Option.map_some, Option.getD_some, List.forall_mem_append] at hops
  by_cases hlast : p.missing ≤ 1
  · rw [takeTrailing_last hlast]
    refine ⟨fun more => ?_, h.slice, ?_, nofun⟩
    · rw [hheaders, Nat.sub_eq_zero_of_le hlast]
      rfl
    · simp only [operations, Option.map_none, Option.getD_none, List.append_nil, List.forall_mem_append]
      refine ⟨hops.1, fun o ho => ?_⟩
      have hslice := List.mem_map_of_mem (f := Operation.slice) ho
      rw [map_slice_attach] at hslice
      obtain ⟨o', ho', heq⟩ := List.mem_map.mp hslice
      exact heq ▸ hops.2 o' ho'
  · rw [takeTrailing_more hlast]
    refine ⟨hheaders, h.slice, List.forall_mem_append.mpr hops, ?_⟩
    rintro _ ⟨⟩
    exact Nat.sub_pos_of_lt (Nat.lt_of_not_le hlast)

theorem HasRead.takeHeader {ws headers : List Word} (h : HasRead y ws headers s)
    (hs : s.pending = none) {w : Word} (hw : s.takeHeader y w = .ok s') :
    HasRead y (ws ++ [w]) (headers ++ [w]) s' := by
  obtain ⟨ops, hops, hw⟩ := bind_eq_ok.mp hw
  have hcount : trailingCount (ops.map fun o => { o with slice := s.slice, last := w.isLast }) =
      trailingAfter y w := by
    have hsame := HeaderWord.operations_number y w s.read 0
    rw [hops] at hsame
    obtain ⟨_, hzero, rfl⟩ := hsame.exists_ok
    rw [trailingAfter, hzero]
    exact trailingCount_map (Operation.placed s.slice w.isLast) (fun _ => rfl) (fun _ => rfl) ops
  have hrest (more : List Word) : headerWords y (ws ++ [w] ++ more) =
      headers ++ [w] ++ headersFrom y (trailingAfter y w) more := by
    rw [List.append_assoc, h.rest, missing, hs, List.append_assoc]
    rfl
  have hslice : s.slice + w.isLast.toNat = (headers ++ [w]).countP Word.isLast := by
    rw [List.countP_append, ← h.slice, List.countP_singleton]
    cases w.isLast <;> rfl
  have hdone : ∀ o ∈ s.done, o.slice ≤ (headers ++ [w]).dropLast.countP Word.isLast := by
    intro o ho
    rw [List.dropLast_concat]
    exact Nat.le_trans (h.ops o (List.mem_append_left _ ho)) (List.dropLast_sublist headers).countP_le
  have hnew : ∀ o ∈ ops.map fun o => { o with slice := s.slice, last := w.isLast },
      o.slice ≤ (headers ++ [w]).dropLast.countP Word.isLast := by
    refine List.forall_mem_map.mpr fun o _ => ?_
    rw [List.dropLast_concat]
    exact Nat.le_of_eq h.slice
  simp only [hcount] at hw
  by_cases hzero : trailingAfter y w = 0
  · rw [if_pos hzero] at hw
    obtain rfl := pure_eq_ok.mp hw
    refine ⟨?_, hslice, ?_, ?_⟩
    · simpa [missing, hs, hzero] using hrest
    · simpa [operations, hs] using List.forall_mem_append.mpr ⟨hdone, hnew⟩
    · exact h.pending
  · rw [if_neg hzero] at hw
    obtain rfl := pure_eq_ok.mp hw
    refine ⟨hrest, hslice, List.forall_mem_append.mpr ⟨hdone, hnew⟩, ?_⟩
    rintro _ ⟨⟩
    exact Nat.pos_of_ne_zero hzero

theorem HasRead.step {ws headers : List Word} (h : HasRead y ws headers s) {w : Word}
    (hw : DecodeState.step y s w = .ok s') : ∃ headers', HasRead y (ws ++ [w]) headers' s' := by
  cases hs : s.pending with
  | some p =>
    simp only [DecodeState.step, hs] at hw
    exact ⟨headers, Except.ok.inj hw ▸ h.takeTrailing hs w⟩
  | none =>
    simp only [DecodeState.step, hs] at hw
    exact ⟨headers ++ [w], h.takeHeader hs hw⟩

theorem hasRead_of_foldlM {ws : List Word} (h : ws.foldlM (DecodeState.step y) {} = .ok s) :
    HasRead y ws (headerWords y ws) s := by
  have hread : ∃ headers, HasRead y ws headers s := by
    refine foldlM_keeps (P := fun ws s => ∃ headers, HasRead y ws headers s) ⟨[], hasRead_nil y⟩ ?_ h
    rintro done w rest s s' - ⟨headers, hs⟩ hw
    exact hs.step hw
  obtain ⟨headers, hs⟩ := hread
  have heq := hs.rest []
  rw [List.append_nil, show headersFrom y s.missing [] = [] by cases s.missing <;> rfl, List.append_nil] at heq
  rwa [heq]

end DecodeState

-- ---------------------------------------------------------------------------
-- Streams
-- ---------------------------------------------------------------------------

section
variable {a : List Word} {n : Int} {ops : List StreamOperation}

theorem exists_of_decode (h : decode a n = .ok ops) :
    ∃ s, a.foldlM (DecodeState.step (.ofCount n)) {} = .ok s ∧ s.pending = none ∧ s.done = ops ∧
      DecodeState.HasRead (.ofCount n) a (headerWords (.ofCount n) a) s := by
  obtain ⟨s, hs, hfinish⟩ := bind_eq_ok.mp h
  refine ⟨s, hs, ?_⟩
  cases hpending : s.pending with
  | none =>
    simp only [DecodeState.finish, hpending] at hfinish
    exact ⟨rfl, Except.ok.inj hfinish, DecodeState.hasRead_of_foldlM hs⟩
  | some p =>
    simp only [DecodeState.finish, hpending] at hfinish
    split at hfinish <;> cases hfinish

/-- Behind words that leave nothing waiting, a stream decodes as it does alone
but for the timeslices, or fails as it does alone. -/
theorem decode_after {s : DecodeState} (h : a.foldlM (DecodeState.step (.ofCount n)) {} = .ok s)
    (hs : s.pending = none) (b : List Word) :
    Outcomes (fun more all => all = s.done ++ more.map (Operation.later s.slice)) (decode b n) (decode (a ++ b) n) := by
  have hb : decode (a ++ b) n = b.foldlM (DecodeState.step (.ofCount n)) s >>= DecodeState.finish := by
    simp only [decode, List.foldlM_append, h]
    rfl
  rw [hb]
  exact ((DecodeState.Behind.start hs).foldlM b).bind fun _ _ hstate => hstate.finish

theorem decode_behind (h : decode a n = .ok ops) (b : List Word) :
    Outcomes (fun more all => all = ops ++ more.map (Operation.later (endFlags (.ofCount n) a)))
      (decode b n) (decode (a ++ b) n) := by
  obtain ⟨s, hs, hpending, rfl, hread⟩ := exists_of_decode h
  rw [endFlags, ← hread.slice]
  exact decode_after hs hpending b

theorem decode_after_reads {m : Nat} (h : Reads (.ofCount n) a m ops) (b : List Word) :
    Outcomes (fun more all => all = ops ++ more.map (Operation.later m)) (decode b n) (decode (a ++ b) n) := by
  have hafter := decode_after (h {} rfl) rfl b
  simpa [show Operation.later 0 = id from rfl] using hafter

theorem slice_eq_zero_of_decode (h : decode a n = .ok ops) (hone : endFlags (.ofCount n) a = 1)
    (hlast : ∀ w ∈ (headerWords (.ofCount n) a).getLast?, w.isLast = true) :
    ∀ o ∈ ops, o.slice = 0 := by
  obtain ⟨s, -, -, rfl, hread⟩ := exists_of_decode h
  have hbefore : (headerWords (.ofCount n) a).dropLast.countP Word.isLast = 0 := by
    rw [endFlags] at hone
    rcases List.eq_nil_or_concat (headerWords (.ofCount n) a) with hnil | ⟨init, w, hinit⟩
    · simp [hnil] at hone
    · rw [hinit, List.concat_eq_append] at hone hlast ⊢
      have hw := hlast w (by simp)
      rw [List.countP_append, List.countP_singleton, if_pos hw] at hone
      rw [List.dropLast_concat]
      omega
  intro o ho
  have := hread.ops o (List.mem_append_left _ ho)
  omega

end

-- ---------------------------------------------------------------------------
-- Programs
-- ---------------------------------------------------------------------------

section
variable {ops : ProgramSlice → List StreamOperation}

theorem decode_flatMap {n : Int} {slices : List ProgramSlice}
    (hops : ∀ s ∈ slices, decode s.words n = .ok (ops s))
    (hone : ∀ s ∈ slices, endFlags (.ofCount n) s.words = 1) :
    decode (slices.flatMap ProgramSlice.words) n =
      .ok (slices.zipIdx.flatMap fun e => (ops e.1).map (Operation.later e.2)) := by
  induction slices with
  | nil => rfl
  | cons s rest ih =>
    have ih := ih (fun r hr => hops r (List.mem_cons_of_mem _ hr)) fun r hr => hone r (List.mem_cons_of_mem _ hr)
    have hbehind := decode_behind (hops s List.mem_cons_self) (rest.flatMap ProgramSlice.words)
    rw [ih, hone s List.mem_cons_self] at hbehind
    obtain ⟨whole, hwhole, rfl⟩ := hbehind.exists_ok
    have hlater : (fun e : ProgramSlice × Nat => ((ops e.1).map (Operation.later e.2)).map (Operation.later 1)) =
        fun e => (ops e.1).map (Operation.later (e.2 + 1)) := by
      funext e
      rw [List.map_map]
      rfl
    rw [List.flatMap_cons, hwhole, List.zipIdx_cons', List.flatMap_cons, List.map_flatMap, List.flatMap_map, hlater]
    congr 2
    exact (List.map_id _).symm

theorem Inspector.ofProgram_slices {p : InstructionProgram}
    (hops : ∀ s ∈ p.slices, decode s.words p.qubits = .ok (ops s)) (c : Circuit) :
    (∃ i, Inspector.ofProgram c p = .ok i ∧ i.slices = p.slices.map fun s => ⟨s.index, s.words, ops s⟩) ∨
      ∃ t f, Inspector.circuitText c t = .error f := by
  let i : Inspector :=
    { circuit := c, qubits := p.qubits, qubitBits := p.qubitBits,
      slices := p.slices.map fun s => ⟨s.index, s.words, ops s⟩ }
  have hprogram : Inspector.ofProgram c p = i.refreshed.mapError .fault := by
    rw [Inspector.ofProgram, mapM_eq_map (g := fun s => ⟨s.index, s.words, ops s⟩)]
    · rfl
    · intro s hs
      rw [hops s hs]
  cases htext : Inspector.circuitText c i.timeslice with
  | error f => exact .inr ⟨_, f, htext⟩
  | ok text =>
    left
    rw [hprogram, Inspector.refreshed, htext]
    exact ⟨_, rfl, rfl⟩

end

/-- Decoding is compositional, and so the inspector and the whole stream agree. -/
theorem decode_concatenated {n : Int} :
    (∀ {a b : List Word} {ops more : List StreamOperation}, decode a n = .ok ops → decode b n = .ok more →
      decode (a ++ b) n = .ok (ops ++ more.map (Operation.later (endFlags (.ofCount n) a)))) ∧
    (∀ {a b : List Word} {ops : List StreamOperation} {e : DecodeError}, decode a n = .ok ops →
      decode b n = .error e → ∃ e', decode (a ++ b) n = .error e') ∧
    ∀ {p : InstructionProgram} {ops : ProgramSlice → List StreamOperation},
      (∀ s ∈ p.slices, decode s.words p.qubits = .ok (ops s)) →
      (∀ s ∈ p.slices, endFlags (.ofCount p.qubits) s.words = 1) →
      (∀ c, (∃ i, Inspector.ofProgram c p = .ok i ∧
          i.slices = p.slices.map fun s => ⟨s.index, s.words, ops s⟩) ∨
        ∃ t f, Inspector.circuitText c t = .error f) ∧
      decode p.words p.qubits = .ok (p.slices.zipIdx.flatMap fun e => (ops e.1).map (Operation.later e.2)) ∧
      ((∀ s ∈ p.slices, ∀ w ∈ (headerWords (.ofCount p.qubits) s.words).getLast?, w.isLast = true) →
        decode p.words p.qubits =
          .ok (p.slices.zipIdx.flatMap fun e => (ops e.1).map fun o => { o with slice := e.2 })) := by
  refine ⟨fun {a b _ _} ha hb => ?_, fun {a b _ _} ha hb => ?_, fun {p ops} hops hone =>
    ⟨Inspector.ofProgram_slices hops, decode_flatMap hops hone, fun hlast => ?_⟩⟩
  · have hbehind := decode_behind ha b
    rw [hb] at hbehind
    obtain ⟨_, hwhole, rfl⟩ := hbehind.exists_ok
    exact hwhole
  · have hbehind := decode_behind ha b
    rw [hb] at hbehind
    exact hbehind.exists_error
  · refine (decode_flatMap hops hone).trans (congrArg _ (List.flatMap_congr fun e he => ?_))
    refine List.map_congr_left fun o ho => ?_
    have hs : e.1 ∈ p.slices := List.fst_mem_of_mem_zipIdx he
    have hzero := slice_eq_zero_of_decode (hops _ hs) (hone _ hs) (hlast _ hs) o ho
    rw [Operation.later, hzero, Nat.zero_add]

/-- A rotation, whose angle has the bit of the end flag set, a controlled gate
beside another one, and two decoherences. -/
def rotated : InstructionProgram :=
  ⟨3, 2, [⟨1, [0x81d4ffffffffffff, 0xe55dd9a93a31edd5]⟩, ⟨2, [0x047fffffffffffff, 0x910fffffffffffff]⟩,
    ⟨3, [0xc37fffffffffffff, 0x1000000010000000]⟩]⟩

theorem decode_concatenated_rotated :
    ∃ ops : ProgramSlice → List StreamOperation,
      (∀ s ∈ rotated.slices, decode s.words 3 = .ok (ops s) ∧ endFlags (.ofCount 3) s.words = 1) ∧
      decode rotated.words 3 =
        .ok (rotated.slices.zipIdx.flatMap fun e => (ops e.1).map fun o => { o with slice := e.2 }) ∧
      ∃ e, decode (rotated.words ++ [0x81d4ffffffffffff]) 3 = .error e := by
  have hone : ∀ s ∈ rotated.slices, endFlags (.ofCount 3) s.words = 1 := by decide +kernel
  have hlast : ∀ s ∈ rotated.slices, ∀ w ∈ (headerWords (.ofCount 3) s.words).getLast?, w.isLast = true := by
    have hall : ∀ s ∈ rotated.slices, (headerWords (.ofCount 3) s.words).getLast?.all Word.isLast = true := by
      decide +kernel
    intro s hs
    exact (Option.all_eq_true _ _).mp (hall s hs)
  have hok : ∀ s ∈ rotated.slices, ∃ ops, decode s.words 3 = .ok ops := by
    have hsome : ∀ s ∈ rotated.slices, (decode s.words 3).toOption.isSome = true := by decide +kernel
    exact fun s hs => isSome_toOption.mp (hsome s hs)
  choose! ops hops using hok
  -- a rotation without its angle fails alone and behind the others
  have hshort : decode [0x81d4ffffffffffff] 3 = .error (.missingAngle 1) := by rfl
  obtain ⟨-, hfails, hprogram⟩ := decode_concatenated (n := 3)
  have hwhole := (hprogram hops hone).2.2 hlast
  exact ⟨ops, fun s hs => ⟨hops s hs, hone s hs⟩, hwhole, hfails hwhole hshort⟩

/-- The end flag stands in front of another header word. -/
def endedEarly : InstructionProgram := ⟨3, 2, [⟨1, [0x910fffffffffffff, 0x047fffffffffffff]⟩]⟩

/-- A slice with one end flag need not have one number: what stands behind the
flag is read as the next timeslice, however the slices are numbered. -/
theorem not_numbered_by_slice :
    ∃ ops : ProgramSlice → List StreamOperation,
      (∀ s ∈ endedEarly.slices, decode s.words 3 = .ok (ops s) ∧ endFlags (.ofCount 3) s.words = 1) ∧
      ∀ number : Nat → Nat, decode endedEarly.words 3 ≠
        .ok (endedEarly.slices.zipIdx.flatMap fun e => (ops e.1).map fun o => { o with slice := number e.2 }) := by
  have hslices : (decode endedEarly.words 3).toOption.map (List.map Operation.slice) = some [0, 1] := by
    decide +kernel
  obtain ⟨all, hall, hnumbers⟩ := Option.map_eq_some_iff.mp hslices
  rw [toOption_eq_some] at hall
  refine ⟨fun _ => all, List.forall_mem_singleton.mpr ⟨hall, by decide +kernel⟩, fun number h => ?_⟩
  have heq := congrArg (List.map Operation.slice) (Except.ok.inj (hall.symm.trans h))
  have hlength : all.length = 2 := by simpa using congrArg List.length hnumbers
  obtain ⟨a, b, rfl⟩ := List.length_eq_two.mp hlength
  rw [hnumbers] at heq
  obtain ⟨hfirst, hsecond⟩ : 0 = number 0 ∧ 1 = number 0 := by simpa [endedEarly] using heq
  omega

end Sequencer
