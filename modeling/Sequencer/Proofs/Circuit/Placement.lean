import Sequencer.Circuit.Builder

/-!
# Placing nodes

What placing a node changes: the timeline and the mark of its qubit, the last
timeslice, and for a measurement the marks and writes of classical bits. On
declared qubits and bits placing cannot fail, and a list of nodes at distinct
places ends up exactly where each node says.
-/

namespace Sequencer

-- ---------------------------------------------------------------------------
-- Largest elements
-- ---------------------------------------------------------------------------

theorem le_foldl_max (m : Int) (l : List Int) : m ≤ l.foldl max m := by
  induction l generalizing m with
  | nil => exact Int.le_refl m
  | cons x rest ih =>
    have := ih (max m x)
    simp only [List.foldl_cons]
    omega

theorem le_foldl_max_of_mem {m x : Int} {l : List Int} (h : x ∈ l) : x ≤ l.foldl max m := by
  induction l generalizing m with
  | nil => cases h
  | cons y rest ih =>
    simp only [List.foldl_cons]
    rcases List.mem_cons.mp h with rfl | h
    · have := le_foldl_max (max m x) rest
      omega
    · exact ih h

theorem foldl_max_mem (m : Int) (l : List Int) : l.foldl max m = m ∨ l.foldl max m ∈ l := by
  induction l generalizing m with
  | nil => exact .inl rfl
  | cons x rest ih =>
    simp only [List.foldl_cons, List.mem_cons]
    rcases ih (max m x) with h | h
    · rw [h]
      omega
    · exact .inr (.inr h)

theorem foldl_max_le {m r : Int} {l : List Int} (hm : m ≤ r) (hl : ∀ x ∈ l, x ≤ r) :
    l.foldl max m ≤ r := by
  rcases foldl_max_mem m l with h | h
  · omega
  · exact hl _ h

/-- The largest integer with a property, and 0 when there is none. -/
def Largest (m : Int) (S : Int → Prop) : Prop :=
  (∀ x, S x → x ≤ m) ∧ (S m ∨ m = 0 ∧ ∀ x, ¬ S x)

theorem largest_of_none {S : Int → Prop} (h : ∀ x, ¬ S x) : Largest 0 S :=
  ⟨fun x hx => absurd hx (h x), .inr ⟨rfl, h⟩⟩

theorem Largest.congr {m : Int} {S T : Int → Prop} (h : Largest m S) (hST : ∀ x, S x ↔ T x) :
    Largest m T :=
  funext (fun x => propext (hST x)) ▸ h

theorem Largest.foldl_max {m : Int} {S : Int → Prop} {l : List Int} (h : Largest m S)
    (hpos : ∀ x ∈ l, 1 ≤ x) : Largest (l.foldl max m) fun x => x ∈ l ∨ S x := by
  have hm := le_foldl_max m l
  refine ⟨fun x hx => ?_, ?_⟩
  · rcases hx with hx | hx
    · exact le_foldl_max_of_mem hx
    · exact Int.le_trans (h.1 x hx) hm
  · rcases foldl_max_mem m l with hl | hl
    · rw [hl]
      rcases h.2 with hS | ⟨h0, hnone⟩
      · exact .inl (.inr hS)
      · refine .inr ⟨h0, fun x hx => ?_⟩
        rcases hx with hx | hx
        · have := hpos x hx
          have := le_foldl_max_of_mem (m := m) hx
          omega
        · exact hnone x hx
    · exact .inl (.inl hl)

theorem largest_foldl_max {l : List Int} (hpos : ∀ x ∈ l, 1 ≤ x) :
    Largest (l.foldl max 0) (· ∈ l) := by
  have hnone : Largest 0 fun _ => False := largest_of_none fun _ => id
  exact (hnone.foldl_max hpos).congr fun x => by simp

theorem Largest.nonneg {m : Int} {S : Int → Prop} (h : Largest m S) (hpos : ∀ x, S x → 1 ≤ x) : 0 ≤ m := by
  rcases h.2 with hm | ⟨rfl, -⟩
  · have := hpos m hm
    omega
  · exact Int.le_refl 0

theorem Largest.mono {m l : Int} {S T : Int → Prop} (h : Largest m S) (h' : Largest l T)
    (hpos : ∀ x, T x → 1 ≤ x) (hST : ∀ x, S x → T x) : m ≤ l := by
  rcases h.2 with hm | ⟨rfl, -⟩
  · exact h'.1 m (hST m hm)
  · exact h'.nonneg hpos

def Node.WritesTo (n : Node) (b : String) : Prop := n.measurement = true ∧ b ∈ n.bits

instance (n : Node) (b : String) : Decidable (n.WritesTo b) := inferInstanceAs (Decidable (_ ∧ _))

namespace Circuit

-- ---------------------------------------------------------------------------
-- Notes on classical bits
-- ---------------------------------------------------------------------------

theorem noteWrites_frame (qubit : String) (t : Int) (bits : List String) (c : Circuit) :
    ∃ w m, (noteWrites qubit t bits c).1 = { c with writes := w, bitMarks := m } ∧
      ∀ b, (w.get? b).isSome = (c.writes.get? b).isSome := by
  induction bits generalizing c with
  | nil => exact ⟨c.writes, c.bitMarks, rfl, fun _ => rfl⟩
  | cons bit rest ih =>
    simp only [noteWrites]
    cases hb : c.writes.get? bit with
    | none => exact ⟨c.writes, c.bitMarks, rfl, fun _ => rfl⟩
    | some line =>
      obtain ⟨w, m, h, hw⟩ := ih { c with
        writes := c.writes.insert bit (line.insert t qubit)
        bitMarks := raise c.bitMarks bit t }
      refine ⟨w, m, h, fun b => ?_⟩
      rw [hw b, Assoc.get?_insert]
      split
      · subst_vars
        simp [hb]
      · rfl

theorem declared_insert {bit : String} {rest : List String} {line : Timeline String}
    {writes : Assoc String (Timeline String)} (h : ∀ b ∈ bit :: rest, (writes.get? b).isSome) :
    ∀ b ∈ rest, ((writes.insert bit line).get? b).isSome := by
  intro b hb
  rw [Assoc.get?_insert]
  split
  · rfl
  · exact h b (List.mem_cons_of_mem _ hb)

theorem noteWrites_snd {qubit : String} {t : Int} {bits : List String} {c : Circuit}
    (h : ∀ b ∈ bits, (c.writes.get? b).isSome) : (noteWrites qubit t bits c).2 = none := by
  induction bits generalizing c with
  | nil => rfl
  | cons bit rest ih =>
    simp only [noteWrites]
    obtain ⟨line, hline⟩ := Option.isSome_iff_exists.mp (h bit List.mem_cons_self)
    simp only [hline]
    exact ih (declared_insert h)

theorem mark_raise (marks : Assoc String Int) (name : String) (t : Int) (b : String) :
    mark (raise marks name t) b = if b = name then max (mark marks b) t else mark marks b := by
  simp only [raise, mark, Assoc.get?_insert]
  by_cases hb : name = b
  · simp [hb]
  · simp [hb, Ne.symm hb]

theorem noteWrites_mark {qubit : String} {t : Int} {bits : List String} {c : Circuit}
    (h : ∀ b ∈ bits, (c.writes.get? b).isSome) (b : String) :
    mark (noteWrites qubit t bits c).1.bitMarks b =
      if b ∈ bits then max (mark c.bitMarks b) t else mark c.bitMarks b := by
  induction bits generalizing c with
  | nil => rfl
  | cons bit rest ih =>
    obtain ⟨line, hline⟩ := Option.isSome_iff_exists.mp (h bit List.mem_cons_self)
    simp only [noteWrites, hline]
    rw [ih (declared_insert h), mark_raise]
    by_cases hb : b = bit
    · subst hb
      rw [if_pos rfl, if_pos List.mem_cons_self]
      split
      · rw [Int.max_assoc, Int.max_self]
      · rfl
    · by_cases hr : b ∈ rest <;> simp [hb, hr]

theorem noteWrites_get? {qubit : String} {t : Int} {bits : List String} {c : Circuit}
    (h : ∀ b ∈ bits, (c.writes.get? b).isSome) (b : String) (s : Int) :
    ((noteWrites qubit t bits c).1.bitWrites b).get? s =
      if b ∈ bits ∧ s = t then some qubit else (c.bitWrites b).get? s := by
  induction bits generalizing c with
  | nil => simp [noteWrites]
  | cons bit rest ih =>
    obtain ⟨line, hline⟩ := Option.isSome_iff_exists.mp (h bit List.mem_cons_self)
    have hnext : ((c.writes.insert bit (line.insert t qubit)).get? b).getD .empty =
        if b = bit then line.insert t qubit else c.bitWrites b := by
      rw [Assoc.get?_insert]
      by_cases hb : bit = b
      · simp [hb]
      · simp [hb, Ne.symm hb, bitWrites]
    simp only [noteWrites, hline]
    rw [ih (declared_insert h)]
    simp only [bitWrites, hnext]
    by_cases hr : b ∈ rest ∧ s = t
    · simp [hr]
    · rw [if_neg hr]
      by_cases hb : b = bit
      · subst hb
        rw [if_pos rfl, Timeline.get?_insert, hline]
        by_cases hs : s = t
        · simp [hs]
        · simp [hs, Ne.symm hs]
      · rw [if_neg hb, if_neg (by simp_all)]

-- ---------------------------------------------------------------------------
-- One node
-- ---------------------------------------------------------------------------

def Tracks (c : Circuit) (qubit : String) : Prop := (c.timelines.get? qubit).isSome

theorem at?_of_not_tracks {c : Circuit} {q : String} (h : ¬ c.Tracks q) (t : Int) :
    c.at? q t = none := by
  have hn : c.timelines.get? q = none := by simpa [Tracks] using h
  simp [at?, timeline, hn]

theorem place_fst {c : Circuit} {q : String} (n : Node) (h : c.Tracks q) :
    ∃ w m, (c.place q n).1 =
        { c.store q (c.timeline q) n with
          lastMeasured := if n.measurement then max c.lastMeasured n.timeslice else c.lastMeasured
          writes := w
          bitMarks := m } ∧
      ∀ b, (w.get? b).isSome = (c.writes.get? b).isSome := by
  obtain ⟨line, hline⟩ := Option.isSome_iff_exists.mp h
  have ht : c.timeline q = line := by simp [timeline, hline]
  simp only [place, hline, ht]
  cases hm : n.measurement with
  | false => exact ⟨c.writes, c.bitMarks, rfl, fun _ => rfl⟩
  | true =>
    obtain ⟨w, m, he, hw⟩ := noteWrites_frame q n.timeslice n.bits
      { c.store q line n with lastMeasured := max c.lastMeasured n.timeslice }
    exact ⟨w, m, he, hw⟩

theorem place_snd {c : Circuit} {q : String} {n : Node} (h : c.Tracks q)
    (hb : n.measurement = true → ∀ b ∈ n.bits, (c.writes.get? b).isSome) :
    (c.place q n).2 = none := by
  obtain ⟨line, hline⟩ := Option.isSome_iff_exists.mp h
  simp only [place, hline]
  cases hm : n.measurement with
  | false => rfl
  | true => exact noteWrites_snd (hb hm)

theorem bitMark_place {c : Circuit} {q : String} {n : Node} (h : c.Tracks q)
    (hb : n.measurement = true → ∀ b ∈ n.bits, (c.writes.get? b).isSome) (b : String) :
    mark (c.place q n).1.bitMarks b =
      if n.WritesTo b then max (mark c.bitMarks b) n.timeslice else mark c.bitMarks b := by
  obtain ⟨line, hline⟩ := Option.isSome_iff_exists.mp h
  by_cases hm : n.measurement = true
  · simp only [place, hline, Node.WritesTo, hm, ↓reduceIte, true_and]
    rw [noteWrites_mark (by exact hb hm)]
    rfl
  · simp [place, hline, Node.WritesTo, hm, store]

theorem bitWrites_place {c : Circuit} {q : String} {n : Node} (h : c.Tracks q)
    (hb : n.measurement = true → ∀ b ∈ n.bits, (c.writes.get? b).isSome) (b : String) (s : Int) :
    ((c.place q n).1.bitWrites b).get? s =
      if n.WritesTo b ∧ s = n.timeslice then some q else (c.bitWrites b).get? s := by
  obtain ⟨line, hline⟩ := Option.isSome_iff_exists.mp h
  by_cases hm : n.measurement = true
  · simp only [place, hline, Node.WritesTo, hm, ↓reduceIte, true_and]
    rw [noteWrites_get? (by exact hb hm)]
    rfl
  · simp [place, hline, Node.WritesTo, hm, store, bitWrites]

section
variable {c : Circuit} {q : String} (n : Node)

theorem place_name : (c.place q n).1.name = c.name := by
  by_cases h : c.Tracks q
  · obtain ⟨w, m, he, -⟩ := place_fst n h
    rw [he]
    rfl
  · simp_all [place, Tracks]

theorem place_quantum : (c.place q n).1.quantum = c.quantum := by
  by_cases h : c.Tracks q
  · obtain ⟨w, m, he, -⟩ := place_fst n h
    rw [he]
    rfl
  · simp_all [place, Tracks]

theorem place_classical : (c.place q n).1.classical = c.classical := by
  by_cases h : c.Tracks q
  · obtain ⟨w, m, he, -⟩ := place_fst n h
    rw [he]
    rfl
  · simp_all [place, Tracks]

theorem place_writes (b : String) :
    ((c.place q n).1.writes.get? b).isSome = (c.writes.get? b).isSome := by
  by_cases h : c.Tracks q
  · obtain ⟨w, m, he, hw⟩ := place_fst n h
    rw [he]
    exact hw b
  · simp_all [place, Tracks]

variable (h : c.Tracks q)
include h

theorem place_tracks (p : String) : (c.place q n).1.Tracks p ↔ c.Tracks p := by
  obtain ⟨w, m, he, -⟩ := place_fst n h
  simp only [Tracks, he, store, Assoc.get?_insert]
  split
  · subst_vars
    simpa [Tracks] using h
  · rfl

theorem at?_place (p : String) (t : Int) :
    (c.place q n).1.at? p t = if p = q ∧ t = n.timeslice then some n else c.at? p t := by
  obtain ⟨w, m, he, -⟩ := place_fst n h
  simp only [at?, timeline, he, store, Assoc.get?_insert]
  by_cases hp : q = p
  · subst hp
    simp [Timeline.get?_insert, eq_comm]
  · simp [hp, Ne.symm hp]

theorem mark_place (p : String) :
    mark (c.place q n).1.qubitMarks p =
      if p = q then max (mark c.qubitMarks q) n.timeslice else mark c.qubitMarks p := by
  obtain ⟨w, m, he, -⟩ := place_fst n h
  simp only [he, store, raise, mark, Assoc.get?_insert]
  by_cases hp : q = p
  · simp [hp]
  · simp [hp, Ne.symm hp]

theorem lastSlice_place : (c.place q n).1.lastSlice = max c.lastSlice n.timeslice := by
  obtain ⟨w, m, he, -⟩ := place_fst n h
  rw [he]
  rfl

theorem lastMeasured_place : (c.place q n).1.lastMeasured =
    if n.measurement then max c.lastMeasured n.timeslice else c.lastMeasured := by
  obtain ⟨w, m, he, -⟩ := place_fst n h
  rw [he]

end

-- ---------------------------------------------------------------------------
-- Several nodes
-- ---------------------------------------------------------------------------

section
variable {c : Circuit} {nodes : List (String × Node)}

@[simp] theorem placeAll_nil : c.placeAll [] = c := rfl

@[simp] theorem placeAll_cons (e : String × Node) :
    c.placeAll (e :: nodes) = (c.place e.1 e.2).1.placeAll nodes := rfl

theorem placeAll_append (c : Circuit) (first rest : List (String × Node)) :
    c.placeAll (first ++ rest) = (c.placeAll first).placeAll rest := by
  induction first generalizing c with
  | nil => rfl
  | cons e more ih => exact ih _

theorem placeAll_name : (c.placeAll nodes).name = c.name := by
  induction nodes generalizing c with
  | nil => rfl
  | cons e rest ih => rw [placeAll_cons, ih, place_name]

theorem placeAll_quantum : (c.placeAll nodes).quantum = c.quantum := by
  induction nodes generalizing c with
  | nil => rfl
  | cons e rest ih => rw [placeAll_cons, ih, place_quantum]

theorem placeAll_classical : (c.placeAll nodes).classical = c.classical := by
  induction nodes generalizing c with
  | nil => rfl
  | cons e rest ih => rw [placeAll_cons, ih, place_classical]

theorem placeAll_writes (b : String) :
    ((c.placeAll nodes).writes.get? b).isSome = (c.writes.get? b).isSome := by
  induction nodes generalizing c with
  | nil => rfl
  | cons e rest ih => rw [placeAll_cons, ih, place_writes]

def PlacesAll (c : Circuit) : List (String × Node) → Prop
  | [] => True
  | e :: rest => (c.place e.1 e.2).2 = none ∧ (c.place e.1 e.2).1.PlacesAll rest

theorem tracks_tail {e : String × Node} {rest : List (String × Node)}
    (h : ∀ x ∈ e :: rest, c.Tracks x.1) : ∀ x ∈ rest, (c.place e.1 e.2).1.Tracks x.1 :=
  fun x hx => (place_tracks _ (h e List.mem_cons_self) _).mpr (h x (List.mem_cons_of_mem _ hx))

theorem notes_tail {e : String × Node} {rest : List (String × Node)}
    (hb : ∀ x ∈ e :: rest, x.2.measurement = true → ∀ b ∈ x.2.bits, (c.writes.get? b).isSome) :
    ∀ x ∈ rest, x.2.measurement = true → ∀ b ∈ x.2.bits,
      ((c.place e.1 e.2).1.writes.get? b).isSome :=
  fun x hx hm b hbit => by
    rw [place_writes]
    exact hb x (List.mem_cons_of_mem _ hx) hm b hbit

variable (h : ∀ e ∈ nodes, c.Tracks e.1)
include h

theorem placeAll_tracks (p : String) : (c.placeAll nodes).Tracks p ↔ c.Tracks p := by
  induction nodes generalizing c with
  | nil => rfl
  | cons e rest ih =>
    have he := h e List.mem_cons_self
    rw [placeAll_cons, ih (tracks_tail h), place_tracks _ he]

/-- Nodes at distinct places end up where they say, and nothing else moves. -/
theorem at?_placeAll (distinct : nodes.Pairwise fun a b => a.1 = b.1 → a.2.timeslice ≠ b.2.timeslice)
    (p : String) (t : Int) (n : Node) :
    (c.placeAll nodes).at? p t = some n ↔
      ((p, n) ∈ nodes ∧ n.timeslice = t) ∨
        ((∀ e ∈ nodes, e.1 = p → e.2.timeslice ≠ t) ∧ c.at? p t = some n) := by
  induction nodes generalizing c with
  | nil => simp
  | cons e rest ih =>
    have he := h e List.mem_cons_self
    obtain ⟨hhead, htail⟩ := List.pairwise_cons.mp distinct
    rw [placeAll_cons, ih (tracks_tail h) htail, at?_place _ he]
    constructor
    · rintro (⟨hm, ht⟩ | ⟨hfree, hc⟩)
      · exact .inl ⟨List.mem_cons_of_mem _ hm, ht⟩
      · split at hc
        · rename_i hpt
          cases hc
          exact .inl ⟨by rw [hpt.1]; exact List.mem_cons_self, hpt.2.symm⟩
        · rename_i hpt
          refine .inr ⟨fun x hx hp => ?_, hc⟩
          rcases List.mem_cons.mp hx with rfl | hx
          · exact fun ht => hpt ⟨hp.symm, ht.symm⟩
          · exact hfree x hx hp
    · rintro (⟨hm, ht⟩ | ⟨hfree, hc⟩)
      · rcases List.mem_cons.mp hm with heq | hm
        · subst heq
          refine .inr ⟨fun x hx hp heq => ?_, by simp [ht]⟩
          exact hhead x hx hp.symm (ht.trans heq.symm)
        · exact .inl ⟨hm, ht⟩
      · refine .inr ⟨fun x hx hp => hfree x (List.mem_cons_of_mem _ hx) hp, ?_⟩
        rw [if_neg]
        · exact hc
        · rintro ⟨hp, ht⟩
          exact hfree e List.mem_cons_self hp.symm ht.symm

theorem lastSlice_placeAll : (c.placeAll nodes).lastSlice =
    (nodes.map fun e => e.2.timeslice).foldl max c.lastSlice := by
  induction nodes generalizing c with
  | nil => rfl
  | cons e rest ih =>
    have he := h e List.mem_cons_self
    rw [placeAll_cons, ih (tracks_tail h),
      lastSlice_place _ he]
    rfl

theorem lastMeasured_placeAll : (c.placeAll nodes).lastMeasured =
    ((nodes.filter fun e => e.2.measurement).map fun e => e.2.timeslice).foldl max
      c.lastMeasured := by
  induction nodes generalizing c with
  | nil => rfl
  | cons e rest ih =>
    have he := h e List.mem_cons_self
    rw [placeAll_cons, ih (tracks_tail h),
      lastMeasured_place _ he]
    cases hm : e.2.measurement with
    | true => simp [hm]
    | false => simp [hm]

theorem mark_placeAll (p : String) : mark (c.placeAll nodes).qubitMarks p =
    ((nodes.filter fun e => e.1 = p).map fun e => e.2.timeslice).foldl max
      (mark c.qubitMarks p) := by
  induction nodes generalizing c with
  | nil => rfl
  | cons e rest ih =>
    have he := h e List.mem_cons_self
    rw [placeAll_cons, ih (tracks_tail h),
      mark_place _ he]
    by_cases hp : e.1 = p
    · simp [hp]
    · simp [hp, Ne.symm hp]

variable (hb : ∀ e ∈ nodes, e.2.measurement = true → ∀ b ∈ e.2.bits, (c.writes.get? b).isSome)
include hb

theorem bitMark_placeAll (b : String) : mark (c.placeAll nodes).bitMarks b =
    ((nodes.filter fun e => e.2.WritesTo b).map fun e => e.2.timeslice).foldl max
      (mark c.bitMarks b) := by
  induction nodes generalizing c with
  | nil => rfl
  | cons e rest ih =>
    have he := h e List.mem_cons_self
    rw [placeAll_cons, ih (tracks_tail h) (notes_tail hb), bitMark_place he (hb e List.mem_cons_self)]
    by_cases hw : e.2.WritesTo b
    · simp [hw]
    · simp [hw]

/-- After several nodes were placed, a bit keeps the last of them that writes to
it. -/
theorem get?_bitWrites_placeAll (b : String) (s : Int) : ((c.placeAll nodes).bitWrites b).get? s =
    ((nodes.reverse.find? fun e => e.2.WritesTo b ∧ e.2.timeslice = s).map Prod.fst).or
      ((c.bitWrites b).get? s) := by
  induction nodes generalizing c with
  | nil => rfl
  | cons e rest ih =>
    have he := h e List.mem_cons_self
    rw [placeAll_cons, ih (tracks_tail h) (notes_tail hb), bitWrites_place he (hb e List.mem_cons_self),
      List.reverse_cons, List.find?_append]
    cases rest.reverse.find? fun e => e.2.WritesTo b ∧ e.2.timeslice = s with
    | some found => rfl
    | none =>
      by_cases hw : e.2.WritesTo b ∧ s = e.2.timeslice
      · simp [hw]
      · have hother : ¬ (e.2.WritesTo b ∧ e.2.timeslice = s) := fun h => hw ⟨h.1, h.2.symm⟩
        simp [hw, hother]

theorem bitWrites_placeAll {b q : String} {s : Int}
    (hs : ((c.placeAll nodes).bitWrites b).get? s = some q) :
    (∃ n, (q, n) ∈ nodes ∧ n.WritesTo b ∧ n.timeslice = s) ∨ (c.bitWrites b).get? s = some q := by
  rw [get?_bitWrites_placeAll h hb, Option.or_eq_some_iff, Option.map_eq_some_iff] at hs
  rcases hs with ⟨e, he, rfl⟩ | ⟨-, hs⟩
  · have hw := List.find?_some he
    rw [decide_eq_true_eq] at hw
    exact .inl ⟨e.2, List.mem_reverse.mp (List.mem_of_find?_eq_some he), hw⟩
  · exact .inr hs

theorem isSome_bitWrites_placeAll (b : String) (s : Int) :
    (((c.placeAll nodes).bitWrites b).get? s).isSome ↔
      (∃ e ∈ nodes, e.2.WritesTo b ∧ e.2.timeslice = s) ∨ ((c.bitWrites b).get? s).isSome := by
  rw [get?_bitWrites_placeAll h hb, Option.isSome_or, Bool.or_eq_true, Option.isSome_map,
    List.find?_isSome]
  simp

theorem placesAll : c.PlacesAll nodes := by
  induction nodes generalizing c with
  | nil => trivial
  | cons e rest ih =>
    exact ⟨place_snd (h e List.mem_cons_self) (hb e List.mem_cons_self), ih (tracks_tail h) (notes_tail hb)⟩

end

end Circuit
end Sequencer
