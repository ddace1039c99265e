import Mathlib.Data.List.Induction
import Sequencer.Proofs.Instruction.Packets

/-!
# Reading packets

The header word of a packet gives the operations of its groups, and the words
after it their numbers. What is read of a list of words between two packets
(`Reads`) composes, so a stream is read packet by packet. Padding is told from
groups by its set bits: the last group of a word has to have a clear bit unless
it is the first one.
-/

namespace Sequencer

open BitField

def BitField.Clear (fs : List BitField) : Prop := ∃ f ∈ fs, f.bits ≠ 2 ^ f.width - 1

theorem clear_of_index {y : Layout} (hy : y.qubits = 1 ∨ ¬ y.qubits.isPowerOfTwo) {i : Nat}
    (hi : i < y.qubits) {fs : List BitField} (hf : ⟨i, y.qubitBits⟩ ∈ fs) : Clear fs := by
  refine ⟨_, hf, ?_⟩
  rw [bits_eq (f := ⟨i, y.qubitBits⟩) (Layout.lt_two_pow hi)]
  have := Layout.succ_lt_two_pow hy hi
  simp only
  omega

-- ---------------------------------------------------------------------------
-- Groups of a header word
-- ---------------------------------------------------------------------------

namespace HeaderWord

structure Readable (h : HeaderWord) (read : Nat → Except DecodeError (StreamOperation × Nat))
    (w : Nat) (item : List BitField × StreamOperation) : Prop where
  width : totalWidth item.1 = w
  read_eq : ∀ {pos : Nat} {rest : List BitField}, h.bits.Holds pos (item.1 ++ rest) →
    read pos = .ok (item.2, pos - w)

section
variable {h : HeaderWord} {read : Nat → Except DecodeError (StreamOperation × Nat)} {start w : Nat}
variable {items : List (List BitField × StreamOperation)}

theorem hasMore_eq_false {pad pos : Nat} (hw : h.bits.Holds pos [ones pad]) (hpos : pos < start) :
    h.hasMore start w pos = false := by
  have hne : (pos == start) = false := beq_eq_false_iff_ne.mpr (Nat.ne_of_lt hpos)
  simp [hasMore, hw.isPadding_ones, hne]

/-- Groups after the first one are read up to the padding, which starts where
the last bit is clear. -/
theorem readGroups_rest (hpos0 : 0 < w) {pad pos fuel : Nat}
    (hitems : ∀ item ∈ items, h.Readable read w item) (hclear : ∀ item ∈ items.getLast?, Clear item.1)
    (hfuel : items.length ≤ fuel) (hpos : pos < start)
    (hw : h.bits.Holds pos (items.flatMap Prod.fst ++ [ones pad])) :
    readGroups read h start w fuel pos = .ok (items.map Prod.snd) := by
  induction items generalizing pos fuel with
  | nil =>
    cases fuel with
    | zero => rfl
    | succ fuel => simp [readGroups, hasMore_eq_false hw hpos]
  | cons item rest ih =>
    cases fuel with
    | zero => simp at hfuel
    | succ fuel =>
      have hitem := hitems item List.mem_cons_self
      rw [List.flatMap_cons, List.append_assoc] at hw
      have hle : w ≤ pos := by
        have := hw.width
        rw [totalWidth_append, hitem.width] at this
        omega
      have hlast := List.getLast?_eq_some_getLast (List.cons_ne_nil item rest)
      have hmore : h.hasMore start w pos = true := by
        obtain ⟨f, hf, hbits⟩ := hclear _ hlast
        have hmem : f ∈ item.1 ++ (rest.flatMap Prod.fst ++ [ones pad]) := by
          rw [← List.append_assoc, ← List.flatMap_cons]
          exact List.mem_append_left _ (List.mem_flatMap.mpr ⟨_, List.mem_of_getLast? hlast, hf⟩)
        have hpad : h.bits.isPadding pos = false := by
          rw [Bool.eq_false_iff, ne_eq, hw.isPadding_iff]
          exact fun hall => hbits (hall f hmem)
        simp [hasMore, hpad, hle]
      have hclear : ∀ i ∈ rest.getLast?, Clear i.1 := by
        intro i hi
        refine hclear i ?_
        rw [Option.mem_def] at hi ⊢
        rw [List.getLast?_cons, hi, Option.getD_some]
      have hrest : readGroups read h start w fuel (pos - w) = .ok (rest.map Prod.snd) := ih
        (fun i hi => hitems i (List.mem_cons_of_mem _ hi)) hclear (by simpa using hfuel) (by omega)
        (hitem.width ▸ hw.drop)
      simp [readGroups, hmore, hitem.read_eq hw, hrest, bind, Except.bind, pure, Except.pure]

/-- All groups of a header word are read; the first one may be all ones. -/
theorem readGroups_eq (hpos0 : 0 < w) {pad fuel : Nat} (hne : items ≠ [])
    (hitems : ∀ item ∈ items, h.Readable read w item) (hclear : ∀ item ∈ items.tail.getLast?, Clear item.1)
    (hfuel : items.length ≤ fuel) (hw : h.bits.Holds start (items.flatMap Prod.fst ++ [ones pad])) :
    readGroups read h start w fuel start = .ok (items.map Prod.snd) := by
  cases items with
  | nil => exact absurd rfl hne
  | cons item rest =>
    cases fuel with
    | zero => simp at hfuel
    | succ fuel =>
      have hitem := hitems item List.mem_cons_self
      rw [List.flatMap_cons, List.append_assoc] at hw
      have hle : w ≤ start := by
        have := hw.width
        rw [totalWidth_append, hitem.width] at this
        omega
      have hmore : h.hasMore start w start = true := by simp [hasMore, hle]
      have hrest : readGroups read h start w fuel (start - w) = .ok (rest.map Prod.snd) :=
        readGroups_rest hpos0 (fun i hi => hitems i (List.mem_cons_of_mem _ hi)) hclear
          (by simpa using hfuel) (by omega) (hitem.width ▸ hw.drop)
      simp [readGroups, hmore, hitem.read_eq hw, hrest, bind, Except.bind, pure, Except.pure]

end

theorem operations_measured {y : Layout} {last : Bool} {qubits : List Nat} (number : Nat)
    (hne : qubits ≠ []) (hlen : qubits.length ≤ fieldsPerWord y.qubitBits)
    (hlt : ∀ q ∈ qubits, q < y.qubits)
    (hclear : ∀ q ∈ qubits.tail.getLast?, q + 1 < 2 ^ y.qubitBits) :
    (HeaderWord.mk number (measuredWord y.qubitBits last qubits)).operations y =
      .ok (qubits.map fun (q : Nat) => { category := .measurement, qubit := q }) := by
  have hfits := length_mul_le hlen
  have hword := holds_measuredWord hfits last
  have hcategory : (measuredWord y.qubitBits last qubits).category = .measurement := by
    rw [Word.category, Word.opcode_of_holds hword.tail (by decide)]
    rfl
  have hcount : qubits.length ≤ 64 := by
    have := Nat.mul_le_mul_left qubits.length y.qubitBits_pos
    simp only [headerRoom] at hfits
    omega
  generalize hh : HeaderWord.mk number (measuredWord y.qubitBits last qubits) = h
  have hbits : h.bits = measuredWord y.qubitBits last qubits := by rw [← hh]
  let item (q : Nat) : List BitField × StreamOperation :=
    ([⟨q, y.qubitBits⟩], { category := .measurement, qubit := q })
  have hitems : ∀ i ∈ qubits.map item, h.Readable (h.readMeasured y) y.qubitBits i := by
    refine List.forall_mem_map.mpr fun q hq => ⟨by simp [item], fun hw => ?_⟩
    simp [readMeasured, read_index (hlt q hq) hw, bind, Except.bind, pure, Except.pure, item]
  have hclear : ∀ i ∈ (qubits.map item).tail.getLast?, Clear i.1 := by
    rw [← List.map_tail, List.getLast?_map]
    intro i hi
    obtain ⟨q, hq, rfl⟩ := Option.map_eq_some_iff.mp hi
    refine ⟨⟨q, y.qubitBits⟩, List.mem_singleton_self _, ?_⟩
    have := hclear q hq
    rw [bits_eq (f := ⟨q, y.qubitBits⟩) (show q < 2 ^ y.qubitBits by omega)]
    simp only
    omega
  have hholds : h.bits.Holds headerRoom
      ((qubits.map item).flatMap Prod.fst ++ [ones (measuredRoom y.qubitBits qubits)]) := by
    rw [hbits, List.flatMap_map, ← List.map_eq_flatMap]
    exact hword.tail.tail
  have hread := readGroups_eq y.qubitBits_pos (by simpa using hne) hitems hclear
    (by simpa using hcount) hholds
  rw [operations, if_pos (by rw [hbits, hcategory]), hread]
  simp [item]

section
variable {y : Layout} {l : Lane} {items : List (Group × StreamOperation)}
variable (hne : items ≠ []) (hitems : ∀ i ∈ items, Legible y l i.1 i.2)
variable (hlen : items.length ≤ l.room / y.width l)
include hne hitems hlen

omit hne in
theorem totalWidth_groups :
    totalWidth ((items.map Prod.fst).flatMap Group.fields) = items.length * y.width l ∧
      items.length * y.width l ≤ l.room := by
  refine ⟨?_, Nat.le_trans (Nat.mul_le_mul_right _ hlen) (Nat.div_mul_le_self _ _)⟩
  rw [List.flatMap_map]
  exact totalWidth_flatMap fun i hi => (hitems i hi).width

theorem operations_headerWord (last : Bool) (number : Nat)
    (hclear : ∀ i ∈ items.tail.getLast?, Clear i.1.fields) :
    (HeaderWord.mk number (headerWord l last (items.map Prod.fst))).operations y =
      .ok (items.map fun i => i.2.bare) := by
  obtain ⟨hwidth, hle⟩ := totalWidth_groups hitems hlen
  have hword := holds_headerWord (hwidth ▸ hle) last
  have hlane := Lane.ofWord?_of_holds hword.tail
  have hroom := l.room_add_flags
  have hcategory : (headerWord l last (items.map Prod.fst)).category ≠ .measurement := by
    rw [Word.category, Word.opcode_of_holds hword.tail l.category_code_lt]
    cases l <;> decide
  have hcount : items.length ≤ 64 := by
    have := Nat.mul_le_mul_left items.length (y.width_pos l)
    have := l.room_le
    simp only [headerRoom] at this
    omega
  have hwrap : Integer.wrap (y.width l) = y.width l := by
    obtain ⟨i, hi⟩ := List.exists_mem_of_ne_nil _ hne
    have := (hitems i hi).fits
    have := l.room_le
    simp only [headerRoom] at this
    exact Integer.wrap_of_lt (by unfold Integer.bound; omega) (by unfold Integer.bound; omega)
  generalize hh : HeaderWord.mk number (headerWord l last (items.map Prod.fst)) = h
  have hbits : h.bits = headerWord l last (items.map Prod.fst) := by rw [← hh]
  have hreadable : ∀ i ∈ items.map fun i => (i.1.fields, i.2.bare),
      h.Readable (h.readGroup y l) (y.width l) i :=
    List.forall_mem_map.mpr fun i hi => ⟨(hitems i hi).width, (hitems i hi).read⟩
  have hclear : ∀ i ∈ (items.map fun i => (i.1.fields, i.2.bare)).tail.getLast?, Clear i.1 := by
    rw [← List.map_tail, List.getLast?_map]
    intro i hi
    obtain ⟨j, hj, rfl⟩ := Option.map_eq_some_iff.mp hi
    exact hclear j hj
  have hholds : h.bits.Holds l.room ((items.map fun i => (i.1.fields, i.2.bare)).flatMap Prod.fst ++
      [ones (l.room - totalWidth ((items.map Prod.fst).flatMap Group.fields))]) := by
    have hdrop := hword.tail.tail.drop
    rw [l.totalWidth_flags] at hdrop
    have hpos : 64 - 1 - 3 - l.flags.length = l.room := by
      simp only [headerRoom] at hroom
      omega
    rw [hbits, List.flatMap_map]
    rw [List.flatMap_map] at hdrop ⊢
    exact hpos ▸ hdrop
  have hread := readGroups_eq (y.width_pos l) (by simpa using hne) hreadable hclear
    (by simpa using hcount) hholds
  rw [operations, if_neg (by rwa [hbits]), hbits, hlane]
  simp only [hwrap]
  rw [hread, List.map_map]
  rfl

end

end HeaderWord

-- ---------------------------------------------------------------------------
-- Trailing words
-- ---------------------------------------------------------------------------

@[simp] theorem attachAngles_nil (ops : List StreamOperation) : attachAngles ops [] = ops := by
  cases ops <;> rfl

@[simp] theorem attachProbabilities_nil (ops : List StreamOperation) :
    attachProbabilities ops [] = ops := by
  unfold attachProbabilities
  split <;> simp_all

@[simp] theorem attach_nil (ops : List StreamOperation) : attach ops [] = ops := by
  rw [attach]
  split <;> simp

section
variable (f : StreamOperation → StreamOperation) (gate : ∀ o, (f o).gate = o.gate)
variable (category : ∀ o, (f o).category = o.category)
variable (angle : ∀ o a, f { o with angle := a } = { f o with angle := a })
variable (probability : ∀ o p, f { o with probability := p } = { f o with probability := p })

include gate category in
theorem trailingCount_map (ops : List StreamOperation) : trailingCount (ops.map f) = trailingCount ops := by
  simp only [trailingCount, List.filter_map, List.length_map, Function.comp_def, gate, category]

include gate angle in
theorem attachAngles_map (ops : List StreamOperation) (ws : List Word) :
    attachAngles (ops.map f) ws = (attachAngles ops ws).map f := by
  fun_induction attachAngles ops ws with
  | case1 ws => rfl
  | case2 o rest => simp
  | case3 o rest w ws hangle ih =>
    rw [List.map_cons, attachAngles, if_pos (by rw [gate, hangle]), ih, List.map_cons]
    exact congrArg (· :: _) (angle o _).symm
  | case4 o rest w ws hplain ih =>
    rw [List.map_cons, attachAngles, if_neg (by rwa [gate]), ih, List.map_cons]

include probability in
theorem attachProbabilities_map (ops : List StreamOperation) (ws : List Word) :
    attachProbabilities (ops.map f) ws = (attachProbabilities ops ws).map f := by
  fun_induction attachProbabilities ops ws with
  | case1 o p rest w ws ih =>
    rw [List.map_cons, List.map_cons, attachProbabilities, ih, List.map_cons, List.map_cons]
    exact congrArg₂ (· :: · :: _) (probability o _).symm (probability p _).symm
  | case2 o w ws => exact congrArg (· :: []) (probability o _).symm
  | case3 ops ws hpair hsingle =>
    cases ws with
    | nil => simp
    | cons w ws =>
      rcases ops with _ | ⟨o, _ | ⟨p, rest⟩⟩
      · rfl
      · exact absurd rfl (hsingle o w ws rfl)
      · exact absurd rfl (hpair o p rest w ws rfl)

include gate category angle probability in
theorem attach_map (ops : List StreamOperation) (ws : List Word) :
    attach (ops.map f) ws = (attach ops ws).map f := by
  have hkind : (ops.map f).any (fun o => decide (o.category = .decoherence)) =
      ops.any fun o => decide (o.category = .decoherence) := by
    simp only [List.any_map, Function.comp_def, category]
  rw [attach, attach, hkind, attachAngles_map f gate angle, attachProbabilities_map f probability]
  split <;> rfl

end

theorem attachAngles_plain {o : StreamOperation} (h : Gate.encodesAngle o.gate = false)
    (rest : List StreamOperation) (ws : List Word) :
    attachAngles (o :: rest) ws = o :: attachAngles rest ws := by
  cases ws with
  | nil => simp
  | cons w ws => simp [attachAngles, h]

theorem attachAngles_rotation {o : StreamOperation} (h : Gate.encodesAngle o.gate = true)
    (rest : List StreamOperation) (w : Word) (ws : List Word) :
    attachAngles (o :: rest) (w :: ws) =
      { o with angle := some (Fixed.high w, Fixed.low w) } :: attachAngles rest ws := by
  simp [attachAngles, h]

theorem length_probabilityWords (ps : List Fixed) :
    (probabilityWords ps).length = (ps.length + 1) / 2 := by
  fun_induction probabilityWords ps with
  | case1 => rfl
  | case2 p => simp
  | case3 p q rest ih =>
    simp only [List.length_cons, ih]
    omega

section
variable {items : List (Group × StreamOperation)}

theorem attachAngles_bare (hcarries : ∀ i ∈ items, i.2.Carries i.1.trail)
    (hplain : ∀ i ∈ items, ∀ p, i.1.trail ≠ .probability p) :
    attachAngles (items.map fun i => i.2.bare) (angleWords (items.map Prod.fst)) =
      items.map Prod.snd := by
  induction items with
  | nil => rfl
  | cons i rest ih =>
    have ih := ih (fun j hj => hcarries j (List.mem_cons_of_mem _ hj))
      (fun j hj => hplain j (List.mem_cons_of_mem _ hj))
    have hi := hcarries i List.mem_cons_self
    cases htrail : i.1.trail with
    | none =>
      rw [htrail] at hi
      obtain ⟨hgate, hangle, hprobability⟩ := hi
      have hbare : i.2.bare = i.2 := by rw [Operation.bare, ← hangle, ← hprobability]
      simp only [angleWords, List.map_cons, List.filterMap_cons, htrail, hbare] at ih ⊢
      rw [attachAngles_plain hgate, ih]
    | angle w =>
      rw [htrail] at hi
      obtain ⟨hgate, hangle, hprobability⟩ := hi
      simp only [angleWords, List.map_cons, List.filterMap_cons, htrail] at ih ⊢
      rw [attachAngles_rotation (o := i.2.bare) hgate, ih, Operation.bare]
      simp only [← hangle, ← hprobability]
    | probability p => exact absurd htrail (hplain i List.mem_cons_self p)

theorem attachProbabilities_bare (hcarries : ∀ i ∈ items, i.2.Carries i.1.trail)
    (hall : ∀ i ∈ items, ∃ p, i.1.trail = .probability p) (more : List Fixed) :
    attachProbabilities (items.map fun i => i.2.bare)
      (probabilityWords (probabilities (items.map Prod.fst) ++ more)) = items.map Prod.snd := by
  have hone (i : Group × StreamOperation) (hi : i ∈ items) : ∃ p, i.1.trail = .probability p ∧
      Fixed.InRange p ∧ { i.2.bare with probability := some p } = i.2 := by
    obtain ⟨p, hp⟩ := hall i hi
    have hc := hcarries i hi
    rw [hp] at hc
    obtain ⟨-, hangle, hprobability, hrange⟩ := hc
    exact ⟨p, hp, hrange, by rw [Operation.bare, ← hangle, ← hprobability]⟩
  -- operations take their probabilities two at a time
  induction items using List.twoStepInduction with
  | nil => simp [attachProbabilities]
  | singleton i =>
    obtain ⟨p, hp, hrange, heq⟩ := hone i List.mem_cons_self
    cases more with
    | nil =>
      simp only [probabilities, List.map_cons, List.map_nil, List.filterMap_cons, List.filterMap_nil, hp,
        List.append_nil, probabilityWords, attachProbabilities]
      rw [Fixed.high_ofFields hrange rfl, heq]
    | cons q more =>
      simp only [probabilities, List.map_cons, List.map_nil, List.filterMap_cons, List.filterMap_nil, hp,
        List.cons_append, List.nil_append, probabilityWords, attachProbabilities]
      rw [Fixed.high_pair hrange, heq]
  | cons_cons i j rest ih _ =>
    obtain ⟨p, hp, hprange, hpeq⟩ := hone i List.mem_cons_self
    obtain ⟨q, hq, hqrange, hqeq⟩ := hone j (by simp)
    have hmem (k : Group × StreamOperation) (hk : k ∈ rest) : k ∈ i :: j :: rest := by simp [hk]
    have ih := ih (fun k hk => hcarries k (hmem k hk)) (fun k hk => hall k (hmem k hk))
      (fun k hk => hone k (hmem k hk))
    simp only [probabilities, List.map_cons, List.filterMap_cons, hp, hq, List.cons_append, probabilityWords,
      attachProbabilities] at ih ⊢
    rw [Fixed.high_pair hprange, Fixed.low_pair hqrange, hpeq, hqeq, ih]

/-- The operations of a packet are all rotations and plain gates, or all
decoherence with probabilities. -/
def OneKind (items : List (Group × StreamOperation)) : Prop :=
  (∀ i ∈ items, i.2.category ≠ .decoherence ∧ ∀ p, i.1.trail ≠ .probability p) ∨
    ∀ i ∈ items, i.2.category = .decoherence ∧ ∃ p, i.1.trail = .probability p

theorem probabilities_eq_nil (h : ∀ i ∈ items, ∀ p, i.1.trail ≠ .probability p) :
    probabilities (items.map Prod.fst) = [] := by
  refine List.filterMap_eq_nil_iff.mpr (List.forall_mem_map.mpr fun i hi => ?_)
  cases htrail : i.1.trail with
  | none => rfl
  | angle w => rfl
  | probability p => exact absurd htrail (h i hi p)

theorem angleWords_eq_nil (h : ∀ i ∈ items, ∃ p, i.1.trail = .probability p) :
    angleWords (items.map Prod.fst) = [] := by
  refine List.filterMap_eq_nil_iff.mpr (List.forall_mem_map.mpr fun i hi => ?_)
  obtain ⟨p, hp⟩ := h i hi
  simp [hp]

theorem length_probabilities (h : ∀ i ∈ items, ∃ p, i.1.trail = .probability p) :
    (probabilities (items.map Prod.fst)).length = items.length := by
  induction items with
  | nil => rfl
  | cons i rest ih =>
    obtain ⟨p, hp⟩ := h i List.mem_cons_self
    have ih := ih fun j hj => h j (List.mem_cons_of_mem _ hj)
    simp only [probabilities, List.map_cons, List.filterMap_cons, hp, List.length_cons] at ih ⊢
    rw [ih]

theorem length_angleWords (hcarries : ∀ i ∈ items, i.2.Carries i.1.trail) :
    (angleWords (items.map Prod.fst)).length =
      (items.filter fun i => Gate.encodesAngle i.2.gate).length := by
  induction items with
  | nil => rfl
  | cons i rest ih =>
    have ih := ih fun j hj => hcarries j (List.mem_cons_of_mem _ hj)
    have hi := hcarries i List.mem_cons_self
    cases htrail : i.1.trail <;> rw [htrail] at hi <;>
      simp only [angleWords, List.map_cons, List.filterMap_cons, htrail, List.filter_cons, hi.1,
        List.length_cons] at ih ⊢
    case none => simpa using ih
    case angle w => simpa using ih
    case probability p => simpa using ih

theorem attach_probabilities (hne : items ≠ []) (hcarries : ∀ i ∈ items, i.2.Carries i.1.trail)
    (hall : ∀ i ∈ items, i.2.category = .decoherence ∧ ∃ p, i.1.trail = .probability p) (more : List Fixed) :
    attach (items.map fun i => i.2.bare) (probabilityWords (probabilities (items.map Prod.fst) ++ more)) =
      items.map Prod.snd := by
  obtain ⟨i, hi⟩ := List.exists_mem_of_ne_nil _ hne
  rw [attach, if_pos, attachProbabilities_bare hcarries fun i hi => (hall i hi).2]
  simpa [Operation.bare] using ⟨i.1, i.2, hi, (hall i hi).1⟩

theorem attach_bare (hne : items ≠ []) (hkind : OneKind items)
    (hcarries : ∀ i ∈ items, i.2.Carries i.1.trail) :
    attach (items.map fun i => i.2.bare) (trailingWords (items.map Prod.fst)) = items.map Prod.snd := by
  rw [trailingWords]
  rcases hkind with hplain | hall
  · rw [attach, if_neg, probabilities_eq_nil fun i hi => (hplain i hi).2, probabilityWords, List.append_nil,
      attachAngles_bare hcarries fun i hi => (hplain i hi).2]
    simpa [Operation.bare] using fun g o h => (hplain (g, o) h).1
  · have hattach := attach_probabilities hne hcarries hall []
    rw [List.append_nil] at hattach
    rw [angleWords_eq_nil fun i hi => (hall i hi).2, List.nil_append, hattach]

theorem trailingCount_bare (hkind : OneKind items) (hcarries : ∀ i ∈ items, i.2.Carries i.1.trail) :
    trailingCount (items.map fun i => i.2.bare) = (trailingWords (items.map Prod.fst)).length := by
  have hangles : ((items.map fun i => i.2.bare).filter fun o => Gate.encodesAngle o.gate).length =
      (angleWords (items.map Prod.fst)).length := by
    rw [length_angleWords hcarries, List.filter_map, List.length_map]
    rfl
  rw [trailingCount, trailingWords, List.length_append, length_probabilityWords, hangles]
  congr 1
  rcases hkind with hplain | hall
  · rw [probabilities_eq_nil fun i hi => (hplain i hi).2, List.filter_eq_nil_iff.mpr]
    · rfl
    · exact List.forall_mem_map.mpr fun i hi => by simp [Operation.bare, (hplain i hi).1]
  · rw [length_probabilities fun i hi => (hall i hi).2, List.filter_eq_self.mpr, List.length_map]
    exact List.forall_mem_map.mpr fun i hi => decide_eq_true (hall i hi).1

end

-- ---------------------------------------------------------------------------
-- Words between packets
-- ---------------------------------------------------------------------------

def Operation.placed (slice : Nat) (last : Bool) (o : StreamOperation) : StreamOperation :=
  { o with slice := slice, last := last }

def Operation.later (slices : Nat) (o : StreamOperation) : StreamOperation :=
  { o with slice := o.slice + slices }

namespace DecodeState

theorem foldlM_trailing {y : Layout} {ops : List StreamOperation} {ws newest : List Word} {s : DecodeState}
    (hne : ws ≠ []) (hp : s.pending = some ⟨ops, ws.length, newest⟩) :
    ws.foldlM (step y) s =
      .ok { s with
        read := s.read + ws.length
        done := s.done ++ attach ops (newest.reverse ++ ws)
        pending := none } := by
  induction ws generalizing s newest with
  | nil => exact absurd rfl hne
  | cons w rest ih =>
    rw [List.foldlM_cons, step, hp]
    cases rest with
    | nil => simp [takeTrailing, bind, Except.bind, pure, Except.pure]
    | cons v rest =>
      have hmore : ¬ (w :: v :: rest).length ≤ 1 := by simp
      simp only [takeTrailing, hmore, if_false, bind, Except.bind]
      refine (ih (List.cons_ne_nil _ _) rfl).trans ?_
      simp
      omega

theorem foldlM_packet {y : Layout} {ops : List StreamOperation} {w : Word} {ws : List Word}
    {s : DecodeState} (hs : s.pending = none)
    (hops : ∀ number, (HeaderWord.mk number w).operations y = .ok ops)
    (hcount : trailingCount ops = ws.length) :
    (w :: ws).foldlM (step y) s =
      .ok { s with
        read := s.read + (w :: ws).length
        slice := s.slice + w.isLast.toNat
        done := s.done ++ attach (ops.map (Operation.placed s.slice w.isLast)) ws
        pending := none } := by
  have hplaced : trailingCount (ops.map (Operation.placed s.slice w.isLast)) = ws.length :=
    (trailingCount_map (Operation.placed s.slice w.isLast) (fun _ => rfl) (fun _ => rfl) ops).trans hcount
  have hstep : step y s w = if ws.length = 0 then
      .ok { s with
        read := s.read + 1, slice := s.slice + w.isLast.toNat,
        done := s.done ++ ops.map (Operation.placed s.slice w.isLast), pending := none }
      else .ok { s with
        read := s.read + 1, slice := s.slice + w.isLast.toNat,
        pending := some ⟨ops.map (Operation.placed s.slice w.isLast), ws.length, []⟩ } := by
    simp only [step, hs, takeHeader, hops, bind, Except.bind, pure, Except.pure]
    rw [← hplaced]
    rfl
  rw [List.foldlM_cons, hstep]
  cases ws with
  | nil => simp [bind, Except.bind, pure, Except.pure]
  | cons v ws =>
    rw [if_neg (by simp)]
    simp only [bind, Except.bind]
    rw [foldlM_trailing (List.cons_ne_nil _ _) rfl]
    simp
    omega

end DecodeState

/-- Between packets the words are read as the operations and end the given
number of timeslices; the timeslices of the operations count from there. -/
def Reads (y : Layout) (ws : List Word) (slices : Nat) (ops : List StreamOperation) : Prop :=
  ∀ s : DecodeState, s.pending = none →
    ws.foldlM (DecodeState.step y) s =
      .ok { read := s.read + ws.length
            slice := s.slice + slices
            done := s.done ++ ops.map (Operation.later s.slice)
            pending := none }

namespace Reads
variable {y : Layout}

theorem nil : Reads y [] 0 [] := by
  intro s hs
  obtain ⟨read, slice, done, pending⟩ := s
  simp only at hs
  simp [hs, pure, Except.pure]

theorem append {ws vs : List Word} {m n : Nat} {ops more : List StreamOperation} (hw : Reads y ws m ops)
    (hv : Reads y vs n more) : Reads y (ws ++ vs) (m + n) (ops ++ more.map (Operation.later m)) := by
  intro s hs
  have hlater : more.map (Operation.later (s.slice + m)) =
      (more.map (Operation.later m)).map (Operation.later s.slice) := by
    rw [List.map_map]
    refine List.map_congr_left fun o _ => ?_
    simp only [Operation.later, Function.comp]
    congr 1
    omega
  rw [List.foldlM_append, hw s hs]
  simp only [bind, Except.bind]
  rw [hv _ rfl]
  simp [hlater, Nat.add_assoc]

theorem append_zero {ws vs : List Word} {n : Nat} {ops more : List StreamOperation}
    (hw : Reads y ws 0 ops) (hv : Reads y vs n more) : Reads y (ws ++ vs) n (ops ++ more) := by
  have hzero : more.map (Operation.later 0) = more := by
    rw [show Operation.later 0 = id from rfl, List.map_id]
  simpa [hzero] using hw.append hv

theorem decode {ws : List Word} {qubits : Int} {n : Nat} {ops : List StreamOperation}
    (h : Reads (.ofCount qubits) ws n ops) : decode ws qubits = .ok ops := by
  have hzero : ops.map (Operation.later 0) = ops := by
    rw [show Operation.later 0 = id from rfl, List.map_id]
  simp [Sequencer.decode, h {} rfl, bind, Except.bind, DecodeState.finish, hzero]

theorem header {l : Lane} {last : Bool} {items : List (Group × StreamOperation)} {ws : List Word}
    (hne : items ≠ []) (hitems : ∀ i ∈ items, Legible y l i.1 i.2) (hlen : items.length ≤ l.room / y.width l)
    (hclear : ∀ i ∈ items.tail.getLast?, Clear i.1.fields)
    (hcount : trailingCount (items.map fun i => i.2.bare) = ws.length)
    (hattach : attach (items.map fun i => i.2.bare) ws = items.map Prod.snd) :
    Reads y (headerWord l last (items.map Prod.fst) :: ws) last.toNat
      (items.map fun i => i.2.placed 0 last) := by
  obtain ⟨hwidth, hle⟩ := HeaderWord.totalWidth_groups hitems hlen
  have hlast : (headerWord l last (items.map Prod.fst)).isLast = last :=
    Word.isLast_of_holds (holds_headerWord (hwidth ▸ hle) last)
  intro s hs
  have hplaced : attach ((items.map fun i => i.2.bare).map (Operation.placed s.slice last)) ws =
      (items.map fun i => i.2.placed 0 last).map (Operation.later s.slice) := by
    rw [attach_map (Operation.placed s.slice last) (fun _ => rfl) (fun _ => rfl) (fun _ _ => rfl)
      fun _ _ => rfl, hattach, List.map_map, List.map_map]
    exact List.map_congr_left fun i _ => by simp [Operation.later, Operation.placed]
  rw [DecodeState.foldlM_packet hs
    (fun number => HeaderWord.operations_headerWord hne hitems hlen last number hclear) hcount, hlast, hplaced]

theorem oneKind_of_legible {l : Lane} {items : List (Group × StreamOperation)}
    (hitems : ∀ i ∈ items, Legible y l i.1 i.2) : OneKind items := by
  by_cases hl : l = .decoherence
  · refine .inr fun i hi => ⟨?_, (hitems i hi).probability.mp hl⟩
    rw [(hitems i hi).category, hl]
    rfl
  · refine .inl fun i hi => ⟨?_, fun p hp => hl ((hitems i hi).probability.mpr ⟨p, hp⟩)⟩
    rw [(hitems i hi).category]
    cases l <;> simp_all [Lane.category]

theorem lane {l : Lane} {last : Bool} {items : List (Group × StreamOperation)} (hne : items ≠ [])
    (hitems : ∀ i ∈ items, Legible y l i.1 i.2) (hcarries : ∀ i ∈ items, i.2.Carries i.1.trail)
    (hlen : items.length ≤ l.room / y.width l) (hclear : ∀ i ∈ items.tail.getLast?, Clear i.1.fields) :
    Reads y (packetWords l last (items.map Prod.fst)) last.toNat
      (items.map fun i => i.2.placed 0 last) := by
  have hkind := oneKind_of_legible hitems
  exact header hne hitems hlen hclear (trailingCount_bare hkind hcarries) (attach_bare hne hkind hcarries)

theorem measured {last : Bool} {qubits : List Nat} (hne : qubits ≠ [])
    (hlen : qubits.length ≤ fieldsPerWord y.qubitBits) (hlt : ∀ q ∈ qubits, q < y.qubits)
    (hclear : ∀ q ∈ qubits.tail.getLast?, q + 1 < 2 ^ y.qubitBits) :
    Reads y [measuredWord y.qubitBits last qubits] last.toNat
      (qubits.map fun (q : Nat) => { category := .measurement, qubit := q, last := last }) := by
  have hlast : (measuredWord y.qubitBits last qubits).isLast = last :=
    Word.isLast_of_holds (holds_measuredWord (length_mul_le hlen) last)
  have hcount : trailingCount (qubits.map fun (q : Nat) =>
      ({ category := .measurement, qubit := q } : StreamOperation)) = ([] : List Word).length := by
    simp [trailingCount, List.filter_map, Function.comp_def, Gate.encodesAngle_empty]
  intro s hs
  rw [DecodeState.foldlM_packet hs
    (fun number => HeaderWord.operations_measured number hne hlen hlt hclear) hcount, hlast]
  simp [Function.comp_def, Operation.placed, Operation.later]

end Reads

end Sequencer
