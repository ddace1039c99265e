import Mathlib.Tactic.Choose
import Sequencer.Circuit.Loading
import Sequencer.Proofs.Checked
import Sequencer.Proofs.Json.Numbers
import Sequencer.Proofs.Json.Records

/-!
# Reading the document of a circuit

The document of a circuit is written when its parameters are finite, and read
over nothing it says what the circuit holds: `Circuit.draft`. Each part has one
lemma, which says that it is written, that its text can be read and what a
reader finds in it.

Integers are those of 64 bits. That the text of a parameter is read as the
parameter is assumed of numbers in general and not proved of any.
-/

namespace Sequencer

open Json

def Integer.InRange (n : Int) : Prop := -(Integer.bound : Int) ≤ n ∧ n < Integer.bound

instance (n : Int) : Decidable (Integer.InRange n) := inferInstanceAs (Decidable (_ ∧ _))

theorem Integer.inRange_of_nat {n : Nat} (h : n < Integer.bound) : Integer.InRange n := by
  unfold InRange
  omega

theorem finds_int {n : Int} (h : Integer.InRange n) : Finds overInt (.ofInt n) n := by
  intro old
  rw [Json.ofInt, overInt, Decimal.readInt_toString h.1 h.2]
  rfl

theorem written_int {depth : Nat} (n : Int) : Written depth (.ofInt n) := by
  obtain ⟨s, hs⟩ := spelled_int n
  exact .number s hs

-- ---------------------------------------------------------------------------
-- Nodes
-- ---------------------------------------------------------------------------

/-- The integers of a condition have 64 bits, and its kind is the one that its
code stands for. -/
structure Condition.Representable (k : Condition) : Prop where
  value : Integer.InRange k.value
  code : Integer.InRange k.kind.code
  kind : TestKind.ofCode k.kind.code = k.kind

/-- A finite number whose text in a document is read as the number. -/
structure Faithful (x : Float) : Prop where
  finite : x.isFinite = true
  read : Decimal.readFloat (Decimal.text .json x) = .ok x

instance (x : Float) : Decidable (Faithful x) :=
  decidable_of_iff (x.isFinite = true ∧ Decimal.readFloat (Decimal.text .json x) = .ok x)
    ⟨fun h => ⟨h.1, h.2⟩, fun h => ⟨h.finite, h.read⟩⟩

structure Node.Representable (n : Node) : Prop where
  timeslice : Integer.InRange n.timeslice
  params : ∀ x ∈ n.params, Faithful x
  cond : ∀ k ∈ n.cond, k.Representable

theorem Condition.finds_toJson {k : Condition} (h : k.Representable) :
    Finds Condition.overJson k.toJson k := by
  intro old
  simp only [Condition.overJson, Condition.toJson, overRecord]
  rw [overMembers_field _ rfl (finds_string k.register _), overMembers_field _ rfl (finds_int h.value _),
    overMembers_field _ rfl (finds_int h.code _)]
  simp [overMembers, h.kind]

theorem Condition.written_toJson {depth : Nat} (k : Condition) : Written (depth + 1) k.toJson := by
  refine .object ?_
  simp only [List.forall_mem_cons, List.not_mem_nil, false_implies, implies_true, and_true]
  exact ⟨.string _, written_int _, written_int _⟩

theorem written_strings {depth : Nat} (l : List String) : Written (depth + 1) (.strings l) := by
  refine .array ?_
  simp only [List.forall_mem_map]
  exact fun s _ => .string s

theorem finds_float {x : Float} (h : Faithful x) : Finds overFloat (.ofFloat x) x := by
  intro old
  rw [Json.ofFloat, overFloat, h.read]
  rfl

theorem written_floats {depth : Nat} {l : List Float} (h : ∀ x ∈ l, Faithful x) :
    Written (depth + 1) (.array (l.map Json.ofFloat)) := by
  refine .array ?_
  simp only [List.forall_mem_map]
  intro x hx
  obtain ⟨s, hs⟩ := spelled_float (h x hx).read
  exact .number s hs

def Node.draft (n : Node) : NodeDraft where
  node := { n with partners := [], bits := [], params := [] }
  partners := ⟨n.partners, []⟩
  bits := ⟨n.bits, []⟩
  params := ⟨n.params, []⟩

@[simp] theorem Node.toNode_draft (n : Node) : n.draft.toNode = n := rfl

/-- An empty list is left out, and read as the empty list that was there. -/
theorem overMembers_optional {α β : Type} {fields : List (RecordField α)} {name : String}
    {get : α → Layers β} {set : Layers β → α → α} {zero : β} {item : Over β} {write : β → Json}
    {l : List β} {a : α} {empty : Bool}
    (hempty : empty = l.isEmpty) (hget : get a = {}) (hset : set {} a = a)
    (hfield : fieldFor? fields name = some (field name get set (overList zero item)))
    (h : ∀ b ∈ l, Finds item (write b) b) :
    overMembers fields a (if empty then [] else [(name, .array (l.map write))]) = some (set ⟨l, []⟩ a) := by
  cases l with
  | nil => simp [hempty, overMembers, hset]
  | cons b rest =>
    rw [hempty, List.isEmpty_cons, if_neg Bool.false_ne_true,
      overMembers_field _ hfield (hget ▸ overList_map h)]
    rfl

theorem forall_mem_unless {α : Type} {P : α → Prop} {b : Bool} {x : α} (h : P x) :
    ∀ e ∈ (if b then [] else [x]), P e := by
  cases b <;> simp [h]

theorem Node.toJson_spec {n : Node} (h : n.Representable) (depth : Nat) :
    ∃ members, n.toJson = .ok (.object members) ∧ Written (depth + 2) (.object members) ∧
      NodeDraft.overJson {} (.object members) = some n.draft := by
  have hparams : n.params.mapM Json.ofFloat? = .ok (n.params.map Json.ofFloat) :=
    mapM_eq_map fun x hx => by simp [Json.ofFloat?, (h.params x hx).finite]
  refine ⟨_, by simp only [Node.toJson, hparams]; rfl, ?_, ?_⟩
  · refine .object ?_
    simp only [List.forall_mem_append, List.forall_mem_cons, List.not_mem_nil, false_implies,
      implies_true, and_true]
    refine ⟨⟨⟨⟨⟨⟨.string _, .bool _⟩, forall_mem_unless (written_strings _)⟩,
      forall_mem_unless (written_strings _)⟩, forall_mem_unless (written_floats h.params)⟩, ?_⟩, ?_⟩
    · exact ⟨.bool _, written_int _, .bool _, .bool _, .bool _, .bool _⟩
    · cases n.cond with
      | none => simp
      | some k => simpa using k.written_toJson
  · simp only [NodeDraft.overJson, overRecord, overMembers_append, Json.strings]
    rw [overMembers_field _ rfl (finds_string n.gate _), overMembers_field _ rfl (finds_bool n.controlled _),
      overMembers_nil, Option.bind_some,
      overMembers_optional (by rfl) (by rfl) (by rfl) rfl fun s _ => finds_string s, Option.bind_some,
      overMembers_optional (by rfl) (by rfl) (by rfl) rfl fun s _ => finds_string s, Option.bind_some,
      overMembers_optional (by simp) (by rfl) (by rfl) rfl fun x hx => finds_float (h.params x hx),
      Option.bind_some]
    change (overMembers _ (⟨{ gate := n.gate, controlled := n.controlled }, ⟨n.partners, []⟩,
      ⟨n.bits, []⟩, ⟨n.params, []⟩⟩ : NodeDraft) _).bind _ = _
    rw [overMembers_field _ rfl (finds_bool n.target _), overMembers_field _ rfl (finds_int h.timeslice _),
      overMembers_field _ rfl (finds_bool n.hasParameter _),
      overMembers_field _ rfl (finds_bool n.measurement _), overMembers_field _ rfl (finds_bool n.reset _),
      overMembers_field _ rfl (finds_bool n.barrier _), overMembers_nil, Option.bind_some]
    change overMembers _ { n.draft with node := { n.draft.node with cond := none } } _ = _
    cases hcond : n.cond with
    | none =>
      rw [overMembers_nil, ← hcond]
      rfl
    | some k =>
      have hfound : overOptional Condition.zero Condition.overJson none k.toJson = some (some k) := by
        simpa [overOptional, Condition.toJson] using Condition.finds_toJson (h.cond k hcond) Condition.zero
      rw [overMembers_field _ rfl hfound, overMembers_nil, ← hcond]
      rfl

-- ---------------------------------------------------------------------------
-- Registers
-- ---------------------------------------------------------------------------

theorem Register.finds_toJson {r : Register} (h : Integer.InRange r.size) :
    Finds Register.overJson r.toJson r := by
  intro old
  simp only [Register.overJson, Register.toJson, overRecord]
  rw [overMembers_field _ rfl (finds_string r.name _), overMembers_field _ rfl (finds_int h _),
    overMembers_nil]

theorem Register.written_toJson {depth : Nat} (r : Register) : Written (depth + 1) r.toJson := by
  refine .object ?_
  simp only [List.forall_mem_cons, List.not_mem_nil, false_implies, implies_true, and_true]
  exact ⟨.string _, written_int _⟩

namespace Circuit

theorem overList_registersJson {registers : List Register}
    (h : ∀ r ∈ registers, Integer.InRange r.size) :
    overList ⟨"", 0⟩ Register.overJson {} (registersJson registers) = some ⟨registers, []⟩ := by
  unfold registersJson
  split
  · rename_i hempty
    rw [List.isEmpty_iff.mp hempty]
    rfl
  · exact overList_map fun r hr => Register.finds_toJson (h r hr)

theorem written_registersJson {depth : Nat} (registers : List Register) :
    Written (depth + 2) (registersJson registers) := by
  unfold registersJson
  split
  · exact .null
  · refine .array ?_
    simp only [List.forall_mem_map]
    exact fun r _ => r.written_toJson

-- ---------------------------------------------------------------------------
-- Maps
-- ---------------------------------------------------------------------------

section
variable {α β : Type}

theorem sortedByKey_perm (l : List (String × α)) : (sortedByKey l).Perm l := List.mergeSort_perm l _

theorem mem_sortedByKey {l : List (String × α)} {e : String × α} : e ∈ sortedByKey l ↔ e ∈ l :=
  (sortedByKey_perm l).mem_iff

theorem nodup_sortedByKey {l : List (String × α)} (h : (l.map Prod.fst).Nodup) :
    ((sortedByKey l).map Prod.fst).Nodup :=
  ((sortedByKey_perm l).map _).nodup_iff.mpr h

theorem sortedByKey_map (l : List (String × α)) (f : α → β) :
    sortedByKey (l.map fun e => (e.1, f e.2)) = (sortedByKey l).map fun e => (e.1, f e.2) := by
  symm
  apply List.map_mergeSort
  intros
  rfl

theorem sortedObject_map (l : List (String × α)) (write : α → Json) :
    Json.sortedObject (l.map fun e => (e.1, write e.2)) =
      .object ((sortedByKey l).map fun e => (e.1, write e.2)) :=
  congrArg Json.object (sortedByKey_map l write)

theorem overMap_sortedObject {zero : β} {value : Over β} (write : α → Json) (found : α → β)
    {l : List (String × α)} (h : ∀ e ∈ l, value zero (write e.2) = some (found e.2))
    (distinct : (l.map Prod.fst).Nodup) :
    overMap zero value {} (.sortedObject (l.map fun e => (e.1, write e.2))) =
      some ⟨(sortedByKey l).map fun e => (e.1, found e.2)⟩ := by
  rw [sortedObject_map]
  exact overMap_map write found (fun e he => h e (mem_sortedByKey.mp he)) (nodup_sortedByKey distinct)

theorem written_sortedObject {depth : Nat} {write : α → Json} {l : List (String × α)}
    (h : ∀ e ∈ l, Written depth (write e.2)) :
    Written (depth + 1) (.sortedObject (l.map fun e => (e.1, write e.2))) := by
  rw [sortedObject_map]
  refine .object ?_
  simp only [List.forall_mem_map, mem_sortedByKey]
  exact h

end

theorem overMap_indexJson {names : List String} (nodup : names.Nodup) (h : names.length < Integer.bound) :
    overMap 0 overInt {} (indexJson names) =
      some ⟨(sortedByKey names.zipIdx).map fun e => (e.1, (e.2 : Int))⟩ := by
  have hkeys : (names.zipIdx.map Prod.fst).Nodup := by simpa using nodup
  rw [indexJson, indexMap, Assoc.ofList_eq hkeys]
  refine overMap_sortedObject Json.ofNat (fun i => (i : Int)) ?_ hkeys
  rintro ⟨name, i⟩ he
  have hi : i < names.length := by simpa using (List.mem_zipIdx he).2.1
  exact finds_int (Integer.inRange_of_nat (Nat.lt_trans hi h)) 0

theorem written_indexJson {depth : Nat} (names : List String) : Written (depth + 1) (indexJson names) :=
  written_sortedObject fun e _ => written_int e.2

theorem overMap_marksJson {marks : Assoc String Int} (nodup : marks.keys.Nodup)
    (h : ∀ e ∈ marks.entries, Integer.InRange e.2) :
    overMap 0 overInt {} (marksJson marks) = some ⟨sortedByKey marks.entries⟩ := by
  have hread : overMap 0 overInt {} (marksJson marks) =
      some ⟨(sortedByKey marks.entries).map fun e => (e.1, id e.2)⟩ :=
    overMap_sortedObject Json.ofInt id (fun e he => finds_int (h e he) 0) nodup
  simpa using hread

theorem written_marksJson {depth : Nat} (marks : Assoc String Int) : Written (depth + 1) (marksJson marks) :=
  written_sortedObject fun e _ => written_int e.2

-- ---------------------------------------------------------------------------
-- Timelines
-- ---------------------------------------------------------------------------

section
variable {α : Type}

def keyed (line : Timeline α) : List (String × α) := line.entries.map fun e => (toString e.1, e.2)

def byText (line : Timeline α) : List (Int × α) :=
  line.entries.mergeSort fun a b => toString a.1 ≤ toString b.1

theorem byText_perm (line : Timeline α) : (byText line).Perm line.entries := List.mergeSort_perm _ _

theorem sortedByKey_keyed (line : Timeline α) :
    sortedByKey (keyed line) = (byText line).map fun e => (toString e.1, e.2) := by
  symm
  apply List.map_mergeSort
  intros
  rfl

theorem nodup_keyed {line : Timeline α} (h : ∀ e ∈ line.entries, Integer.InRange e.1) :
    ((keyed line).map Prod.fst).Nodup := by
  rw [keyed, List.map_map]
  refine List.pairwise_map.mpr (line.ordered.imp_of_mem fun {a b} ha hb hlt heq => ?_)
  have hread := Decimal.readInt_toString (h a ha).1 (h a ha).2
  have hread' := Decimal.readInt_toString (h b hb).1 (h b hb).2
  simp only [Function.comp_apply] at heq
  rw [heq, hread', Except.ok.injEq] at hread
  omega

end

def writesDraft (line : Timeline String) : Assoc String String :=
  ⟨(byText line).map fun e => (toString e.1, e.2)⟩

theorem overMap_writesJson {line : Timeline String} (h : ∀ e ∈ line.entries, Integer.InRange e.1) :
    overMap "" overString {} (writesJson line) = some (writesDraft line) := by
  have hjson : writesJson line = .sortedObject ((keyed line).map fun e => (e.1, .string e.2)) := by
    simp [writesJson, keyed, Function.comp_def]
  have hread : overMap "" overString {} (writesJson line) =
      some ⟨(sortedByKey (keyed line)).map fun e => (e.1, id e.2)⟩ :=
    hjson ▸ overMap_sortedObject Json.string id (fun e _ => finds_string e.2 "") (nodup_keyed h)
  simpa [writesDraft, sortedByKey_keyed, Function.comp_def] using hread

theorem written_writesJson {depth : Nat} (line : Timeline String) : Written (depth + 1) (writesJson line) := by
  refine .object fun e he => ?_
  obtain ⟨w, -, rfl⟩ := List.mem_map.mp ((List.mergeSort_perm _ _).mem_iff.mp he)
  exact .string _

def lineDraft (line : Timeline Node) : Assoc String (Option NodeDraft) :=
  ⟨(byText line).map fun e => (toString e.1, some e.2.draft)⟩

theorem timelineJson_spec {line : Timeline Node} (h : ∀ e ∈ line.entries, Integer.InRange e.1)
    (nodes : ∀ e ∈ line.entries, e.2.Representable) (depth : Nat) :
    ∃ j, timelineJson line = .ok j ∧ Written (depth + 3) j ∧
      overMap none (overOptional {} NodeDraft.overJson) {} j = some (lineDraft line) := by
  have hnodes : ∀ e ∈ sortedByKey (keyed line), e.2.Representable := by
    intro e he
    obtain ⟨x, hx, rfl⟩ := List.mem_map.mp (mem_sortedByKey.mp he)
    exact nodes x hx
  choose! members hok hwritten hread using fun (n : Node) (h : n.Representable) => n.toJson_spec h depth
  refine ⟨.object ((sortedByKey (keyed line)).map fun e => (e.1, .object (members e.2))), ?_, ?_, ?_⟩
  · have hall : (sortedByKey (keyed line)).mapM (fun e => do return (e.1, ← e.2.toJson)) =
        .ok ((sortedByKey (keyed line)).map fun e => (e.1, .object (members e.2))) :=
      mapM_eq_map fun e he => by rw [hok e.2 (hnodes e he)]; rfl
    have hdo : timelineJson line = (do
        let found ← (sortedByKey (keyed line)).mapM fun e => do return (e.1, ← e.2.toJson)
        return .object found) := rfl
    rw [hdo, hall]
    rfl
  · refine .object ?_
    simp only [List.forall_mem_map]
    exact fun e he => hwritten e.2 (hnodes e he)
  · have hfound : overMap none (overOptional {} NodeDraft.overJson) {}
        (.object ((sortedByKey (keyed line)).map fun e => (e.1, .object (members e.2)))) =
          some ⟨(sortedByKey (keyed line)).map fun e => (e.1, some e.2.draft)⟩ := by
      refine overMap_map (fun n => .object (members n)) (fun n => some n.draft) ?_
        (nodup_sortedByKey (nodup_keyed h))
      intro e he
      simp [overOptional, hread e.2 (hnodes e he)]
    rw [hfound, sortedByKey_keyed, List.map_map]
    rfl

-- ---------------------------------------------------------------------------
-- Circuits
-- ---------------------------------------------------------------------------

/-- Every integer of the circuit has 64 bits, its parameters can be written and
read, and its maps have no key twice. -/
structure Documentable (c : Circuit) : Prop where
  quantum : ∀ r ∈ c.quantum, Integer.InRange r.size
  classical : ∀ r ∈ c.classical, Integer.InRange r.size
  qubits : c.qubits.Nodup ∧ c.qubits.length < Integer.bound
  bits : c.bits.Nodup ∧ c.bits.length < Integer.bound
  qubitMarks : c.qubitMarks.keys.Nodup ∧ ∀ e ∈ c.qubitMarks.entries, Integer.InRange e.2
  bitMarks : c.bitMarks.keys.Nodup ∧ ∀ e ∈ c.bitMarks.entries, Integer.InRange e.2
  lastSlice : Integer.InRange c.lastSlice
  lastMeasured : Integer.InRange c.lastMeasured
  writes : c.writes.keys.Nodup ∧ ∀ e ∈ c.writes.entries, ∀ w ∈ e.2.entries, Integer.InRange w.1
  timelines : c.timelines.keys.Nodup ∧ ∀ e ∈ c.timelines.entries, ∀ x ∈ e.2.entries,
    Integer.InRange x.1 ∧ x.2.Representable

def draft (c : Circuit) : CircuitDraft where
  name := c.name
  quantum := ⟨c.quantum, []⟩
  classical := ⟨c.classical, []⟩
  qubitIndex := ⟨(sortedByKey c.qubits.zipIdx).map fun e => (e.1, (e.2 : Int))⟩
  bitIndex := ⟨(sortedByKey c.bits.zipIdx).map fun e => (e.1, (e.2 : Int))⟩
  qubitMarks := ⟨sortedByKey c.qubitMarks.entries⟩
  bitMarks := ⟨sortedByKey c.bitMarks.entries⟩
  lastSlice := c.lastSlice
  lastMeasured := c.lastMeasured
  writes := ⟨(sortedByKey c.writes.entries).map fun e => (e.1, writesDraft e.2)⟩
  nodes := ⟨(sortedByKey c.timelines.entries).map fun e => (e.1, lineDraft e.2)⟩

theorem toJson_spec {c : Circuit} (h : c.Documentable) :
    ∃ j, c.toJson = .ok j ∧ Written 5 j ∧ CircuitDraft.overJson {} j = some c.draft := by
  have hlines : ∀ e ∈ sortedByKey c.timelines.entries, (∀ x ∈ e.2.entries, Integer.InRange x.1) ∧
      ∀ x ∈ e.2.entries, x.2.Representable := fun e he =>
    have := h.timelines.2 e (mem_sortedByKey.mp he)
    ⟨fun x hx => (this x hx).1, fun x hx => (this x hx).2⟩
  choose! json hok hwritten hread using
    fun (line : Timeline Node) (h : (∀ x ∈ line.entries, Integer.InRange x.1) ∧
      ∀ x ∈ line.entries, x.2.Representable) => timelineJson_spec h.1 h.2 0
  have hall : (sortedByKey c.timelines.entries).mapM (fun e => do return (e.1, ← timelineJson e.2)) =
      .ok ((sortedByKey c.timelines.entries).map fun e => (e.1, json e.2)) :=
    mapM_eq_map fun e he => by rw [hok e.2 (hlines e he)]; rfl
  refine ⟨_, by simp only [toJson]; rw [hall]; rfl, ?_, ?_⟩
  · refine .object ?_
    simp only [List.forall_mem_cons, List.not_mem_nil, false_implies, implies_true, and_true]
    refine ⟨.string _, written_registersJson _, written_registersJson _, written_indexJson _,
      written_indexJson _, written_marksJson _, written_marksJson _, written_int _, written_int _, ?_, ?_⟩
    · exact written_sortedObject fun e _ => written_writesJson e.2
    · refine .object ?_
      simp only [List.forall_mem_map]
      exact fun e he => hwritten e.2 (hlines e he)
  · have hwrites := overMap_sortedObject writesJson writesDraft
      (fun e he => overMap_writesJson (h.writes.2 e he)) h.writes.1
    have hnodes := overMap_map json lineDraft (fun e he => hread e.2 (hlines e he))
      (nodup_sortedByKey h.timelines.1)
    simp only [CircuitDraft.overJson, overRecord]
    rw [overMembers_field _ rfl (finds_string c.name _),
      overMembers_field _ rfl (by exact overList_registersJson h.quantum),
      overMembers_field _ rfl (by exact overList_registersJson h.classical),
      overMembers_field _ rfl (by exact overMap_indexJson h.qubits.1 h.qubits.2),
      overMembers_field _ rfl (by exact overMap_indexJson h.bits.1 h.bits.2),
      overMembers_field _ rfl (by exact overMap_marksJson h.qubitMarks.1 h.qubitMarks.2),
      overMembers_field _ rfl (by exact overMap_marksJson h.bitMarks.1 h.bitMarks.2),
      overMembers_field _ rfl (finds_int h.lastSlice _),
      overMembers_field _ rfl (finds_int h.lastMeasured _), overMembers_field _ rfl (by exact hwrites),
      overMembers_field _ rfl (by exact hnodes), overMembers_nil]
    rfl

end Circuit

end Sequencer
