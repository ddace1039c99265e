import Sequencer.Decimal.Binary
import Sequencer.Yaml.Node
import Sequencer.Yaml.Resolution

/-!
# Values of YAML nodes

Nodes are laid over values: a key that is not given leaves its part as it was.
A part of the wrong type is left as it was too, and the rest is still visited,
because a node without any value is the graver fault. Following aliases is
limited, so that a short document cannot stand for an endless one.
-/

namespace Sequencer.Yaml

structure Decoding where
  anchored : List (Nat × Node)
  depth : Nat
  visits : Nat := 0
  /-- How many of the visits happened behind an alias. -/
  aliasVisits : Nat := 0
  followed : List Nat := []

abbrev Decode (α : Type) : Type := StateT Decoding Option α

/-- Lays a node over a value. The answer is the new value and whether every
part had the right type. -/
abbrev Over (α : Type) : Type := α → Node → Decode (α × Bool)

def allowedShare (visits : Nat) : Float :=
  if visits ≤ 400000 then 0.99
  else if 4000000 ≤ visits then 0.10
  else 0.99 - 0.89 * ((visits - 400000).toFloat / 3600000.0)

def isExcessive (visits aliasVisits : Nat) : Bool :=
  100 < aliasVisits && 1000 < visits && aliasVisits.toFloat / visits.toFloat > allowedShare visits

def visit : Decode Unit := do
  let d ← get
  let visits := d.visits + 1
  let aliasVisits := if d.followed.isEmpty then d.aliasVisits else d.aliasVisits + 1
  if isExcessive visits aliasVisits then failure
  set { d with visits := visits, aliasVisits := aliasVisits }

def anchoredNode (target : Nat) : Decode Node := do
  let found := (← get).anchored.find? fun e => e.1 == target
  found.map Prod.snd

variable {α β : Type}

/-- Visits a node, or the node that an alias points to. An alias must not lead
back to itself. -/
def visiting (read : Over α) : Over α := fun a n => do
  visit
  match n with
  | .alias number target =>
    let d ← get
    if d.followed.contains number then failure
    set { d with followed := number :: d.followed }
    visit
    let r ← read a (← anchoredNode target)
    modify fun d => { d with followed := d.followed.tail }
    return r
  | n => read a n

-- ---------------------------------------------------------------------------
-- Scalars
-- ---------------------------------------------------------------------------

def scalarValue? (text tag : String) (plain : Bool) : Option Value :=
  if tag.isEmpty && !plain then some .text else taggedValue? (.ofTag tag) text

def scalarOver (zero : α) (convert : String → Value → Option α) : Over α
  | old, .scalar text tag plain => do
    match ← scalarValue? text tag plain with
    | .null => return (zero, true)
    | v => return ((convert text v).map fun a => (a, true)).getD (old, false)
  | old, _ => return (old, false)

def bareBool : Over Bool := scalarOver false fun _ v =>
  match v with
  | .bool b => some b
  | _ => none

def overBool : Over Bool := visiting bareBool

/-- The integer part of a number within 64 bits; below them it is the least
one. -/
def integerPart? (x : Float) : Option Int :=
  let bound : Int := Integer.bound
  if x.isNaN || x > 9223372036854775808.0 then none
  else
    match (Decimal.Binary.ofFloat x).truncateScaled 0 with
    | some n => some (if n < -bound ∨ bound ≤ n then -bound else n)
    | none => some (-bound)

def overInt : Over Int := visiting (scalarOver 0 fun _ v =>
  match v with
  | .int n => if n < Integer.bound then some n else none
  | .float x => integerPart? x
  | _ => none)

def overText : Over RawText := visiting (scalarOver "" fun text v =>
  match v with
  | .binary bytes => some ⟨bytes⟩
  | _ => some text)

def isBareNull : Node → Bool
  | .scalar text tag plain =>
    TagKind.ofTag tag = .null || (tag.isEmpty && (text = "null" || text = "~" || (text.isEmpty && plain)))
  | .mapping tag _ => TagKind.ofTag tag = .null
  | _ => false

/-- An optional value: the lower-case null takes it away, anything else is
laid over the value or over `zero`. `value` must not visit the node again. -/
def overOptional (zero : α) (value : Over α) : Over (Option α) := visiting fun old n =>
  if isBareNull n then scalarOver none (fun _ _ => none) old n
  else do
    let (a, ok) ← value (old.getD zero) n
    return (some a, ok)

-- ---------------------------------------------------------------------------
-- Records
-- ---------------------------------------------------------------------------

structure RecordField (α : Type) where
  name : String
  read : Over α

def field (name : String) (get : α → β) (set : β → α → α) (read : Over β) : RecordField α :=
  ⟨name, fun a n => do
    let (b, ok) ← read (get a) n
    return (set b a, ok)⟩

def isMerge : Node → Bool
  | .scalar "<<" tag plain => plain || tag = "tag:yaml.org,2002:merge"
  | _ => false

def isMapping : Node → Decode Bool
  | .mapping _ _ => return true
  | .alias _ target => do
    match ← anchoredNode target with
    | .mapping _ _ => return true
    | _ => return false
  | _ => return false

/-- The entries of a record in order: each field at most once, and no other
keys. A merge key lays further mappings over the record where it stands. -/
def overEntries (fields : List (RecordField α)) (merge : Over α) :
    List String → List (Node × Node) → α → Decode (α × Bool)
  | _, [], a => return (a, true)
  | seen, (k, n) :: rest, a => do
    if isMerge k then
      let (a, ok) ← merge a n
      let (a, more) ← overEntries fields merge seen rest a
      return (a, ok && more)
    else
      let (name, named) ← overText "" k
      match fields.find? fun f => named && RawText.ofString f.name == name with
      | some f =>
        if seen.contains f.name then
          let (a, _) ← overEntries fields merge seen rest a
          return (a, false)
        else
          let (a, ok) ← f.read a n
          let (a, more) ← overEntries fields merge (f.name :: seen) rest a
          return (a, ok && more)
      | none =>
        let (a, _) ← overEntries fields merge seen rest a
        return (a, false)

def overMappings (record : Over α) : List Node → α → Decode (α × Bool)
  | [], a => return (a, true)
  | n :: rest, a => do
    if !(← isMapping n) then failure
    let (a, ok) ← record a n
    let (a, more) ← overMappings record rest a
    return (a, ok && more)

/-- Mappings laid over a record by a merge key, the last one first. -/
def overMerged (record : Over α) : Over α := fun a n =>
  match n with
  | .sequence items => overMappings record items.reverse a
  | n => overMappings record [n] a

def overRecordTo (zero : α) (fields : List (RecordField α)) : Nat → Over α
  | 0 => fun _ _ => failure
  | depth + 1 => fun a n =>
    match n with
    | .mapping _ entries =>
      overEntries fields (overMerged (visiting (overRecordTo zero fields depth))) [] entries a
    | n => scalarOver zero (fun _ _ => none) a n

def overFields (zero : α) (fields : List (RecordField α)) : Over α := fun a n => do
  overRecordTo zero fields (← get).depth a n

def overRecord (zero : α) (fields : List (RecordField α)) : Over α := visiting (overFields zero fields)

def Document.over (d : Document) (read : Over α) (a : α) : Option (α × Bool) :=
  let whole : Decode (α × Bool) := do
    visit
    read a d.root
  (whole.run { anchored := d.anchored, depth := d.depth }).map Prod.fst

end Sequencer.Yaml
