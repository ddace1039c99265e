import Sequencer.Assoc
import Sequencer.Decimal.Reader
import Sequencer.Json.Value

/-!
# Records from JSON

A reader lays a JSON value over the value read so far, because a member may be
repeated: the fields of a repeated object merge, and so do the entries of a
repeated map. A null leaves a plain field as it is. Readers answer nothing for
a value of the wrong type.
-/

namespace Sequencer.Json

/-- Lays a JSON value over the value read so far. -/
abbrev Over (α : Type) : Type := α → Json → Option α

def overString : Over String
  | old, .null => some old
  | _, .string s => some s
  | _, _ => none

def overBool : Over Bool
  | old, .null => some old
  | _, .bool b => some b
  | _, _ => none

def overInt : Over Int
  | old, .null => some old
  | _, .number spelling => (Decimal.readInt spelling).toOption
  | _, _ => none

def overFloat : Over Float
  | old, .null => some old
  | _, .number spelling => (Decimal.readFloat spelling).toOption
  | _, _ => none

/-- A list with the elements of longer lists that it was laid over. -/
structure Layers (α : Type) where
  items : List α := []
  covered : List α := []

def overItems {α : Type} (zero : α) (item : Over α) : List α → List Json → Option (List α)
  | _, [] => some []
  | earlier, j :: rest => do
    let a ← item (earlier.headD zero) j
    let more ← overItems zero item earlier.tail rest
    return a :: more

/-- A repeated list takes the place of the earlier one, element over element.
An empty list or a null forgets what was there. -/
def overList {α : Type} (zero : α) (item : Over α) : Over (Layers α)
  | _, .null => some {}
  | _, .array [] => some {}
  | old, .array js => do
    let below := old.items ++ old.covered
    let items ← overItems zero item below js
    return ⟨items, below.drop items.length⟩
  | _, _ => none

/-- Reads entries in order into the map; the value of a repeated key is read afresh. -/
def overEntries {α : Type} (zero : α) (value : Over α) :
    Assoc String α → List (String × Json) → Option (Assoc String α)
  | m, [] => some m
  | m, (key, j) :: rest => do
    let a ← value zero j
    overEntries zero value (m.insert key a) rest

def overMap {α : Type} (zero : α) (value : Over α) : Over (Assoc String α)
  | _, .null => some {}
  | m, .object members => overEntries zero value m members
  | _, _ => none

def overOptional {α : Type} (zero : α) (value : Over α) : Over (Option α)
  | _, .null => some none
  | old, j => (value (old.getD zero) j).map some

/-- Letters without regard to case; the long s and the Kelvin sign count as
the letters they are forms of. -/
def foldChar (c : Char) : Char :=
  if c.toNat = 0x17f then 'S' else if c.toNat = 0x212a then 'K' else c.toUpper

def foldName (name : String) : List Char := name.toList.map foldChar

structure RecordField (α : Type) where
  name : String
  read : Over α

/-- The field that a member belongs to: by its exact name, or else without
regard to case. -/
def fieldFor? {α : Type} (fields : List (RecordField α)) (name : String) : Option (RecordField α) :=
  (fields.find? fun f => f.name == name).or
    (fields.find? fun f => foldName f.name == foldName name)

def overMembers {α : Type} (fields : List (RecordField α)) : α → List (String × Json) → Option α
  | a, [] => some a
  | a, (name, j) :: rest =>
    match fieldFor? fields name with
    | none => overMembers fields a rest
    | some f => (f.read a j).bind fun a => overMembers fields a rest

def overRecord {α : Type} (fields : List (RecordField α)) : Over α
  | old, .null => some old
  | old, .object members => overMembers fields old members
  | _, _ => none

def field {α β : Type} (name : String) (get : α → β) (set : β → α → α) (read : Over β) : RecordField α :=
  ⟨name, fun a j => (read (get a) j).map fun b => set b a⟩

end Sequencer.Json
