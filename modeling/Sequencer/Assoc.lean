/-!
# Association lists

A finite map as a list of pairs that keeps each key where it first came.
Inserting under a present key replaces the value in its place, so two maps
that went through the same keys in the same order list them alike.
-/

namespace Sequencer

structure Assoc (κ α : Type) where
  entries : List (κ × α) := []

namespace Assoc

variable {κ α : Type}

def empty : Assoc κ α := {}

instance : Inhabited (Assoc κ α) := ⟨empty⟩

def keys (m : Assoc κ α) : List κ := m.entries.map Prod.fst

variable [DecidableEq κ]

def find (key : κ) : List (κ × α) → Option α
  | [] => none
  | (k, a) :: rest => if k = key then some a else find key rest

def get? (m : Assoc κ α) (key : κ) : Option α := find key m.entries

def contains (m : Assoc κ α) (key : κ) : Bool := (m.get? key).isSome

def put (key : κ) (value : α) : List (κ × α) → List (κ × α)
  | [] => [(key, value)]
  | (k, a) :: rest => if k = key then (k, value) :: rest else (k, a) :: put key value rest

def insert (m : Assoc κ α) (key : κ) (value : α) : Assoc κ α :=
  ⟨put key value m.entries⟩

/-- Every entry of `other` goes over `m`, in the order of `other`. -/
def union (m other : Assoc κ α) : Assoc κ α :=
  other.entries.foldl (fun acc e => acc.insert e.1 e.2) m

def ofList (pairs : List (κ × α)) : Assoc κ α :=
  pairs.foldl (fun acc e => acc.insert e.1 e.2) empty

theorem find_put (key other : κ) (value : α) (l : List (κ × α)) :
    find other (put key value l) = if key = other then some value else find other l := by
  induction l with
  | nil => simp [put, find]
  | cons e rest ih =>
    obtain ⟨k, a⟩ := e
    by_cases hk : k = key
    · subst hk
      by_cases ho : k = other <;> simp [put, find, ho]
    · by_cases ho : k = other
      · subst ho
        simp [put, find, hk, Ne.symm hk]
      · simp [put, find, hk, ho, ih]

@[simp] theorem get?_insert (m : Assoc κ α) (key other : κ) (value : α) :
    (m.insert key value).get? other = if key = other then some value else m.get? other :=
  find_put key other value m.entries

@[simp] theorem get?_empty (key : κ) : (empty : Assoc κ α).get? key = none := rfl

end Assoc
end Sequencer
