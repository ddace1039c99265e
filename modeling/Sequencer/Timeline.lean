/-!
# Timelines

A sparse map from timeslices to entries, kept in increasing order of
timeslice. Writing to an occupied timeslice replaces its entry. Because the
order is part of the type, two timelines with the same entries are equal.
-/

namespace Sequencer

structure Timeline (α : Type) where
  entries : List (Int × α)
  ordered : entries.Pairwise fun a b => a.1 < b.1

namespace Timeline

variable {α β : Type}

def empty : Timeline α := ⟨[], .nil⟩

instance : Inhabited (Timeline α) := ⟨empty⟩

def put (t : Int) (a : α) : List (Int × α) → List (Int × α)
  | [] => [(t, a)]
  | (s, b) :: rest =>
    if t < s then (t, a) :: (s, b) :: rest
    else if t = s then (t, a) :: rest
    else (s, b) :: put t a rest

theorem fst_of_mem_put {t : Int} {a : α} {l : List (Int × α)} {e : Int × α}
    (h : e ∈ put t a l) : e.1 = t ∨ e ∈ l := by
  induction l with
  | nil => simp_all [put]
  | cons x rest ih =>
    obtain ⟨s, b⟩ := x
    simp only [put] at h
    split at h
    · rcases List.mem_cons.1 h with rfl | h
      · exact .inl rfl
      · exact .inr h
    · split at h
      · rcases List.mem_cons.1 h with rfl | h
        · exact .inl rfl
        · exact .inr (List.mem_cons_of_mem _ h)
      · rcases List.mem_cons.1 h with rfl | h
        · exact .inr List.mem_cons_self
        · exact (ih h).imp id (List.mem_cons_of_mem _)

theorem put_ordered (t : Int) (a : α) {l : List (Int × α)}
    (h : l.Pairwise fun a b => a.1 < b.1) : (put t a l).Pairwise fun a b => a.1 < b.1 := by
  induction l with
  | nil => simp [put]
  | cons x rest ih =>
    obtain ⟨s, b⟩ := x
    obtain ⟨hs, hr⟩ := List.pairwise_cons.1 h
    simp only [put]
    split
    · rename_i hts
      refine List.pairwise_cons.2 ⟨fun e he => ?_, h⟩
      rcases List.mem_cons.1 he with rfl | he
      · exact hts
      · exact Int.lt_trans hts (hs e he)
    · rename_i hge
      split
      · rename_i heq
        subst heq
        exact List.pairwise_cons.2 ⟨hs, hr⟩
      · rename_i hne
        refine List.pairwise_cons.2 ⟨fun e he => ?_, ih hr⟩
        rcases fst_of_mem_put he with h1 | h1
        · show s < e.1
          omega
        · exact hs e h1

def insert (line : Timeline α) (t : Int) (a : α) : Timeline α :=
  ⟨put t a line.entries, put_ordered t a line.ordered⟩

def find (t : Int) : List (Int × α) → Option α
  | [] => none
  | (s, a) :: rest => if s = t then some a else find t rest

def get? (line : Timeline α) (t : Int) : Option α := find t line.entries

def slices (line : Timeline α) : List Int := line.entries.map Prod.fst

def values (line : Timeline α) : List α := line.entries.map Prod.snd

def size (line : Timeline α) : Nat := line.entries.length

def ofList (pairs : List (Int × α)) : Timeline α :=
  pairs.foldl (fun line e => line.insert e.1 e.2) empty

theorem find_put (t s : Int) (a : α) (l : List (Int × α)) :
    find s (put t a l) = if t = s then some a else find s l := by
  induction l with
  | nil => simp [put, find]
  | cons x rest ih =>
    obtain ⟨r, b⟩ := x
    simp only [put]
    split
    · simp [find]
    · split
      · rename_i htr
        subst htr
        by_cases h : t = s <;> simp [find, h]
      · rename_i htr
        by_cases h : r = s
        · subst h
          simp [find, htr]
        · simp [find, h, ih]

@[simp] theorem get?_insert (line : Timeline α) (t s : Int) (a : α) :
    (line.insert t a).get? s = if t = s then some a else line.get? s :=
  find_put t s a line.entries

@[simp] theorem get?_empty (t : Int) : (empty : Timeline α).get? t = none := rfl

end Timeline
end Sequencer
