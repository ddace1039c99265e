/-!
# Checked steps

Success of composed checks, read as success of the parts. A run of checked
steps over a list keeps what every single step keeps; the step may use where
in the list it stands.
-/

namespace Sequencer

section
variable {x : Except ε α}

theorem bind_eq_ok {next : α → Except ε β} :
    x >>= next = .ok b ↔ ∃ a, x = .ok a ∧ next a = .ok b := by
  cases x with
  | ok a => simp [bind, Except.bind]
  | error e => simp [bind, Except.bind]

theorem pure_eq_ok : (pure a : Except ε α) = .ok b ↔ a = b := by
  simp [pure, Except.pure]

@[simp] theorem pure_ne_error {e : ε} : (pure a : Except ε α) ≠ .error e := by
  intro h
  cases h

@[simp] theorem throw_ne_ok {e : ε} : (throw e : Except ε α) ≠ .ok b := by
  intro h
  cases h

theorem check_eq_ok {p : Prop} [Decidable p] {e : ε} {next : PUnit → Except ε α} :
    (if p then throw e >>= next else next ⟨⟩) = .ok a ↔ ¬ p ∧ next ⟨⟩ = .ok a := by
  by_cases hp : p
  · rw [if_pos hp]
    exact iff_of_false (fun h => nomatch h) fun h => h.1 hp
  · rw [if_neg hp]
    exact ⟨fun h => ⟨hp, h⟩, fun h => h.2⟩

theorem checkLast_eq_ok {p : Prop} [Decidable p] {e : ε} :
    (if p then throw e else pure a : Except ε α) = .ok b ↔ ¬ p ∧ a = b := by
  by_cases hp : p
  · rw [if_pos hp]
    exact iff_of_false throw_ne_ok fun h => h.1 hp
  · rw [if_neg hp, pure_eq_ok]
    exact ⟨fun h => ⟨hp, h⟩, fun h => h.2⟩

theorem check_eq_error {p : Prop} [Decidable p] {e e' : ε} {next : PUnit → Except ε α} :
    (if p then throw e >>= next else next ⟨⟩) = .error e' ↔ (p ∧ e = e') ∨ (¬ p ∧ next ⟨⟩ = .error e') := by
  by_cases hp : p
  · rw [if_pos hp]
    exact ⟨fun h => .inl ⟨hp, Except.error.inj h⟩, fun h => h.elim (fun h => congrArg _ h.2) fun h => absurd hp h.1⟩
  · rw [if_neg hp]
    exact ⟨fun h => .inr ⟨hp, h⟩, fun h => h.elim (fun h => absurd h.1 hp) fun h => h.2⟩

theorem map_eq_ok {g : α → β} : x.map g = .ok b ↔ ∃ a, x = .ok a ∧ g a = b := by
  cases x with
  | ok a => simp [Except.map]
  | error e => simp [Except.map]

theorem toOption_eq_some : x.toOption = some a ↔ x = .ok a := by
  cases x with
  | ok a => simp [Except.toOption]
  | error e => simp [Except.toOption]

theorem isSome_toOption : x.toOption.isSome = true ↔ ∃ a, x = .ok a := by
  simp only [Option.isSome_iff_exists, toOption_eq_some]

theorem bind_eq_error {next : α → Except ε β} :
    x >>= next = .error e ↔ x = .error e ∨ ∃ a, x = .ok a ∧ next a = .error e := by
  cases x with
  | ok a => simp [bind, Except.bind]
  | error e => simp [bind, Except.bind]

theorem map_eq_error {g : α → β} : x.map g = .error e ↔ x = .error e := by
  cases x with
  | ok a => simp [Except.map]
  | error e => simp [Except.map]

theorem mapError_ok (g : ε → ε') (a : α) : (Except.ok a : Except ε α).mapError g = .ok a := rfl

theorem mapError_error (g : ε → ε') (e : ε) : (Except.error e : Except ε α).mapError g = .error (g e) := rfl

theorem mapError_eq_ok {g : ε → ε'} : x.mapError g = .ok b ↔ x = .ok b := by
  cases x with
  | ok a =>
    constructor
    · rintro ⟨⟩
      rfl
    · rintro ⟨⟩
      rfl
  | error e => exact iff_of_false nofun nofun

theorem mapError_eq_error {g : ε → ε'} {e' : ε'} : x.mapError g = .error e' ↔ ∃ e, x = .error e ∧ g e = e' := by
  cases x with
  | ok a => simp [mapError_ok]
  | error e => simp [mapError_error]

end

theorem mapM_eq_map {f : α → Except ε β} {g : α → β} {l : List α} (h : ∀ a ∈ l, f a = .ok (g a)) :
    l.mapM f = .ok (l.map g) := by
  induction l with
  | nil => rfl
  | cons a rest ih =>
    rw [List.mapM_cons, h a List.mem_cons_self, ih fun b hb => h b (List.mem_cons_of_mem _ hb)]
    rfl

theorem exists_ok_of_mapM {f : α → Except ε β} {l : List α} {r : List β} (h : l.mapM f = .ok r) :
    ∀ a ∈ l, ∃ b, f a = .ok b := by
  induction l generalizing r with
  | nil => exact fun a ha => nomatch ha
  | cons x rest ih =>
    simp only [List.mapM_cons, bind_eq_ok] at h
    obtain ⟨b, hb, r', hr, -⟩ := h
    exact List.forall_mem_cons.mpr ⟨⟨b, hb⟩, ih hr⟩

theorem forIn_ok {l : List α} {f : α → Except ε (ForInStep PUnit)} (hf : ∀ a, f a ≠ .ok (.done ⟨⟩))
    (h : (forIn l ⟨⟩ fun a _ => f a) = .ok u) : ∀ a ∈ l, f a = .ok (.yield ⟨⟩) := by
  induction l with
  | nil => exact fun a ha => nomatch ha
  | cons a rest ih =>
    simp only [List.forIn_cons, bind_eq_ok] at h
    obtain ⟨r, hr, h⟩ := h
    cases r with
    | done => exact absurd hr (hf a)
    | yield => exact List.forall_mem_cons.mpr ⟨hr, ih h⟩

section
variable {f : β → α → Except ε β} {P : List α → β → Prop} {l : List α} {b b' : β}

/-- What holds at the start and is kept by every step that succeeds holds at
the end of a successful run. -/
theorem foldlM_keeps (start : P [] b)
    (step : ∀ done a rest b b', l = done ++ a :: rest → P done b → f b a = .ok b' →
      P (done ++ [a]) b')
    (h : l.foldlM f b = .ok b') : P l b' := by
  suffices ∀ rest done b, l = done ++ rest → P done b → rest.foldlM f b = .ok b' → P l b' from
    this l [] b rfl start h
  intro rest
  induction rest with
  | nil =>
    intro done b hl hp hb
    simp only [List.foldlM_nil, pure_eq_ok] at hb
    simpa [hl, ← hb] using hp
  | cons a rest ih =>
    intro done b hl hp hb
    simp only [List.foldlM_cons, bind_eq_ok] at hb
    obtain ⟨next, ha, hrest⟩ := hb
    exact ih (done ++ [a]) next (by simpa using hl) (step done a rest b next hl hp ha) hrest

/-- A run ends well or with the error of some step, when every step that starts
from a kept state does so. -/
theorem foldlM_outcome {E : ε → Prop} (start : P [] b)
    (step : ∀ done a rest b, l = done ++ a :: rest → P done b →
      (∃ b', f b a = .ok b' ∧ P (done ++ [a]) b') ∨ ∃ e, f b a = .error e ∧ E e) :
    (∃ b', l.foldlM f b = .ok b' ∧ P l b') ∨ ∃ e, l.foldlM f b = .error e ∧ E e := by
  suffices ∀ rest done b, l = done ++ rest → P done b →
      (∃ b', rest.foldlM f b = .ok b' ∧ P l b') ∨ ∃ e, rest.foldlM f b = .error e ∧ E e from
    this l [] b rfl start
  intro rest
  induction rest with
  | nil =>
    intro done b hl hp
    exact .inl ⟨b, rfl, by simpa [hl] using hp⟩
  | cons a rest ih =>
    intro done b hl hp
    simp only [List.foldlM_cons, bind_eq_ok, bind_eq_error]
    rcases step done a rest b hl hp with ⟨next, ha, hn⟩ | ⟨e, he, hE⟩
    · rcases ih (done ++ [a]) next (by simpa using hl) hn with ⟨b', hb', hl'⟩ | ⟨e, he, hE⟩
      · exact .inl ⟨b', ⟨next, ha, hb'⟩, hl'⟩
      · exact .inr ⟨e, .inr ⟨next, ha, he⟩, hE⟩
    · exact .inr ⟨e, .inl he, hE⟩

theorem foldlM_succeeds (start : P [] b)
    (step : ∀ done a rest b, l = done ++ a :: rest → P done b →
      ∃ b', f b a = .ok b' ∧ P (done ++ [a]) b') :
    ∃ b', l.foldlM f b = .ok b' ∧ P l b' := by
  rcases foldlM_outcome (E := fun _ => False) start
    (fun done a rest b hl hp => .inl (step done a rest b hl hp)) with h | ⟨_, _, h⟩
  · exact h
  · exact h.elim

theorem foldlM_congr {g : β → α → Except ε β} (h : ∀ b, ∀ a ∈ l, f b a = g b a) : l.foldlM f b = l.foldlM g b := by
  induction l generalizing b with
  | nil => rfl
  | cons a rest ih =>
    obtain hrest := fun b x hx => h b x (List.mem_cons_of_mem a hx)
    rw [List.foldlM_cons, List.foldlM_cons, h b a List.mem_cons_self]
    exact congrArg _ (funext fun _ => ih hrest)

theorem foldlM_ne_error {e : ε} (h : ∀ b a, f b a ≠ .error e) : l.foldlM f b ≠ .error e := by
  induction l generalizing b with
  | nil => exact pure_ne_error
  | cons a rest ih =>
    rw [List.foldlM_cons, Ne, bind_eq_error]
    rintro (hstep | ⟨b', -, hrest⟩)
    · exact h b a hstep
    · exact ih hrest

end

-- ---------------------------------------------------------------------------
-- Two runs side by side
-- ---------------------------------------------------------------------------

/-- Both succeed, with related results, or both fail. -/
inductive Outcomes (R : α → β → Prop) : Except ε α → Except ε β → Prop
  | ok {a : α} {b : β} (h : R a b) : Outcomes R (.ok a) (.ok b)
  | error {e e' : ε} : Outcomes R (.error e) (.error e')

namespace Outcomes
variable {R : α → β → Prop}

theorem exists_ok {a : α} {y : Except ε β} (h : Outcomes R (.ok a) y) : ∃ b, y = .ok b ∧ R a b := by
  cases h with
  | ok h => exact ⟨_, rfl, h⟩

theorem exists_error {e : ε} {y : Except ε β} (h : Outcomes R (.error e) y) : ∃ e', y = .error e' := by
  cases h with
  | error => exact ⟨_, rfl⟩

theorem refl (x : Except ε α) : Outcomes Eq x x := by
  cases x with
  | ok a => exact .ok rfl
  | error e => exact .error

theorem bind {S : γ → δ → Prop} {x : Except ε α} {y : Except ε β} {f : α → Except ε γ} {g : β → Except ε δ}
    (h : Outcomes R x y) (next : ∀ a b, R a b → Outcomes S (f a) (g b)) : Outcomes S (x >>= f) (y >>= g) := by
  cases h with
  | ok h => exact next _ _ h
  | error => exact .error

theorem foldlM {f : α → σ → Except ε α} {g : β → σ → Except ε β} {l : List σ} {a : α} {b : β} (h : R a b)
    (step : ∀ a b x, R a b → Outcomes R (f a x) (g b x)) : Outcomes R (l.foldlM f a) (l.foldlM g b) := by
  induction l generalizing a b with
  | nil => exact .ok h
  | cons x rest ih =>
    rw [List.foldlM_cons, List.foldlM_cons]
    exact (step a b x h).bind fun _ _ h' => ih h'

end Outcomes

end Sequencer
