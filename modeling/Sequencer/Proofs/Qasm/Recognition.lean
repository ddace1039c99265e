import Sequencer.Proofs.Qasm.Lexing
import Sequencer.Proofs.Qasm.Matching

/-!
# Matchers find what was written

The converse of accounting for tokens: a matcher that is given the tokens of a
construct finds it, and leaves what follows. Each law covers the case in which
no branch has to be undone; then an element that is not there is absent, and a
choice goes to the first element that is there.
-/

namespace Sequencer.Qasm

def Cursor.forms (c : Cursor) : List TokenForm := c.rest.map Token.form

@[simp] theorem Cursor.forms_accept {c branch : Cursor} : (c.accept branch).forms = branch.forms := by
  simp [forms]

def NextNot (values : List String) (fs : List TokenForm) : Prop := ∀ f ∈ fs.head?, f.2 ∉ values

theorem NextNot.cons {values : List String} {f : TokenForm} (h : f.2 ∉ values) (fs : List TokenForm) :
    NextNot values (f :: fs) := by
  simpa [NextNot] using h

theorem NextNot.mono {values fewer : List String} {fs : List TokenForm} (h : NextNot values fs)
    (hsub : fewer ⊆ values) : NextNot fewer fs :=
  fun f hf hmem => h f hf (hsub hmem)

theorem exists_append_of_forall₂ {R : ι → α → Prop} {l₁ l₂ : List ι} {m : List α} (h : List.Forall₂ R (l₁ ++ l₂) m) :
    ∃ m₁ m₂, m = m₁ ++ m₂ ∧ List.Forall₂ R l₁ m₁ ∧ List.Forall₂ R l₂ m₂ :=
  ⟨m.take l₁.length, m.drop l₁.length, (List.take_append_drop _ _).symm,
    (List.forall₂_take_append m l₁ l₂ h.flip).flip, (List.forall₂_drop_append m l₁ l₂ h.flip).flip⟩

/-- What was found for every item is a function of the item. -/
theorem eq_map_of_forall₂ {f : ι → α} {items : List ι} {l : List α}
    (h : List.Forall₂ (fun i a => a = f i) items l) : l = items.map f := by
  induction h with
  | nil => rfl
  | cons ha _ ih => rw [ha, ih, List.map_cons]

namespace Matcher
variable {α β ι : Type} {p : Matcher α} {fs gs : List TokenForm} {F G : List TokenForm → Prop} {P : α → Prop}
  {Q : β → Prop}

/-- In front of tokens that may follow, the matcher finds what the tokens spell. -/
def Reads (p : Matcher α) (fs : List TokenForm) (F : List TokenForm → Prop) (P : α → Prop) : Prop :=
  ∀ c more, c.forms = fs ++ more → F more → ∃ a c', p c = (.found a, c') ∧ P a ∧ c'.forms = more

/-- In front of these tokens the matcher finds nothing and does not fail. -/
def Misses (p : Matcher α) (fs : List TokenForm) : Prop := ∀ c, c.forms = fs → (p c).1 = .absent

theorem Reads.mono {P' : α → Prop} (hp : p.Reads fs F P) (h : ∀ a, P a → P' a) : p.Reads fs F P' := by
  intro c more hc hF
  obtain ⟨a, c', hfound, ha, hc'⟩ := hp c more hc hF
  exact ⟨a, c', hfound, h a ha, hc'⟩

theorem Reads.follow (hp : p.Reads fs F P) (h : ∀ more, G more → F more) : p.Reads fs G P :=
  fun c more hc hG => hp c more hc (h more hG)

theorem reads_pure {a : α} (h : P a) : (pure a : Matcher α).Reads [] F P := by
  intro c more hc _
  exact ⟨a, c, rfl, h, hc⟩

theorem Reads.bind {q : α → Matcher β} (hp : p.Reads fs F P) (hq : ∀ a, P a → (q a).Reads gs G Q)
    (hF : ∀ more, G more → F (gs ++ more)) : (p >>= q).Reads (fs ++ gs) G Q := by
  intro c more hc hG
  obtain ⟨a, c', hfound, ha, hc'⟩ := hp c (gs ++ more) (by rw [hc, List.append_assoc]) (hF more hG)
  obtain ⟨b, c'', hb, hQ, hc''⟩ := hq a ha c' more hc' hG
  refine ⟨b, c'', ?_, hQ, hc''⟩
  change p.andThen q c = _
  simp only [andThen, hfound, hb]

theorem Reads.seq {q : α → Matcher β} (hp : p.Reads fs (fun _ => True) P)
    (hq : ∀ a, P a → (q a).Reads gs G Q) : (p >>= q).Reads (fs ++ gs) G Q :=
  hp.bind hq fun _ _ => trivial

theorem Reads.then_pure {g : α → β} (hp : p.Reads fs F P) (h : ∀ a, P a → Q (g a)) :
    (p >>= fun a => pure (g a)).Reads fs F Q := by
  rw [← List.append_nil fs]
  exact hp.bind (fun a ha => reads_pure (h a ha)) fun _ hF => hF

theorem Misses.bind {q : α → Matcher β} (hp : p.Misses fs) : (p >>= q).Misses fs := by
  intro c hc
  change (p.andThen q c).1 = _
  have := hp c hc
  unfold andThen
  split <;> simp_all

-- ---------------------------------------------------------------------------
-- Tokens
-- ---------------------------------------------------------------------------

theorem reads_token {accepts : Token → Bool} {f : TokenForm} (h : ∀ t : Token, t.form = f → accepts t = true) :
    (token accepts).Reads [f] F fun t => t.form = f := by
  intro c more hc _
  cases hrest : c.rest with
  | nil => simp [Cursor.forms, hrest] at hc
  | cons t rest =>
    simp only [Cursor.forms, hrest, List.map_cons, List.cons_append, List.nil_append, List.cons.injEq] at hc
    refine ⟨t, { c with rest := rest, used := c.used + 1 }, ?_, hc.1, hc.2⟩
    simp only [token, hrest, h t hc.1, ↓reduceIte]

theorem misses_token {accepts : Token → Bool}
    (h : ∀ f ∈ fs.head?, ∀ t : Token, t.form = f → accepts t = false) : (token accepts).Misses fs := by
  intro c hc
  cases hrest : c.rest with
  | nil => simp [token, hrest]
  | cons t rest =>
    have ht : accepts t = false := h t.form (by simp [← hc, Cursor.forms, hrest]) t rfl
    simp [token, hrest, ht]

theorem reads_literal {kind : TokenKind} {value : String} :
    (literal value).Reads [(kind, value)] F fun t => t.form = (kind, value) :=
  reads_token fun t ht => by simp [Token.form] at ht ⊢; exact ht.2

theorem reads_ofKind {kind : TokenKind} {value : String} :
    (ofKind kind).Reads [(kind, value)] F fun t => t.form = (kind, value) :=
  reads_token fun t ht => by simp [Token.form] at ht ⊢; exact ht.1

theorem reads_oneOf {kind : TokenKind} {value : String} {values : List String} (h : value ∈ values) :
    (oneOf values).Reads [(kind, value)] F fun t => t.form = (kind, value) :=
  reads_token fun t ht => by simp [Token.form] at ht ⊢; exact ht.2 ▸ h

theorem misses_oneOf {values : List String} (h : NextNot values fs) : (oneOf values).Misses fs :=
  misses_token fun f hf t ht => by
    have := h f hf
    simpa [← ht, Token.form] using this

theorem misses_literal {value : String} (h : NextNot [value] fs) : (literal value).Misses fs :=
  misses_token fun f hf t ht => by
    have := h f hf
    simpa [← ht, Token.form] using this

-- ---------------------------------------------------------------------------
-- Combinators
-- ---------------------------------------------------------------------------

theorem Reads.required (hp : p.Reads fs F P) : p.required.Reads fs F P := by
  intro c more hc hF
  obtain ⟨a, c', hfound, ha, hc'⟩ := hp c more hc hF
  exact ⟨a, c', by simp [Matcher.required, hfound], ha, hc'⟩

theorem Reads.optional (hp : p.Reads fs F P) : p.optional.Reads fs F fun o => ∃ a, o = some a ∧ P a := by
  intro c more hc hF
  obtain ⟨a, c', hfound, ha, hc'⟩ := hp c more hc hF
  exact ⟨some a, c.accept c', by simp [Matcher.optional, hfound], ⟨a, rfl, ha⟩, by simpa using hc'⟩

theorem reads_optional_none (h : ∀ more, F more → p.Misses more) : p.optional.Reads [] F fun o => o = none := by
  intro c more hc hF
  have habsent := h more hF c hc
  refine ⟨none, c, ?_, rfl, hc⟩
  unfold Matcher.optional
  split <;> simp_all

theorem Reads.rounds {forms : ι → List TokenForm} {P : ι → α → Prop} {items : List ι}
    (hp : ∀ i ∈ items, p.Reads (forms i) F (P i)) (next : ∀ i ∈ items, ∀ more, F (forms i ++ more))
    (last : ∀ more, G more → F more ∧ p.Misses more) {fuel : Nat} (enough : items.length < fuel) (acc : List α) :
    (p.rounds fuel acc).Reads (items.flatMap forms) G fun l =>
      ∃ found, l = acc.reverse ++ found ∧ List.Forall₂ P items found := by
  induction items generalizing fuel acc with
  | nil =>
    intro c more hc hG
    have habsent := (last more hG).2 c hc
    obtain ⟨fuel, rfl⟩ := Nat.exists_eq_succ_of_ne_zero (Nat.ne_of_gt enough)
    refine ⟨acc.reverse, c, ?_, ⟨[], by simp, .nil⟩, hc⟩
    unfold Matcher.rounds
    split <;> simp_all
  | cons i rest ih =>
    intro c more hc hG
    obtain ⟨hi, hrest⟩ := List.forall_mem_cons.mp hp
    obtain ⟨fuel, rfl⟩ := Nat.exists_eq_succ_of_ne_zero (Nat.ne_of_gt (Nat.lt_of_le_of_lt (Nat.zero_le _) enough))
    have hfollow : F (rest.flatMap forms ++ more) := by
      cases rest with
      | nil => exact (last more hG).1
      | cons j later =>
        rw [List.flatMap_cons, List.append_assoc]
        exact next j (by simp) _
    obtain ⟨a, c', hfound, ha, hc'⟩ := hi c (rest.flatMap forms ++ more) (by simpa using hc) hfollow
    obtain ⟨l, c'', hl, ⟨found, rfl, hall⟩, hc''⟩ := ih hrest (fun j hj => next j (List.mem_cons_of_mem _ hj))
      (by simpa using enough) (a :: acc) (c.accept c') more (by simpa using hc') hG
    refine ⟨(a :: acc).reverse ++ found, c'', ?_, ⟨a :: found, by simp, .cons ha hall⟩, hc''⟩
    simp only [Matcher.rounds, hfound]
    exact hl

/-- Elements are found one after the other up to the first that is missing. -/
theorem Reads.many {forms : ι → List TokenForm} {P : ι → α → Prop} {items : List ι}
    (hp : ∀ i ∈ items, p.Reads (forms i) F (P i)) (next : ∀ i ∈ items, ∀ more, F (forms i ++ more))
    (nonempty : ∀ i ∈ items, forms i ≠ []) (last : ∀ more, G more → F more ∧ p.Misses more) :
    p.many.Reads (items.flatMap forms) G (List.Forall₂ P items) := by
  intro c more hc hG
  have hlen : items.length ≤ (items.flatMap forms).length := by
    clear hc hp next
    induction items with
    | nil => simp
    | cons i rest ih =>
      obtain ⟨hi, hrest⟩ := List.forall_mem_cons.mp nonempty
      have := List.length_pos_iff.mpr hi
      have := ih hrest
      simp only [List.flatMap_cons, List.length_append, List.length_cons]
      omega
  have hrest : c.rest.length = (items.flatMap forms ++ more).length := by
    rw [← hc, Cursor.forms, List.length_map]
  have enough : items.length < c.rest.length + 1 := by
    rw [hrest, List.length_append]
    omega
  obtain ⟨l, c', hl, ⟨found, rfl, hall⟩, hc'⟩ := Reads.rounds hp next last enough [] c more hc hG
  exact ⟨_, c', hl, by simpa using hall, hc'⟩

theorem Reads.firstOf {rest : List (Matcher α)} (hp : p.Reads fs F P) : (firstOf (p :: rest)).Reads fs F P := by
  intro c more hc hF
  obtain ⟨a, c', hfound, ha, hc'⟩ := hp c more hc hF
  exact ⟨a, c.accept c', by simp [Matcher.firstOf, alternatives, hfound], ha, by simpa using hc'⟩

theorem Reads.firstOf_next {rest : List (Matcher α)} (hp : ∀ more, F more → p.Misses (fs ++ more))
    (h : (Matcher.firstOf rest).Reads fs F P) : (Matcher.firstOf (p :: rest)).Reads fs F P := by
  intro c more hc hF
  obtain ⟨a, c', hfound, ha, hc'⟩ := h c more hc hF
  have habsent := hp more hF c hc
  refine ⟨a, c', ?_, ha, hc'⟩
  simp only [Matcher.firstOf, alternatives] at hfound ⊢
  split <;> simp_all

theorem Misses.firstOf {choices : List (Matcher α)} (h : ∀ p ∈ choices, p.Misses fs) :
    (firstOf choices).Misses fs := by
  induction choices with
  | nil => exact fun c _ => rfl
  | cons p rest ih =>
    intro c hc
    obtain ⟨hp, hrest⟩ := List.forall_mem_cons.mp h
    have habsent := hp c hc
    have := ih hrest c hc
    simp only [Matcher.firstOf, alternatives] at this ⊢
    split <;> simp_all

theorem Reads.construct {build : α → Except SyntaxError β} (hp : p.Reads fs F P)
    (hb : ∀ a, P a → ∃ b, build a = .ok b ∧ Q b) : (construct p build).Reads fs F Q := by
  intro c more hc hF
  obtain ⟨a, c', hfound, ha, hc'⟩ := hp c more hc hF
  obtain ⟨b, hbuild, hQ⟩ := hb a ha
  exact ⟨b, c', by simp [Matcher.construct, hfound, hbuild], hQ, hc'⟩

theorem Misses.construct {build : α → Except SyntaxError β} (hp : p.Misses fs) :
    (construct p build).Misses fs := by
  intro c hc
  have := hp c hc
  unfold Matcher.construct
  split <;> simp_all

theorem Reads.located {build : Position → α → Except SyntaxError β} (hp : p.Reads fs F P)
    (hb : ∀ pos a, P a → ∃ b, build pos a = .ok b ∧ Q b) : (located p build).Reads fs F Q :=
  fun c => hp.construct (hb c.current.pos) c

theorem Misses.located {build : Position → α → Except SyntaxError β} (hp : p.Misses fs) :
    (located p build).Misses fs :=
  fun c => hp.construct c

theorem Reads.commaList {forms : ι → List TokenForm} {P : ι → α → Prop} {items : List ι} (hne : items ≠ [])
    (hp : ∀ j ∈ items, p.Reads (forms j) F (P j)) (comma : ∀ more, F ((.punctuation, ",") :: more))
    (last : ∀ more, G more → F more ∧ NextNot [","] more) :
    (commaList p).Reads (separated (items.map forms)) G (List.Forall₂ P items) := by
  obtain ⟨i, rest, rfl⟩ := List.exists_cons_of_ne_nil hne
  obtain ⟨hi, hrest⟩ := List.forall_mem_cons.mp hp
  have hmany : (Matcher.many do
      let _ ← literal ","
      Matcher.required p).Reads (rest.flatMap fun j => (.punctuation, ",") :: forms j) G (List.Forall₂ P rest) := by
    refine Reads.many (F := F) (fun j hj => ?_) (fun j _ more => comma _) (by simp) fun more hG => ?_
    · exact (reads_literal (F := fun _ => True)).bind (fun _ _ => (hrest j hj).required) fun _ _ => trivial
    · exact ⟨(last more hG).1, (misses_literal (last more hG).2).bind⟩
  simp only [List.map_cons, separated, List.flatMap_map]
  refine hi.bind (fun a ha => ?_) (fun more hG => ?_) (G := G)
  · exact hmany.then_pure fun l hl => List.Forall₂.cons ha hl
  · cases rest with
    | nil => exact (last more hG).1
    | cons j later => exact comma _

end Matcher
end Sequencer.Qasm
