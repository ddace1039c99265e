import Mathlib.Data.List.Forall2
import Sequencer.Qasm.Matcher

/-!
# Matchers account for their tokens

What a matcher finds is spelled by the tokens it takes. The laws go through
the combinators one by one, whatever is undone on the way: a branch that is
given up leaves the cursor where it was.
-/

namespace Sequencer.Qasm

namespace Cursor
variable {c branch c' : Cursor} {e : SyntaxError}

@[simp] theorem rest_accept : (c.accept branch).rest = branch.rest := by
  unfold accept
  split <;> rfl

@[simp] theorem rest_note : (c.note e).rest = c.rest := by
  unfold note
  split <;> rfl

@[simp] theorem rest_record : (c.record e branch).rest = c.rest := by
  unfold record
  split
  · rfl
  · split <;> rfl

theorem rest_of_stop (h : c.stop e branch = (false, c')) : c'.rest = c.rest := by
  simp only [stop] at h
  split at h
  · cases h
  · rw [← (Prod.mk.inj h).2, rest_record]

end Cursor

namespace Matcher
variable {α β : Type} {p : Matcher α} {D : List Token → α → Prop}

/-- What the matcher finds is related to the tokens it takes. -/
def Sound (p : Matcher α) (D : List Token → α → Prop) : Prop :=
  ∀ c a c', p c = (.found a, c') → ∃ ts, c.rest = ts ++ c'.rest ∧ D ts a

theorem Sound.mono {E : List Token → α → Prop} (hp : p.Sound D) (h : ∀ ts a, D ts a → E ts a) :
    p.Sound E := by
  intro c a c' hc
  obtain ⟨ts, hts, hD⟩ := hp c a c' hc
  exact ⟨ts, hts, h ts a hD⟩

theorem sound_pure {a : α} (h : D [] a) : (pure a : Matcher α).Sound D := by
  intro c b c' hc
  cases hc
  exact ⟨[], rfl, h⟩

/-- Of a sequence, the rest is asked for what the whole is, whatever tokens the
first element took. -/
theorem Sound.bind {q : α → Matcher β} {F : List Token → β → Prop} (hp : p.Sound D)
    (hq : ∀ a, (q a).Sound fun us b => ∀ ts, D ts a → F (ts ++ us) b) : (p >>= q).Sound F := by
  intro c b c' hc
  change p.andThen q c = _ at hc
  unfold andThen at hc
  split at hc
  · rename_i a next hfound
    obtain ⟨ts, hts, hD⟩ := hp _ _ _ hfound
    obtain ⟨us, hus, hF⟩ := hq a _ _ _ hc
    exact ⟨ts ++ us, by rw [hts, hus, List.append_assoc], hF ts hD⟩
  · cases hc
  · cases hc

theorem Sound.required (hp : p.Sound D) : p.required.Sound D := by
  intro c a c' hc
  unfold Matcher.required at hc
  split at hc
  · cases hc
  · exact hp c a c' hc

theorem sound_token (accepts : Token → Bool) :
    (token accepts).Sound fun ts t => ts = [t] ∧ accepts t = true := by
  intro c a c' hc
  unfold token at hc
  split at hc
  · rename_i hrest
    split at hc
    · rename_i ht
      cases hc
      exact ⟨[a], hrest, rfl, ht⟩
    · cases hc
  · cases hc

theorem Sound.optional {F : List Token → Option α → Prop} (hp : p.Sound D) (none : F [] none)
    (some : ∀ ts a, D ts a → F ts (some a)) : p.optional.Sound F := by
  intro c a c' hc
  unfold Matcher.optional at hc
  split at hc
  · rename_i b branch hfound
    cases hc
    obtain ⟨ts, hts, hD⟩ := hp _ _ _ hfound
    exact ⟨ts, by simpa using hts, some ts b hD⟩
  · cases hc
    exact ⟨[], rfl, none⟩
  · split at hc
    · cases hc
    · rename_i hstop
      cases hc
      exact ⟨[], by simp [Cursor.rest_of_stop hstop], none⟩

theorem Sound.rounds (hp : p.Sound D) (fuel : Nat) (acc : List α) :
    (p.rounds fuel acc).Sound fun ts l =>
      ∃ parts more, ts = parts.flatten ∧ l = acc.reverse ++ more ∧ List.Forall₂ D parts more := by
  induction fuel generalizing acc with
  | zero =>
    intro c l c' hc
    cases hc
    exact ⟨[], rfl, [], [], rfl, by simp, .nil⟩
  | succ fuel ih =>
    intro c l c' hc
    unfold Matcher.rounds at hc
    split at hc
    · rename_i a branch hfound
      obtain ⟨ts, hts, hD⟩ := hp _ _ _ hfound
      obtain ⟨us, hus, parts, more, rfl, rfl, hmore⟩ := ih (a :: acc) _ _ _ hc
      refine ⟨ts ++ parts.flatten, ?_, ts :: parts, a :: more, rfl, by simp, .cons hD hmore⟩
      rw [hts, List.append_assoc, ← hus, Cursor.rest_accept]
    · cases hc
      exact ⟨[], rfl, [], [], rfl, by simp, .nil⟩
    · split at hc
      · cases hc
      · rename_i hstop
        cases hc
        exact ⟨[], by simp [Cursor.rest_of_stop hstop], [], [], rfl, by simp, .nil⟩

theorem Sound.many (hp : p.Sound D) :
    p.many.Sound fun ts l => ∃ parts, ts = parts.flatten ∧ List.Forall₂ D parts l := by
  intro c l c' hc
  obtain ⟨ts, hts, parts, more, hflat, rfl, hmore⟩ := hp.rounds _ [] _ _ _ hc
  exact ⟨ts, hts, parts, hflat, by simpa using hmore⟩

theorem Sound.alternatives {choices : List (Matcher α)} (h : ∀ p ∈ choices, p.Sound D)
    (best : Option (Nat × SyntaxError)) : (alternatives choices best).Sound D := by
  induction choices generalizing best with
  | nil =>
    intro c a c' hc
    cases best <;> cases hc
  | cons p rest ih =>
    obtain ⟨hp, hrest⟩ := List.forall_mem_cons.mp h
    intro c a c' hc
    unfold Matcher.alternatives at hc
    split at hc
    · rename_i hfound
      cases hc
      obtain ⟨ts, hts, hD⟩ := hp _ _ _ hfound
      exact ⟨ts, by simpa using hts, hD⟩
    · exact ih hrest best c a c' hc
    · split at hc
      · cases hc
      · rename_i hstop
        rw [← Cursor.rest_of_stop hstop]
        exact ih hrest _ _ a c' hc

theorem Sound.firstOf {choices : List (Matcher α)} (h : ∀ p ∈ choices, p.Sound D) :
    (firstOf choices).Sound D :=
  Sound.alternatives h none

theorem Sound.construct {build : α → Except SyntaxError β} {F : List Token → β → Prop} (hp : p.Sound D)
    (h : ∀ ts a b, D ts a → build a = .ok b → F ts b) : (construct p build).Sound F := by
  intro c b c' hc
  unfold Matcher.construct at hc
  split at hc
  · rename_i a next hfound
    obtain ⟨ts, hts, hD⟩ := hp _ _ _ hfound
    split at hc
    · rename_i hbuild
      cases hc
      exact ⟨ts, hts, h ts a b hD hbuild⟩
    · cases hc
  · cases hc
  · cases hc

theorem Sound.located {build : Position → α → Except SyntaxError β} {F : List Token → β → Prop}
    (hp : p.Sound D) (h : ∀ pos ts a b, D ts a → build pos a = .ok b → F ts b) :
    (located p build).Sound F :=
  fun c => hp.construct (h c.current.pos) c

end Matcher
end Sequencer.Qasm
