import Sequencer.Instruction.Encoder
import Sequencer.Proofs.Instruction.LaneBuffers

/-!
# Groups of nodes

What the encoder makes of a node: a group in one of four forms, each with the
lane it goes to and the room that was checked.
-/

namespace Sequencer

theorem Layout.checked_ok {y : Layout} {l l' : Lane} (h : y.checked l = .ok l') :
    l' = l ∧ y.width l ≤ l.room := by
  rw [checked] at h
  split at h
  · rename_i hfits
    exact ⟨(Except.ok.inj h).symm, by simpa [fits] using hfits⟩
  · cases h

theorem Node.angleTrail_ne_probability (n : Node) (p : Fixed) : n.angleTrail ≠ .probability p := by
  rw [angleTrail]
  split
  · split <;> simp
  · simp

namespace Circuit
variable {c : Circuit} {y : Layout} {t : Int} {i : Nat} {n : Node} {l : Lane} {g : Group}

theorem singleGroup_ok (h : c.singleGroup y t i n = .ok (l, g)) :
    ∃ p test, Gate.single? n.gate = some p ∧ c.optionalTest y t n = .ok test ∧ l = singleLane test ∧
      y.width l ≤ l.room ∧
      g = ⟨⟨i, y.qubitBits⟩ :: selectorField p :: testFields y test, n.angleTrail⟩ := by
  rw [singleGroup] at h
  split at h
  · cases h
  rename_i p hp
  simp only [bind_eq_ok, pure_eq_ok, Prod.mk.injEq] at h
  obtain ⟨test, htest, _, hl, rfl, rfl⟩ := h
  obtain ⟨rfl, hfits⟩ := Layout.checked_ok hl
  exact ⟨p, test, hp, htest, rfl, hfits, rfl⟩

theorem controlledGroup_ok (h : c.controlledGroup y t i n = .ok (l, g)) :
    ∃ p test f, Gate.controlled? n.gate = some p ∧ c.optionalTest y t n = .ok test ∧
      c.controlField y n.partners = .ok f ∧ l = controlLane (1 < n.partners.length) test ∧
      y.width l ≤ l.room ∧
      g = ⟨f :: ⟨i, y.qubitBits⟩ :: selectorField p :: testFields y test, n.angleTrail⟩ := by
  rw [controlledGroup] at h
  split at h
  · cases h
  rename_i p hp
  simp only [bind_eq_ok, pure_eq_ok, Prod.mk.injEq, orFault, mapError_eq_ok] at h
  obtain ⟨test, htest, _, hl, f, hf, rfl, rfl⟩ := h
  obtain ⟨rfl, hfits⟩ := Layout.checked_ok hl
  exact ⟨p, test, f, hp, htest, hf, rfl, hfits, rfl⟩

variable (c y t i n) in
/-- The forms of a group. -/
inductive Grouped : Lane → Group → Prop
  | reset (asked : n.reset = true) (fits : y.width .reset ≤ Lane.room .reset) : Grouped .reset ⟨[⟨i, y.qubitBits⟩], .none⟩
  | decoherence {channel : Channel} (found : Gate.channel? n.gate = some channel)
      (fits : y.width .decoherence ≤ Lane.room .decoherence) :
      Grouped .decoherence ⟨[⟨i, y.qubitBits⟩, ⟨channel.kind, 1⟩],
        .probability (Fixed.ofFloat (n.params.headD 0.0))⟩
  | controlled {p : Primitive} {test : Option BitTest} {controls : BitField} (target : n.target = true)
      (found : Gate.controlled? n.gate = some p) (tested : c.optionalTest y t n = .ok test)
      (given : c.controlField y n.partners = .ok controls)
      (fits : y.width (controlLane (1 < n.partners.length) test) ≤ (controlLane (1 < n.partners.length) test).room) :
      Grouped (controlLane (1 < n.partners.length) test)
        ⟨controls :: ⟨i, y.qubitBits⟩ :: selectorField p :: testFields y test, n.angleTrail⟩
  | single {p : Primitive} {test : Option BitTest} (found : Gate.single? n.gate = some p)
      (tested : c.optionalTest y t n = .ok test) (fits : y.width (singleLane test) ≤ (singleLane test).room) :
      Grouped (singleLane test) ⟨⟨i, y.qubitBits⟩ :: selectorField p :: testFields y test, n.angleTrail⟩

theorem groupOf_ok (h : c.groupOf y t i n = .ok (some (l, g))) : c.Grouped y t i n l g := by
  unfold groupOf at h
  split at h
  · rename_i hasked
    obtain ⟨_, hreset, heq⟩ := map_eq_ok.mp h
    obtain rfl := Option.some.inj heq
    simp only [resetGroup, bind_eq_ok, pure_eq_ok, Prod.mk.injEq] at hreset
    obtain ⟨_, hl, rfl, rfl⟩ := hreset
    obtain ⟨rfl, hfits⟩ := Layout.checked_ok hl
    exact .reset hasked hfits
  split at h
  · rename_i channel hchannel
    obtain ⟨_, hgroup, heq⟩ := map_eq_ok.mp h
    obtain rfl := Option.some.inj heq
    simp only [decoherenceGroup, bind_eq_ok, pure_eq_ok, Prod.mk.injEq] at hgroup
    obtain ⟨_, hl, rfl, rfl⟩ := hgroup
    obtain ⟨rfl, hfits⟩ := Layout.checked_ok hl
    exact .decoherence hchannel hfits
  split at h
  · split at h
    · rename_i htarget
      obtain ⟨_, hcontrolled, heq⟩ := map_eq_ok.mp h
      obtain rfl := Option.some.inj heq
      obtain ⟨p, test, f, hp, htest, hf, rfl, hfits, rfl⟩ := controlledGroup_ok hcontrolled
      exact .controlled htarget hp htest hf hfits
    · cases h
  · obtain ⟨_, hsingle, heq⟩ := map_eq_ok.mp h
    obtain rfl := Option.some.inj heq
    obtain ⟨p, test, hp, htest, rfl, hfits, rfl⟩ := singleGroup_ok hsingle
    exact .single hp htest hfits

theorem Grouped.suits (h : c.Grouped y t i n l g) : g.Suits l := by
  have hangle : ¬ ∃ p, n.angleTrail = .probability p := fun ⟨p, hp⟩ => n.angleTrail_ne_probability p hp
  cases h with
  | reset => simp [Group.Suits]
  | decoherence => simp [Group.Suits]
  | @controlled p test =>
    refine iff_of_false ?_ hangle
    rcases test with _ | ⟨_, _⟩ | ⟨_, _, _⟩ <;> cases (decide (1 < n.partners.length)) <;> exact fun h => nomatch h
  | @single p test =>
    refine iff_of_false ?_ hangle
    rcases test with _ | ⟨_, _⟩ | ⟨_, _, _⟩ <;> exact fun h => nomatch h

end Circuit
end Sequencer
