import Mathlib.Logic.Function.Basic
import Mathlib.Tactic.Common

/-! Exclusive ownership of marked resources. A slot holds at most one resource; a resource
of the managed domain is marked used exactly when one slot holds it, and no two slots hold
the same one. -/

namespace Xv6Container.Lib

variable {ι β : Type*} {D : β → Prop} {used : β → Bool} {own own' : ι → Option β} {i : ι} {b : β}

structure Exact (D : β → Prop) (used : β → Bool) (own : ι → Option β) : Prop where
  domain : ∀ i b, own i = some b → D b
  marked : ∀ i b, own i = some b → used b = true
  unique : ∀ i j b, own i = some b → own j = some b → i = j
  owned : ∀ b, D b → used b = true → ∃ i, own i = some b

namespace Exact

/-- Nobody holds what is not marked. -/
theorem ne_of_unused (h : Exact D used own) (hb : used b = false) : own i ≠ some b := by
  intro hi
  exact absurd (hb.symm.trans (h.marked i b hi)) (by decide)

/-- An empty slot takes a resource that is not marked. -/
theorem assign [DecidableEq ι] [DecidableEq β] (h : Exact D used own) (hi : own i = none)
    (hD : D b) (hb : used b = false) :
    Exact D (Function.update used b true) (Function.update own i (some b)) := by
  have hcase : ∀ j b', Function.update own i (some b) j = some b' →
      j = i ∧ b' = b ∨ j ≠ i ∧ b' ≠ b ∧ own j = some b' := by
    intro j b' hj
    by_cases hji : j = i
    · rw [hji, Function.update_self] at hj
      exact .inl ⟨hji, (Option.some.inj hj).symm⟩
    · rw [Function.update_of_ne hji] at hj
      refine .inr ⟨hji, ?_, hj⟩
      rintro rfl
      exact h.ne_of_unused hb hj
  constructor
  case domain =>
    intro j b' hj
    rcases hcase j b' hj with ⟨-, rfl⟩ | ⟨-, -, hj⟩
    · exact hD
    · exact h.domain j b' hj
  case marked =>
    intro j b' hj
    rcases hcase j b' hj with ⟨-, rfl⟩ | ⟨-, hne, hj⟩
    · exact Function.update_self _ _ _
    · rw [Function.update_of_ne hne]
      exact h.marked j b' hj
  case unique =>
    intro j k b' hj hk
    rcases hcase j b' hj with ⟨rfl, rfl⟩ | ⟨-, hne, hj⟩
    · rcases hcase k b' hk with ⟨rfl, -⟩ | ⟨-, hne, -⟩
      · rfl
      · exact absurd rfl hne
    · rcases hcase k b' hk with ⟨-, rfl⟩ | ⟨-, -, hk⟩
      · exact absurd rfl hne
      · exact h.unique j k b' hj hk
  case owned =>
    intro b' hD' hb'
    by_cases hne : b' = b
    · exact ⟨i, by rw [Function.update_self, hne]⟩
    · rw [Function.update_of_ne hne] at hb'
      obtain ⟨j, hj⟩ := h.owned b' hD' hb'
      refine ⟨j, ?_⟩
      rw [Function.update_of_ne ?_, hj]
      rintro rfl
      cases hi.symm.trans hj

/-- A slot gives its resource back. -/
theorem release [DecidableEq ι] [DecidableEq β] (h : Exact D used own) (hi : own i = some b) :
    Exact D (Function.update used b false) (Function.update own i none) := by
  have hcase : ∀ j b', Function.update own i none j = some b' →
      j ≠ i ∧ b' ≠ b ∧ own j = some b' := by
    intro j b' hj
    by_cases hji : j = i
    · rw [hji, Function.update_self] at hj
      cases hj
    · rw [Function.update_of_ne hji] at hj
      refine ⟨hji, ?_, hj⟩
      rintro rfl
      exact hji (h.unique j i b' hj hi)
  constructor
  case domain => exact fun j b' hj => h.domain j b' (hcase j b' hj).2.2
  case marked =>
    intro j b' hj
    obtain ⟨-, hne, hj⟩ := hcase j b' hj
    rw [Function.update_of_ne hne]
    exact h.marked j b' hj
  case unique =>
    exact fun j k b' hj hk => h.unique j k b' (hcase j b' hj).2.2 (hcase k b' hk).2.2
  case owned =>
    intro b' hD' hb'
    by_cases hne : b' = b
    · rw [hne, Function.update_self] at hb'
      cases hb'
    · rw [Function.update_of_ne hne] at hb'
      obtain ⟨j, hj⟩ := h.owned b' hD' hb'
      refine ⟨j, ?_⟩
      rw [Function.update_of_ne ?_, hj]
      rintro rfl
      exact hne (Option.some.inj (hj.symm.trans hi))

end Exact

end Xv6Container.Lib
