import Mathlib.Logic.Function.Basic
import Mathlib.Data.Int.Basic

/-! Numbers that are given out once. A counter `next` names the next free number; a holder
gets a new number from the counter or gives its number back, which leaves it with 0. No
two holders ever have the same number, apart from 0. -/

namespace Xv6Container.Lib

variable {ι : Type*} {num : ι → ℤ} {next : ℤ}

structure Tickets (num : ι → ℤ) (next : ℤ) : Prop where
  range : ∀ p, 0 ≤ num p ∧ num p < next
  unique : ∀ p q, num p ≠ 0 → num p = num q → p = q

namespace Tickets

theorem next_ne_zero (h : Tickets num next) (p : ι) : next ≠ 0 := by
  have := h.range p
  omega

variable [DecidableEq ι]

/-- A holder takes the next number. -/
theorem give (h : Tickets num next) (p : ι) : Tickets (Function.update num p next) (next + 1) := by
  have hp := h.range p
  refine ⟨fun q => ?_, fun q r hq hqr => ?_⟩
  · rw [Function.update_apply]
    split_ifs
    · omega
    · have := h.range q
      omega
  · rw [Function.update_apply] at hq hqr
    rw [Function.update_apply] at hqr
    have := h.range q
    have := h.range r
    split_ifs at hq hqr with h1 h2
    · rw [h1, h2]
    · omega
    · omega
    · exact h.unique q r hq hqr

/-- A holder gives its number back. -/
theorem clear (h : Tickets num next) (p : ι) : Tickets (Function.update num p 0) next := by
  have hp := h.range p
  refine ⟨fun q => ?_, fun q r hq hqr => ?_⟩
  · rw [Function.update_apply]
    split_ifs
    · omega
    · exact h.range q
  · rw [Function.update_apply] at hq hqr
    rw [Function.update_apply] at hqr
    split_ifs at hq hqr
    · exact absurd rfl hq
    · exact absurd rfl hq
    · exact absurd hqr hq
    · exact h.unique q r hq hqr

end Tickets

end Xv6Container.Lib
