import Mathlib.Algebra.BigOperators.Group.Finset.Basic
import Mathlib.Algebra.BigOperators.Group.Finset.Piecewise
import Mathlib.Algebra.Order.BigOperators.Group.Finset
import Mathlib.Data.Fintype.Basic

/-! Counting pointers. A table of places that may point to something is tallied by target;
a change to one place changes the tally of its old target and of its new one. -/

namespace Xv6Container.Lib

variable {ι β γ : Type*} [Fintype ι] [DecidableEq ι]

/-- A sum over a table in which one place has changed. -/
theorem sum_update (g : β → ℤ) (f : ι → β) (i : ι) (v : β) :
    ∑ x, g (Function.update f i v x) = ∑ x, g (f x) - g (f i) + g v := by
  have hrest : ∑ x ∈ Finset.univ.erase i, g (Function.update f i v x) =
      ∑ x ∈ Finset.univ.erase i, g (f x) := by
    refine Finset.sum_congr rfl fun x hx => ?_
    rw [Function.update_of_ne (Finset.ne_of_mem_erase hx)]
  have hnew := Finset.add_sum_erase Finset.univ (fun x => g (Function.update f i v x))
    (Finset.mem_univ i)
  have hold := Finset.add_sum_erase Finset.univ (fun x => g (f x)) (Finset.mem_univ i)
  rw [hrest] at hnew
  simp only [Function.update_self] at hnew
  omega

/-- The places of `f` that point to `c`. -/
def tally [DecidableEq γ] (f : ι → Option γ) (c : γ) : ℤ := ∑ x, if f x = some c then 1 else 0

variable [DecidableEq γ] (f : ι → Option γ) (i : ι) (v : Option γ) (c : γ)

theorem tally_update : tally (Function.update f i v) c =
    tally f c - (if f i = some c then 1 else 0) + (if v = some c then 1 else 0) :=
  sum_update (fun o => if o = some c then (1 : ℤ) else 0) f i v

omit [DecidableEq ι] in
theorem tally_none : tally (fun _ : ι => none) c = 0 := Finset.sum_eq_zero fun _ _ => if_neg nofun

omit [DecidableEq ι] in
theorem tally_nonneg : 0 ≤ tally f c := by
  refine Finset.sum_nonneg fun x _ => ?_
  split_ifs
  · exact Int.zero_le_ofNat 1
  · exact le_refl 0

variable {f i c}

omit [DecidableEq ι] in
theorem tally_pos (h : f i = some c) : 0 < tally f c := by
  have hle := Finset.single_le_sum (f := fun x => if f x = some c then (1 : ℤ) else 0)
    (fun x _ => by split_ifs <;> decide) (Finset.mem_univ i)
  simp only [h, if_true] at hle
  unfold tally
  omega

omit [DecidableEq ι] in
theorem exists_of_tally_ne_zero (h : tally f c ≠ 0) : ∃ i, f i = some c := by
  obtain ⟨i, -, hi⟩ := Finset.exists_ne_zero_of_sum_ne_zero h
  refine ⟨i, ?_⟩
  by_contra hne
  exact hi (if_neg hne)

/-- Two places count twice. -/
theorem eq_of_tally_le_one {j : ι} (h : tally f c ≤ 1) (hi : f i = some c) (hj : f j = some c) :
    i = j := by
  by_contra hne
  have hnonneg : ∀ x, 0 ≤ if f x = some c then (1 : ℤ) else 0 := by
    intro x
    split_ifs
    · exact Int.zero_le_ofNat 1
    · exact le_refl 0
  have hle := Finset.sum_le_sum_of_subset_of_nonneg (Finset.subset_univ {i, j})
    fun x _ _ => hnonneg x
  rw [Finset.sum_pair hne, if_pos hi, if_pos hj] at hle
  unfold tally at h
  omega

end Xv6Container.Lib
