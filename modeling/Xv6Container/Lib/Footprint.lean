import Mathlib.Data.Finset.Card

/-! Footprints. A set that grows item by item is kept within a few named items and a number of
others: a named item costs nothing, any other one. -/

namespace Xv6Container.Lib

variable {β : Type*} [DecidableEq β] {K K' w : Finset β} {n m : ℕ} {b : β}

/-- At most `n` items of `w` are not in `K`. -/
def Within (K : Finset β) (n : ℕ) (w : Finset β) : Prop := (w \ K).card ≤ n

namespace Within

theorem mono (h : Within K n w) (hnm : n ≤ m) : Within K m w := h.trans hnm

theorem weaken (h : Within K n w) (hK : K ⊆ K') : Within K' n w :=
  (Finset.card_le_card (Finset.sdiff_subset_sdiff (Finset.Subset.refl w) hK)).trans h

theorem empty (K : Finset β) : Within K 0 ∅ := by
  rw [Within, Finset.empty_sdiff, Finset.card_empty]

/-- A named item. -/
theorem insert_mem (h : Within K n w) (hb : b ∈ K) : Within K n (insert b w) := by
  rwa [Within, Finset.insert_sdiff_of_mem w hb]

/-- A named item need not be named if it is counted. -/
theorem absorb (h : Within (insert b K) n w) : Within K (n + 1) w := by
  have hsub : w \ K ⊆ insert b (w \ insert b K) := by
    intro x hx
    rw [Finset.mem_sdiff] at hx
    by_cases hxb : x = b
    · exact Finset.mem_insert.2 (.inl hxb)
    · refine Finset.mem_insert.2 (.inr (Finset.mem_sdiff.2 ⟨hx.1, fun hmem => ?_⟩))
      exact (Finset.mem_insert.1 hmem).elim hxb hx.2
  calc (w \ K).card
      ≤ (insert b (w \ insert b K)).card := Finset.card_le_card hsub
    _ ≤ (w \ insert b K).card + 1 := Finset.card_insert_le _ _
    _ ≤ n + 1 := Nat.succ_le_succ h

theorem card_le (h : Within K n w) : w.card ≤ K.card + n := by
  have hsub : w ⊆ K ∪ w \ K := by
    rw [Finset.union_sdiff_self_eq_union]
    exact Finset.subset_union_right
  calc w.card
      ≤ (K ∪ w \ K).card := Finset.card_le_card hsub
    _ ≤ K.card + (w \ K).card := Finset.card_union_le _ _
    _ ≤ K.card + n := Nat.add_le_add_left h _

end Within

end Xv6Container.Lib
