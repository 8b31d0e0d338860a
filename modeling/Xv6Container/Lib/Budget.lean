import Mathlib.Algebra.Order.BigOperators.Group.Finset
import Mathlib.Data.Finset.Card

/-! Budgets against a shared list. Every active party may put a bounded number of distinct
items on the list, and an item that is there already costs nothing. What a party may
still add is its claim; the length of the list plus all the claims does not grow while
the parties only spend. -/

namespace Xv6Container.Lib

variable {P β : Type*} [DecidableEq β] {B : ℕ} {w : P → Finset β} {l : List β}
  {act : Finset P} {p : P} {b : β}

/-- The items of `w` that are on the list. -/
def spent (w : Finset β) (l : List β) : ℕ := (w.filter (· ∈ l)).card

/-- What a party that has named the items `w` may still add under the budget `B`. -/
def claim (B : ℕ) (w : Finset β) (l : List β) : ℕ := B - spent w l

/-- All that the active parties may still add. -/
def owed (B : ℕ) (act : Finset P) (w : P → Finset β) (l : List β) : ℕ :=
  ∑ p ∈ act, claim B (w p) l

theorem spent_mono {v w : Finset β} {l m : List β} (hw : v ⊆ w) (hl : l ⊆ m) :
    spent v l ≤ spent w m := by
  apply Finset.card_le_card
  intro x hx
  rw [Finset.mem_filter] at hx ⊢
  exact ⟨hw hx.1, hl hx.2⟩

theorem claim_anti {v w : Finset β} {l m : List β} (hw : v ⊆ w) (hl : l ⊆ m) :
    claim B w m ≤ claim B v l := Nat.sub_le_sub_left (spent_mono hw hl) B

/-- A new item on the list counts as spent by a party that has named it. -/
theorem spent_append {w : Finset β} (hb : b ∈ w) (hl : b ∉ l) :
    spent w (l ++ [b]) = spent w l + 1 := by
  have h : w.filter (· ∈ l ++ [b]) = insert b (w.filter (· ∈ l)) := by
    ext x
    simp only [Finset.mem_filter, List.mem_append, List.mem_singleton, Finset.mem_insert]
    constructor
    · rintro ⟨hx, h | h⟩
      · exact .inr ⟨hx, h⟩
      · exact .inl h
    · rintro (rfl | ⟨hx, h⟩)
      · exact ⟨hb, .inr rfl⟩
      · exact ⟨hx, .inl h⟩
  rw [spent, h, Finset.card_insert_of_notMem (by simp [hl])]
  rfl

/-- A party within its budget pays for the item it adds. -/
theorem claim_append {w : Finset β} (hb : b ∈ w) (hl : b ∉ l) (hw : w.card ≤ B) :
    claim B w (l ++ [b]) + 1 = claim B w l := by
  have h : spent w (l ++ [b]) ≤ B := (Finset.card_filter_le _ _).trans hw
  rw [spent_append hb hl] at h
  simp only [claim, spent_append hb hl]
  omega

theorem owed_le (B : ℕ) (act : Finset P) (w : P → Finset β) (l : List β) :
    owed B act w l ≤ act.card * B :=
  calc ∑ p ∈ act, claim B (w p) l
      ≤ ∑ _p ∈ act, B := Finset.sum_le_sum fun _ _ => Nat.sub_le _ _
    _ = act.card * B := Finset.sum_const_nat fun _ _ => rfl

theorem owed_anti {v : P → Finset β} {m : List β} (hw : ∀ q ∈ act, v q ⊆ w q) (hl : l ⊆ m) :
    owed B act w m ≤ owed B act v l :=
  Finset.sum_le_sum fun q hq => claim_anti (hw q hq) hl

theorem owed_subset {act' : Finset P} (h : act' ⊆ act) : owed B act' w l ≤ owed B act w l :=
  Finset.sum_le_sum_of_subset h

/-- The length of the list plus what is owed does not grow when an active party adds an
item it has named. -/
theorem length_add_owed_append [DecidableEq P] (hp : p ∈ act) (hb : b ∈ w p) (hl : b ∉ l) (hw : (w p).card ≤ B) :
    (l ++ [b]).length + owed B act w (l ++ [b]) ≤ l.length + owed B act w l := by
  have h1 := Finset.add_sum_erase act (fun q => claim B (w q) (l ++ [b])) hp
  have h2 := Finset.add_sum_erase act (fun q => claim B (w q) l) hp
  have h3 : ∑ q ∈ act.erase p, claim B (w q) (l ++ [b]) ≤ ∑ q ∈ act.erase p, claim B (w q) l :=
    Finset.sum_le_sum fun q _ => claim_anti (Finset.Subset.refl _) (List.subset_append_left _ _)
  have h4 := claim_append hb hl hw
  simp only [owed, List.length_append, List.length_singleton]
  omega

end Xv6Container.Lib
