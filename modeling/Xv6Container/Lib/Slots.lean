import Mathlib.Data.List.Nodup
import Mathlib.Data.List.Pairwise

/-! A list of slots each of which holds an item or nothing, and the list of the items held. An item
put into an empty slot is added to the list of items; if no item occurs twice in it, an item is in one
slot. -/

namespace Xv6Container.Lib

variable {ι β : Type*} {f g : ι → Option β} {l : List ι} {i j : ι} {b : β}

/-- An empty slot takes an item. -/
theorem filterMap_put (hl : l.Nodup) (hi : i ∈ l) (hf : f i = none) (hg : g i = some b)
    (hother : ∀ j ∈ l, j ≠ i → g j = f j) : (l.filterMap g).Perm (b :: l.filterMap f) := by
  obtain ⟨s, t, rfl⟩ := List.append_of_mem hi
  have hsplit := List.nodup_append.1 hl
  have hs : s.filterMap g = s.filterMap f := by
    refine List.filterMap_congr fun j hj => hother j (List.mem_append_left _ hj) ?_
    exact hsplit.2.2 j hj i List.mem_cons_self
  have ht : t.filterMap g = t.filterMap f := by
    refine List.filterMap_congr fun j hj => hother j (by simp [hj]) ?_
    rintro rfl
    exact (List.nodup_cons.1 hsplit.2.1).1 hj
  rw [List.filterMap_append, List.filterMap_append, List.filterMap_cons_some hg,
    List.filterMap_cons_none hf, hs, ht]
  exact List.perm_middle

/-- Items that occur once are in one slot. -/
theorem filterMap_inj (h : (l.filterMap f).Nodup) (hi : i ∈ l) (hj : j ∈ l) (hfi : f i = some b)
    (hfj : f j = some b) : i = j := by
  by_contra hne
  have hpair := List.pairwise_filterMap.1 h
  have hsymm : Std.Symm fun i j : ι => ∀ b, f i = some b → ∀ b', f j = some b' → b ≠ b' :=
    ⟨fun _ _ h b hb b' hb' => (h b' hb' b hb).symm⟩
  exact hpair.forall hi hj hne b hfi b hfj rfl

end Xv6Container.Lib
