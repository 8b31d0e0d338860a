import Mathlib.Data.List.Basic

/-! A list as a flat array: some elements are replaced by others, and those behind the end are
appended. -/

namespace Xv6Container.Lib

variable {α : Type*} {l p q : List α} {off k : ℕ}

/-- The elements from `off` on are replaced by `p`. -/
def splice (l : List α) (off : ℕ) (p : List α) : List α :=
  l.take off ++ p ++ l.drop (off + p.length)

theorem splice_nil (l : List α) (off : ℕ) : splice l off [] = l := by
  rw [splice, List.append_nil, List.length_nil, Nat.add_zero, List.take_append_drop]

theorem length_splice (h : off ≤ l.length) :
    (splice l off p).length = max l.length (off + p.length) := by
  rw [splice, List.length_append, List.length_append, List.length_take, List.length_drop]
  omega

theorem getElem?_splice (h : off ≤ l.length) : (splice l off p)[k]? =
    if k < off then l[k]? else if k < off + p.length then p[k - off]? else l[k]? := by
  have htake : (l.take off).length = off := by
    rw [List.length_take]
    omega
  rw [splice, List.append_assoc]
  split_ifs with hlow hin
  · rw [List.getElem?_append_left (by omega), List.getElem?_take_of_lt hlow]
  · rw [List.getElem?_append_right (by omega), htake, List.getElem?_append_left (by omega)]
  · rw [List.getElem?_append_right (by omega), htake, List.getElem?_append_right (by omega),
      List.getElem?_drop]
    congr 1
    omega

/-- Two pieces one behind the other. -/
theorem splice_append (h : off ≤ l.length) :
    splice (splice l off p) (off + p.length) q = splice l off (p ++ q) := by
  have hlen : off + p.length ≤ (splice l off p).length := by
    rw [length_splice h]
    exact Nat.le_max_right _ _
  apply List.ext_getElem?
  intro k
  rw [getElem?_splice hlen, getElem?_splice h, getElem?_splice h, List.length_append,
    List.getElem?_append]
  by_cases hlow : k < off
  · rw [if_pos hlow, if_pos hlow, if_pos (by omega)]
  · rw [if_neg hlow, if_neg hlow]
    by_cases hp : k < off + p.length
    · rw [if_pos hp, if_pos hp, if_pos (by omega), if_pos (by omega)]
    · rw [if_neg hp, if_neg hp, if_neg (by omega : ¬ k - off < p.length)]
      by_cases hq : k < off + p.length + q.length
      · rw [if_pos hq, if_pos (by omega), Nat.sub_sub]
      · rw [if_neg hq, if_neg (by omega)]

/-- What was written is read back. -/
theorem take_drop_splice (h : off ≤ l.length) : ((splice l off p).drop off).take p.length = p := by
  rw [splice, List.append_assoc, List.drop_append_of_le_length, List.drop_take, Nat.sub_self,
    List.take_zero, List.nil_append, List.take_left']
  · rfl
  · rw [List.length_take]
    omega

/-- What lies before the place of the write is read as before. -/
theorem take_drop_splice_of_le {i n : ℕ} (h : off ≤ l.length) (hn : i + n ≤ off) :
    ((splice l off p).drop i).take n = (l.drop i).take n := by
  apply List.ext_getElem?
  intro k
  by_cases hk : k < n
  · rw [List.getElem?_take_of_lt hk, List.getElem?_take_of_lt hk, List.getElem?_drop,
      List.getElem?_drop, getElem?_splice h, if_pos (by omega)]
  · rw [List.getElem?_take_eq_none (by omega), List.getElem?_take_eq_none (by omega)]

/-- What lies behind the write is read as before. -/
theorem drop_splice_of_le {i : ℕ} (h : off ≤ l.length) (hi : off + p.length ≤ i) :
    (splice l off p).drop i = l.drop i := by
  apply List.ext_getElem?
  intro k
  rw [List.getElem?_drop, List.getElem?_drop, getElem?_splice h, if_neg (by omega), if_neg (by omega)]

/-! ### Pieces one behind the other -/

/-- Pieces with their places: each begins where the one before it ends, the first one at `off`. -/
def Tiles (off : ℕ) : List (ℕ × List α) → Prop
  | [] => True
  | p :: ps => p.1 = off ∧ Tiles (off + p.2.length) ps

namespace Tiles

variable {ps : List (ℕ × List α)}

theorem concat {p : ℕ × List α} (h : Tiles off ps)
    (hp : p.1 = off + (ps.flatMap Prod.snd).length) : Tiles off (ps ++ [p]) := by
  induction ps generalizing off with
  | nil => exact ⟨hp, trivial⟩
  | cons q ps ih =>
    refine ⟨h.1, ih h.2 ?_⟩
    rw [hp, List.flatMap_cons, List.length_append, Nat.add_assoc]

theorem le (h : Tiles off ps) : ∀ p ∈ ps, off ≤ p.1 := by
  induction ps generalizing off with
  | nil => nofun
  | cons q ps ih =>
    intro p hp
    rcases List.mem_cons.1 hp with rfl | hp
    · exact Nat.le_of_eq h.1.symm
    · exact Nat.le_trans (Nat.le_add_right _ _) (ih h.2 p hp)

/-- No two pieces overlap. -/
theorem pairwise (h : Tiles off ps) : ps.Pairwise fun p q => p.1 + p.2.length ≤ q.1 := by
  induction ps generalizing off with
  | nil => exact .nil
  | cons q ps ih =>
    refine .cons (fun p hp => ?_) (ih h.2)
    rw [h.1]
    exact h.2.le p hp

/-- Every piece is read back where it was put. -/
theorem read (h : Tiles off ps) (hl : off ≤ l.length) : ∀ p ∈ ps,
    ((splice l off (ps.flatMap Prod.snd)).drop p.1).take p.2.length = p.2 := by
  induction ps generalizing off l with
  | nil => nofun
  | cons q ps ih =>
    have hlen : off + q.2.length ≤ (splice l off q.2).length := by
      rw [length_splice hl]
      exact Nat.le_max_right _ _
    intro p hp
    rw [List.flatMap_cons, ← splice_append hl]
    rcases List.mem_cons.1 hp with rfl | hp
    · rw [h.1, take_drop_splice_of_le hlen (Nat.le_refl _), take_drop_splice hl]
    · exact ih h.2 hlen p hp

end Tiles

end Xv6Container.Lib
