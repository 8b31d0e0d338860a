import Mathlib.Data.List.Basic
import Mathlib.Data.Fin.Basic
import Mathlib.Data.List.Count

/-! Taking turns around a circle of `n` places. A hand stands before a place; a turn takes the
first occupied place from the hand on and leaves the hand behind it. The places may be
occupied and left between turns. From one turn of a place to its next turn the hand goes round
once, so every place that stays occupied has a turn. -/

namespace Xv6Container.Lib

variable {n : ℕ}

/-- How many places the hand passes before it comes to place `j`. -/
def ahead (pos : ℕ) (j : Fin n) : ℕ :=
  if pos % n ≤ j.val then j.val - pos % n else j.val + n - pos % n

theorem ahead_lt (pos : ℕ) (j : Fin n) : ahead pos j < n := by
  have hj := j.isLt
  have hpos := Nat.mod_lt pos (Nat.zero_lt_of_lt hj)
  unfold ahead
  split_ifs
  · omega
  · omega

theorem ahead_inj {pos : ℕ} {i j : Fin n} (h : ahead pos i = ahead pos j) : i = j := by
  have hi := i.isLt
  have hj := j.isLt
  have hpos := Nat.mod_lt pos (Nat.zero_lt_of_lt hi)
  unfold ahead at h
  ext
  split_ifs at h
  all_goals omega

/-- The place behind the hand. -/
theorem succ_mod (i : Fin n) : (i.val + 1) % n = if i.val + 1 = n then 0 else i.val + 1 := by
  have hi := i.isLt
  split_ifs with h
  · rw [h, Nat.mod_self]
  · exact Nat.mod_eq_of_lt (by omega)

theorem ahead_succ_self (i : Fin n) : ahead (i.val + 1) i = n - 1 := by
  have hi := i.isLt
  unfold ahead
  rw [succ_mod]
  split_ifs
  all_goals omega

/-- The hand has moved behind place `i` and comes to `j` later. -/
theorem ahead_succ {pos : ℕ} {i j : Fin n} (h : ahead pos i < ahead pos j) :
    ahead (i.val + 1) j + ahead pos i + 1 = ahead pos j := by
  have hi := i.isLt
  have hj := j.isLt
  have hpos := Nat.mod_lt pos (Nat.zero_lt_of_lt hi)
  unfold ahead at h ⊢
  rw [succ_mod]
  split_ifs at h ⊢
  all_goals omega

/-- `i` is the first occupied place from the hand on. -/
structure First (occ : Fin n → Prop) (pos : ℕ) (i : Fin n) : Prop where
  occupied : occ i
  first : ∀ j, occ j → ahead pos i ≤ ahead pos j

theorem First.lt {occ : Fin n → Prop} {pos : ℕ} {i j : Fin n} (h : First occ pos i) (hj : occ j)
    (hij : i ≠ j) : ahead pos i < ahead pos j :=
  lt_of_le_of_ne (h.first j hj) fun heq => hij (ahead_inj heq)

/-- A turn: the places that are occupied and the place that is taken. -/
structure Turn (n : ℕ) where
  occ : Fin n → Prop
  choice : Option (Fin n)

/-- The turns that follow each other from a position of the hand on. -/
def Rotates : ℕ → List (Turn n) → Prop
  | _, [] => True
  | pos, τ :: rest =>
    match τ.choice with
    | none => (∀ j, ¬ τ.occ j) ∧ Rotates pos rest
    | some i => First τ.occ pos i ∧ Rotates (i.val + 1) rest

/-- Where the hand stands after some turns. -/
def hand : ℕ → List (Turn n) → ℕ
  | pos, [] => pos
  | pos, τ :: rest => hand (τ.choice.elim pos fun i => i.val + 1) rest

theorem rotates_append {pos : ℕ} {turns more : List (Turn n)} :
    Rotates pos (turns ++ more) ↔ Rotates pos turns ∧ Rotates (hand pos turns) more := by
  induction turns generalizing pos with
  | nil => simp [Rotates, hand]
  | cons τ turns ih =>
    simp only [List.cons_append, Rotates, hand]
    cases τ.choice with
    | none => simp only [ih, and_assoc, Option.elim_none]
    | some i => simp only [ih, and_assoc, Option.elim_some]

theorem hand_append {pos : ℕ} {turns more : List (Turn n)} :
    hand pos (turns ++ more) = hand (hand pos turns) more := by
  induction turns generalizing pos with
  | nil => rfl
  | cons τ turns ih => exact ih

section Rounds
variable {pos : ℕ} {turns : List (Turn n)} {last : Turn n} {i x : Fin n}

theorem Rotates.tail {τ : Turn n} (h : Rotates pos (τ :: turns)) (hx : τ.occ x)
    (hne : τ.choice ≠ some x) : ∃ y, τ.choice = some y ∧ ahead pos y < ahead pos x ∧
      Rotates (y.val + 1) turns := by
  unfold Rotates at h
  cases hy : τ.choice with
  | none =>
    rw [hy] at h
    exact absurd hx (h.1 x)
  | some y =>
    rw [hy] at h
    refine ⟨y, rfl, h.1.lt hx fun heq => ?_, h.2⟩
    rw [hy, heq] at hne
    exact hne rfl

/-- A place that stays occupied has its turn as soon as the hand comes to it. -/
theorem Rotates.length_le (h : Rotates pos turns) (hocc : ∀ τ ∈ turns, τ.occ x)
    (hne : ∀ τ ∈ turns, τ.choice ≠ some x) : turns.length ≤ ahead pos x := by
  induction turns generalizing pos with
  | nil => exact Nat.zero_le _
  | cons τ turns ih =>
    obtain ⟨y, -, hlt, hrest⟩ := Rotates.tail h (hocc τ List.mem_cons_self)
      (hne τ List.mem_cons_self)
    have hyx := ahead_succ hlt
    have := ih hrest (fun σ hσ => hocc σ (List.mem_cons_of_mem τ hσ))
      fun σ hσ => hne σ (List.mem_cons_of_mem τ hσ)
    rw [List.length_cons]
    omega

/-- A place that the hand comes to before it comes to `i` has a turn before `i` has. -/
theorem Rotates.mem (h : Rotates pos (turns ++ [last])) (hx : ahead pos x < ahead pos i)
    (hlast : last.choice = some i) (hi : ∀ τ ∈ turns, τ.choice ≠ some i)
    (hocc : ∀ τ ∈ turns ++ [last], τ.occ x) : ∃ τ ∈ turns, τ.choice = some x := by
  induction turns generalizing pos with
  | nil =>
    have hfirst : First last.occ pos i := by
      simp only [List.nil_append, Rotates, hlast] at h
      exact h.1
    have := hfirst.first x (hocc last (List.mem_singleton_self last))
    omega
  | cons τ turns ih =>
    by_cases hτ : τ.choice = some x
    · exact ⟨τ, List.mem_cons_self, hτ⟩
    · obtain ⟨y, hy, hlt, hrest⟩ := Rotates.tail h (hocc τ (by simp)) hτ
      have hyx := ahead_succ hlt
      have hyi := ahead_succ (hlt.trans hx)
      obtain ⟨σ, hσ, hchoice⟩ := ih hrest (by omega)
        (fun σ hσ => hi σ (List.mem_cons_of_mem τ hσ))
        (fun σ hσ => hocc σ (List.mem_cons_of_mem τ hσ))
      exact ⟨σ, List.mem_cons_of_mem τ hσ, hchoice⟩

/-- A place that the hand comes to after `i` has no turn before `i` has, if `i` is occupied. -/
theorem Rotates.not_mem (h : Rotates pos (turns ++ [last])) (hx : ahead pos i < ahead pos x)
    (hi : ∀ τ ∈ turns, τ.choice ≠ some i) (hocc : ∀ τ ∈ turns, τ.occ i) :
    ∀ τ ∈ turns, τ.choice ≠ some x := by
  induction turns generalizing pos with
  | nil => exact fun τ hτ => absurd hτ List.not_mem_nil
  | cons τ turns ih =>
    have hτi := hi τ List.mem_cons_self
    obtain ⟨y, hy, hlt, hrest⟩ := Rotates.tail h (hocc τ List.mem_cons_self) hτi
    have hyi := ahead_succ hlt
    have hyx := ahead_succ (hlt.trans hx)
    have ih := ih hrest (by omega) (fun σ hσ => hi σ (List.mem_cons_of_mem τ hσ))
      (fun σ hσ => hocc σ (List.mem_cons_of_mem τ hσ))
    intro σ hσ
    obtain rfl | hσ := List.mem_cons.1 hσ
    · rw [hy]
      intro heq
      rw [Option.some.inj heq] at hlt
      omega
    · exact ih σ hσ

/-- The places taken in some turns. -/
def choices (turns : List (Turn n)) : List (Option (Fin n)) := turns.map Turn.choice

/-- Between two turns of `i` that follow each other, a place that stays occupied has a turn. -/
theorem Rotates.one_le_count (h : Rotates (i.val + 1) (turns ++ [last])) (hxi : x ≠ i)
    (hlast : last.choice = some i) (hi : ∀ τ ∈ turns, τ.choice ≠ some i)
    (hocc : ∀ τ ∈ turns ++ [last], τ.occ x) : 1 ≤ (choices turns).count (some x) := by
  have hx : ahead (i.val + 1) x < ahead (i.val + 1) i := by
    have hlt := ahead_lt (i.val + 1) x
    have hne : ahead (i.val + 1) x ≠ ahead (i.val + 1) i := fun heq => hxi (ahead_inj heq)
    rw [ahead_succ_self] at hne ⊢
    omega
  obtain ⟨τ, hτ, hchoice⟩ := h.mem hx hlast hi hocc
  exact List.one_le_count_iff.2 (List.mem_map.2 ⟨τ, hτ, hchoice⟩)

/-- If `i` stays occupied as well, it has only one. -/
theorem Rotates.count_le_one (h : Rotates pos (turns ++ [last])) (hxi : x ≠ i)
    (hx : ahead pos x < ahead pos i) (hi : ∀ τ ∈ turns, τ.choice ≠ some i)
    (hocc : ∀ τ ∈ turns, τ.occ i) (hoccx : ∀ τ ∈ turns, τ.occ x) :
    (choices turns).count (some x) ≤ 1 := by
  induction turns generalizing pos with
  | nil => exact Nat.zero_le 1
  | cons τ turns ih =>
    have hrest : ∀ σ ∈ turns, σ.choice ≠ some i := fun σ hσ => hi σ (List.mem_cons_of_mem τ hσ)
    have hocc' : ∀ σ ∈ turns, σ.occ i := fun σ hσ => hocc σ (List.mem_cons_of_mem τ hσ)
    obtain ⟨y, hy, hlt, hrot⟩ := Rotates.tail h (hocc τ List.mem_cons_self)
      (hi τ List.mem_cons_self)
    have hyi := ahead_succ hlt
    by_cases hyx : y = x
    · -- the hand now stands behind `x`
      subst hyx
      have hbehind : ahead (y.val + 1) i < ahead (y.val + 1) y := by
        have hlt := ahead_lt (y.val + 1) i
        have hne : ahead (y.val + 1) i ≠ ahead (y.val + 1) y :=
          fun heq => hxi (ahead_inj heq).symm
        rw [ahead_succ_self] at hne ⊢
        omega
      have hnone := hrot.not_mem hbehind hrest hocc'
      have hzero : (choices turns).count (some y) = 0 := by
        refine List.count_eq_zero.2 fun hmem => ?_
        obtain ⟨σ, hσ, hchoice⟩ := List.mem_map.1 hmem
        exact hnone σ hσ hchoice
      unfold choices at hzero ⊢
      rw [List.map_cons, hy, List.count_cons_self, hzero]
    · have hne : τ.choice ≠ some x := by
        rw [hy]
        exact fun heq => hyx (Option.some.inj heq)
      obtain ⟨z, hz, hzx, -⟩ := Rotates.tail h (hoccx τ List.mem_cons_self) hne
      have hzy : z = y := Option.some.inj (hz.symm.trans hy)
      subst hzy
      have hyx' := ahead_succ hzx
      have ih := ih hrot (by omega) hrest hocc'
        fun σ hσ => hoccx σ (List.mem_cons_of_mem τ hσ)
      unfold choices at ih ⊢
      rw [List.map_cons, List.count_cons_of_ne hne]
      exact ih

end Rounds

end Xv6Container.Lib
