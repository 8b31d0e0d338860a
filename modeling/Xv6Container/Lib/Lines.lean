import Mathlib.Data.Nat.Init
import Mathlib.Tactic.Common

/-! Lines: the pieces of a list that end with a separator, and what is left behind the last one. -/

namespace Xv6Container.Lib

variable {α : Type*} [DecidableEq α] {sep : α} {l w : List α} {ws : List (List α)}

/-- The lines that have come to their end, without it. -/
def terminated (sep : α) (l : List α) : List (List α) := (l.splitOn sep).dropLast

/-- What stands behind the last separator. -/
def unfinished (sep : α) (l : List α) : List α := (l.splitOn sep).getLastD []

/-- Lines one behind the other, each with its end. -/
def written (sep : α) (ws : List (List α)) : List α := ws.flatMap (· ++ [sep])

omit [DecidableEq α] in
@[simp] theorem written_nil : written sep [] = [] := rfl

omit [DecidableEq α] in
@[simp] theorem written_cons : written sep (w :: ws) = w ++ sep :: written sep ws := by
  rw [written, List.flatMap_cons, List.append_assoc]
  rfl

omit [DecidableEq α] in
@[simp] theorem written_append {vs : List (List α)} :
    written sep (ws ++ vs) = written sep ws ++ written sep vs :=
  List.flatMap_append

theorem terminated_of_notMem (h : sep ∉ l) : terminated sep l = [] := by
  rw [terminated, List.splitOn_eq_singleton h]
  rfl

theorem unfinished_of_notMem (h : sep ∉ l) : unfinished sep l = l := by
  rw [unfinished, List.splitOn_eq_singleton h]
  rfl

theorem terminated_append_cons (hw : sep ∉ w) :
    terminated sep (w ++ sep :: l) = w :: terminated sep l := by
  rw [terminated, List.splitOn_append_cons_self_of_not_mem hw,
    List.dropLast_cons_of_ne_nil (List.splitOn_ne_nil sep l)]
  rfl

theorem unfinished_append_cons (hw : sep ∉ w) :
    unfinished sep (w ++ sep :: l) = unfinished sep l := by
  rw [unfinished, unfinished, List.splitOn_append_cons_self_of_not_mem hw]
  obtain ⟨v, vs, hvs⟩ := List.exists_cons_of_ne_nil (List.splitOn_ne_nil sep l)
  rw [hvs, List.getLastD_cons, List.getLastD_cons, List.getLastD_cons]

/-- Induction on the lines. -/
theorem lines_induction (sep : α) {P : List α → Prop} (last : ∀ l, sep ∉ l → P l)
    (line : ∀ w l, sep ∉ w → P l → P (w ++ sep :: l)) (l : List α) : P l := by
  induction h : l.length using Nat.strong_induction_on generalizing l with
  | _ n ih =>
    subst h
    by_cases hsep : sep ∈ l
    · obtain ⟨w, t, rfl, hw⟩ := List.eq_append_cons_of_mem hsep
      refine line w t hw (ih _ ?_ t rfl)
      rw [List.length_append, List.length_cons]
      omega
    · exact last l hsep

theorem notMem_unfinished (l : List α) : sep ∉ unfinished sep l := by
  induction l using lines_induction sep with
  | last l h => rwa [unfinished_of_notMem h]
  | line w l hw ih => rwa [unfinished_append_cons hw]

theorem notMem_of_mem_terminated (hw : w ∈ terminated sep l) : sep ∉ w := by
  induction l using lines_induction sep with
  | last l h =>
    rw [terminated_of_notMem h] at hw
    exact absurd hw List.not_mem_nil
  | line v l hv ih =>
    rw [terminated_append_cons hv] at hw
    rcases List.mem_cons.1 hw with rfl | hw
    · exact hv
    · exact ih hw

/-- Nothing is lost. -/
theorem written_terminated (sep : α) (l : List α) :
    written sep (terminated sep l) ++ unfinished sep l = l := by
  induction l using lines_induction sep with
  | last l h => rw [terminated_of_notMem h, unfinished_of_notMem h, written_nil, List.nil_append]
  | line w l hw ih =>
    rw [terminated_append_cons hw, unfinished_append_cons hw, written_cons, List.append_assoc,
      List.cons_append, ih]

/-- Lines can be read back. -/
theorem terminated_written (h : ∀ w ∈ ws, sep ∉ w) : terminated sep (written sep ws) = ws := by
  induction ws with
  | nil => exact terminated_of_notMem List.not_mem_nil
  | cons w ws ih =>
    obtain ⟨hw, hws⟩ := List.forall_mem_cons.1 h
    rw [written_cons, terminated_append_cons hw, ih hws]

theorem written_inj {vs : List (List α)} (hws : ∀ w ∈ ws, sep ∉ w) (hvs : ∀ v ∈ vs, sep ∉ v) :
    written sep ws = written sep vs ↔ ws = vs := by
  constructor
  · intro h
    rw [← terminated_written hws, h, terminated_written hvs]
  · rintro rfl
    rfl

/-- What comes later goes on with the line that is not finished. -/
theorem terminated_append (l t : List α) :
    terminated sep (l ++ t) = terminated sep l ++ terminated sep (unfinished sep l ++ t) := by
  induction l using lines_induction sep with
  | last l h => rw [terminated_of_notMem h, unfinished_of_notMem h, List.nil_append]
  | line w l hw ih =>
    rw [List.append_assoc, List.cons_append, terminated_append_cons hw, ih,
      terminated_append_cons hw, unfinished_append_cons hw, List.cons_append]

theorem unfinished_length_lt (h : sep ∈ l) : (unfinished sep l).length < l.length := by
  obtain ⟨w, t, rfl, hw⟩ := List.eq_append_cons_of_mem h
  have := congrArg List.length (written_terminated sep t)
  rw [List.length_append] at this
  rw [unfinished_append_cons hw, List.length_append, List.length_cons]
  omega

end Xv6Container.Lib
