import Mathlib.Data.List.TakeWhile
import Mathlib.Tactic.Common

/-! Lists that are cut up at a separator: the components are the longest pieces without the
separator, less the empty ones. -/

namespace Xv6Container.Lib

variable {α : Type*} [DecidableEq α] {sep : α} {l w : List α}

/-- The longest pieces without the separator that are not empty. -/
def components (sep : α) (l : List α) : List (List α) := (l.splitOn sep).filter (· ≠ [])

@[simp] theorem components_nil : components sep ([] : List α) = [] := by
  rw [components, List.splitOn_nil]
  rfl

@[simp] theorem components_sep_cons : components sep (sep :: l) = components sep l := by
  rw [components, ← List.nil_append (sep :: l),
    List.splitOn_append_cons_self_of_not_mem List.not_mem_nil]
  exact List.filter_cons_of_neg (by simp)

/-- A piece at the end. -/
theorem components_eq_singleton (hw : sep ∉ w) (hne : w ≠ []) : components sep w = [w] := by
  rw [components, List.splitOn_eq_singleton hw]
  exact List.filter_cons_of_pos (by simpa using hne)

/-- A piece before a separator. -/
theorem components_append_cons (hw : sep ∉ w) (hne : w ≠ []) :
    components sep (w ++ sep :: l) = w :: components sep l := by
  rw [components, List.splitOn_append_cons_self_of_not_mem hw]
  exact List.filter_cons_of_pos (by simpa using hne)

/-- Separators in front do not count. -/
theorem components_dropWhile (l : List α) :
    components sep (l.dropWhile (· = sep)) = components sep l := by
  induction l with
  | nil => rfl
  | cons a l ih =>
    rw [List.dropWhile_cons]
    split_ifs with ha
    · rw [ih, of_decide_eq_true ha, components_sep_cons]
    · rfl

omit [DecidableEq α] in
/-- Dropping stops at an element that is not to be dropped. -/
theorem not_of_dropWhile_eq_cons {p : α → Bool} {a : α} {rest : List α}
    (h : l.dropWhile p = a :: rest) : p a = false := by
  have := List.head?_dropWhile_not p l
  rwa [h] at this

/-- The first component, and those behind it. -/
theorem components_cons {a : α} (ha : a ≠ sep) :
    components sep (a :: l) = (a :: l).takeWhile (· ≠ sep) ::
      components sep ((a :: l).dropWhile (· ≠ sep)) := by
  have hne : (a :: l).takeWhile (· ≠ sep) ≠ [] := by
    rw [List.takeWhile_cons_of_pos (by simpa using ha)]
    nofun
  have hmem : sep ∉ (a :: l).takeWhile (· ≠ sep) := by
    intro h
    have := List.mem_takeWhile_imp h
    simp at this
  have happ : (a :: l).takeWhile (· ≠ sep) ++ (a :: l).dropWhile (· ≠ sep) = a :: l :=
    List.takeWhile_append_dropWhile
  cases hd : (a :: l).dropWhile (· ≠ sep) with
  | nil =>
    rw [hd, List.append_nil] at happ
    rw [components_nil, ← components_eq_singleton hmem hne, happ]
  | cons b rest =>
    have hb : b = sep := by simpa using not_of_dropWhile_eq_cons hd
    rw [hd, hb] at happ
    rw [hb, components_sep_cons, ← components_append_cons hmem hne, happ]

/-- There are no components if there are only separators. -/
theorem components_eq_nil_iff : components sep l = [] ↔ l.dropWhile (· = sep) = [] := by
  rw [← components_dropWhile]
  cases hd : l.dropWhile (· = sep) with
  | nil => simp
  | cons a rest =>
    have ha : a ≠ sep := by simpa using not_of_dropWhile_eq_cons hd
    rw [components_cons ha]
    simp

end Xv6Container.Lib
