import Mathlib.Logic.Function.Basic
import Mathlib.Data.List.Basic

/-! Linked lists in memory. The cells are the elements of a type and `link` is the pointer
stored in each; `Path link a l b` says that the pointer `a` leads through exactly the cells
of `l` to the pointer `b`. A list that ends in `none` is a path to `none`, a circular list
is a path from its first cell back to it. -/

namespace Xv6Container.Lib

variable {ι : Type*} {link link' : ι → Option ι} {a b c : Option ι} {l l' : List ι} {p x : ι}

/-- The pointer `a` leads through the cells of the list to the pointer `b`. -/
def Path (link : ι → Option ι) : Option ι → List ι → Option ι → Prop
  | a, [], b => a = b
  | a, p :: l, b => a = some p ∧ Path link (link p) l b

namespace Path

@[simp] theorem nil_iff : Path link a [] b ↔ a = b := Iff.rfl

@[simp] theorem cons_iff : Path link a (p :: l) b ↔ a = some p ∧ Path link (link p) l b := Iff.rfl

/-- Only the links of the cells on the path matter. -/
theorem congr (h : Path link a l b) (hl : ∀ p ∈ l, link' p = link p) : Path link' a l b := by
  induction l generalizing a with
  | nil => exact h
  | cons p l ih =>
    refine ⟨h.1, ?_⟩
    rw [hl p List.mem_cons_self]
    exact ih h.2 fun q hq => hl q (List.mem_cons_of_mem p hq)

theorem append : Path link a (l ++ l') c ↔ ∃ b, Path link a l b ∧ Path link b l' c := by
  induction l generalizing a with
  | nil => simp
  | cons p l ih => simp [ih, and_assoc]

/-- A path that ends in the cell `x` ends in the link of `x`. -/
theorem concat_iff : Path link a (l ++ [x]) b ↔ Path link a l (some x) ∧ link x = b := by
  simp [append]

/-- A new link of the last cell moves the end of the path. -/
theorem redirect [DecidableEq ι] (h : Path link a (l ++ [x]) b) (hx : x ∉ l) (v : Option ι) :
    Path (Function.update link x v) a (l ++ [x]) v := by
  rw [concat_iff] at h ⊢
  refine ⟨h.1.congr fun p hp => ?_, Function.update_self x v link⟩
  rw [Function.update_of_ne]
  rintro rfl
  exact hx hp

/-- A path from a null pointer has no cells. -/
theorem eq_nil (h : Path link none l b) : l = [] := by
  cases l with
  | nil => rfl
  | cons p l => cases h.1

/-- A list that ends in a null pointer begins with its first cell. -/
theorem eq_head? (h : Path link a l none) : a = l.head? := by
  cases l with
  | nil => exact h
  | cons p l => exact h.1

end Path

end Xv6Container.Lib
