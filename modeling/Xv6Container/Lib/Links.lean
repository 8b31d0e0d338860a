import Mathlib.Data.List.Chain
import Mathlib.Dynamics.PeriodicPts.Defs

/-! Linked lists and rings. A function `f` links a list if it leads from each element to the one
after it; it makes a ring of `a :: l` if it links `a :: l ++ [a]`. An element is cut out or put in by
changing `f` at the element before it. -/

namespace Xv6Container.Lib

open Function

variable {α : Type*} {f g : α → α}

/-- `f` leads from each element of the list to the one after it. -/
def Links (f : α → α) (l : List α) : Prop := l.IsChain fun x y => f x = y

/-- `f` leads from `a` once through `l` and back to `a`. -/
def Around (f : α → α) (a : α) (l : List α) : Prop := Links f (a :: (l ++ [a]))

namespace Links

theorem split {s t : List α} {x : α} :
    Links f (s ++ x :: t) ↔ Links f (s ++ [x]) ∧ Links f (x :: t) := List.isChain_split

theorem cons {x y : α} {t : List α} : Links f (x :: y :: t) ↔ f x = y ∧ Links f (y :: t) :=
  List.isChain_cons_cons

/-- The last element may lead anywhere. -/
theorem congr {s : List α} {x : α} (h : Links f (s ++ [x])) (hfg : ∀ y ∈ s, g y = f y) :
    Links g (s ++ [x]) := by
  induction s with
  | nil => exact List.isChain_singleton x
  | cons y s ih =>
    have hy := hfg y List.mem_cons_self
    have htail : ∀ z ∈ s, g z = f z := fun z hz => hfg z (List.mem_cons_of_mem y hz)
    cases s with
    | nil => exact cons.2 ⟨hy.trans (cons.1 h).1, ih (cons.1 h).2 htail⟩
    | cons z s => exact cons.2 ⟨hy.trans (cons.1 h).1, ih (cons.1 h).2 htail⟩

/-- Where the list after `x` begins, with `z` as its end. -/
theorem head {s t : List α} {x z : α} (h : Links f (s ++ x :: (t ++ [z]))) :
    f x = t.headD z ∧ Links f (t ++ [z]) := by
  have h := (split.1 h).2
  cases t with
  | nil => exact cons.1 h
  | cons y t => exact cons.1 h

/-- Two pieces joined at `x`. -/
theorem join {s t : List α} {x z : α} (hs : Links g (s ++ [x])) (hx : g x = t.headD z)
    (ht : Links g (t ++ [z])) : Links g (s ++ x :: (t ++ [z])) := by
  refine split.2 ⟨hs, ?_⟩
  cases t with
  | nil => exact cons.2 ⟨hx, ht⟩
  | cons y t => exact cons.2 ⟨hx, ht⟩

variable [DecidableEq α]

/-- Leave out the element after `x`. -/
theorem cut {s t : List α} {x y z : α} (h : Links f (s ++ x :: y :: (t ++ [z])))
    (hs : x ∉ s) (ht : x ∉ t) : Links (update f x (f y)) (s ++ x :: (t ++ [z])) := by
  have hxy := (split.1 h).1
  obtain ⟨hy, htail⟩ : f y = t.headD z ∧ Links f (t ++ [z]) := by
    apply head (s := s ++ [x])
    rwa [List.append_assoc]
  apply join
  · exact hxy.congr fun w hw => update_of_ne (ne_of_mem_of_not_mem hw hs) ..
  · rw [update_self, hy]
  · exact htail.congr fun w hw => update_of_ne (ne_of_mem_of_not_mem hw ht) ..

/-- Put `y` in after `x`. -/
theorem put {s t : List α} {x y z : α} (h : Links f (s ++ x :: (t ++ [z]))) (hs : x ∉ s)
    (ht : x ∉ t) (hxy : y ≠ x) (hys : y ∉ s) (hyt : y ∉ t) :
    Links (update (update f y (f x)) x y) (s ++ x :: y :: (t ++ [z])) := by
  have hother : ∀ w, w ≠ x → w ≠ y → update (update f y (f x)) x y w = f w := by
    intro w hx hy
    rw [update_of_ne hx, update_of_ne hy]
  obtain ⟨hx, htail⟩ := h.head
  refine split.2 ⟨(split.1 h).1.congr fun w hw =>
    hother w (ne_of_mem_of_not_mem hw hs) (ne_of_mem_of_not_mem hw hys), cons.2 ⟨update_self .., ?_⟩⟩
  apply join (s := [])
  · exact List.isChain_singleton y
  · rw [update_of_ne hxy, update_self, hx]
  · exact htail.congr fun w hw => hother w (fun e => ht (e ▸ hw)) fun e => hyt (e ▸ hw)

omit [DecidableEq α] in
theorem iterate {s t : List α} {x y : α} (h : Links f (x :: (s ++ y :: t))) :
    f^[s.length + 1] x = y := by
  induction s generalizing x with
  | nil => exact (cons.1 h).1
  | cons w s ih =>
    have h := cons.1 h
    rw [List.length_cons, iterate_succ_apply, h.1]
    exact ih h.2

end Links

namespace Around

variable {a p q : α} {l : List α}

/-- A ring may be entered anywhere. -/
theorem rotate (h : Around f a l) (hp : p ∈ a :: l) : ∃ m, Around f p m ∧ (p :: m).Perm (a :: l) := by
  rcases List.mem_cons.1 hp with rfl | hp
  · exact ⟨l, h, .refl _⟩
  obtain ⟨s, t, rfl⟩ := List.append_of_mem hp
  have h : Links f (a :: s ++ p :: (t ++ [a])) := by simpa [Around] using h
  refine ⟨t ++ a :: s, ?_, ?_⟩
  · have hjoin : Links f ((p :: t) ++ a :: (s ++ [p])) := by
      apply Links.split.2
      exact ⟨(Links.split.1 h).2, (Links.split.1 h).1⟩
    simpa [Around] using hjoin
  · have hcomm : (p :: t ++ a :: s).Perm (a :: s ++ p :: t) := List.perm_append_comm
    simpa using hcomm

/-- From any element of a ring, a walk of at most a round leads to any other. -/
theorem reaches (h : Around f a l) (hp : p ∈ a :: l) (hq : q ∈ a :: l) :
    ∃ k ≤ l.length, f^[k + 1] p = q := by
  obtain ⟨m, hm, hperm⟩ := h.rotate hp
  have hlength : m.length = l.length := Nat.succ_injective hperm.length_eq
  rcases List.mem_cons.1 (hperm.mem_iff.2 hq) with rfl | hq
  · exact ⟨m.length, hlength.le, Links.iterate hm⟩
  obtain ⟨s, t, rfl⟩ := List.append_of_mem hq
  refine ⟨s.length, by simp at hlength; omega, Links.iterate (t := t ++ [p]) ?_⟩
  simpa [Around] using hm

theorem mem (h : Around f a l) (hp : p ∈ a :: l) : f p ∈ a :: l := by
  obtain ⟨m, hm, hperm⟩ := h.rotate hp
  apply hperm.mem_iff.1
  cases m with
  | nil => rw [(Links.cons.1 hm).1]; exact List.mem_cons_self
  | cons q m =>
    rw [(Links.cons.1 hm).1]
    exact List.mem_cons_of_mem p List.mem_cons_self

theorem iterate_mem (h : Around f a l) (hp : p ∈ a :: l) (k : ℕ) : f^[k] p ∈ a :: l := by
  induction k with
  | zero => exact hp
  | succ k ih =>
    rw [iterate_succ_apply']
    exact h.mem ih

end Around

/-! ### Walking -/

variable {stop : α → Prop} [DecidablePred stop]

/-- Follow `f` to the first element that passes the test. -/
def walk (f : α → α) (stop : α → Prop) [DecidablePred stop] : ℕ → α → Option α
  | 0, _ => none
  | n + 1, x => if stop x then some x else walk f stop n (f x)

theorem walk_of_iterate {k n : ℕ} {x : α} (hk : k < n) (h : stop (f^[k] x)) :
    ∃ j, walk f stop n x = some (f^[j] x) ∧ stop (f^[j] x) := by
  induction n generalizing k x with
  | zero => omega
  | succ n ih =>
    by_cases hx : stop x
    · exact ⟨0, if_pos hx, hx⟩
    cases k with
    | zero => exact absurd h hx
    | succ k =>
      obtain ⟨j, hj, hstop⟩ := ih (x := f x) (by omega) h
      exact ⟨j + 1, (if_neg hx).trans hj, hstop⟩

end Xv6Container.Lib
