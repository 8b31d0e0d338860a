import Xv6Container.Lib.Links
import Mathlib.Data.List.Nodup

/-! Doubly linked rings. `next` leads from the head `a` through a list and back, `prev` leads through
the list in the other direction. An element is taken out where it stands and put in after the
head. -/

namespace Xv6Container.Lib

open Function

variable {α : Type*} {f : α → α} {a b : α} {l s t : List α}

/-! ### One direction -/

namespace Around

theorem next_eq (h : Around f a (s ++ b :: t)) : f b = t.headD a := by
  apply And.left
  apply Links.head (s := a :: s) (z := a)
  simpa [Around] using h

theorem head_eq (h : Around f a l) : f a = l.headD a := by
  apply And.left
  apply Links.head (s := []) (z := a)
  exact h

/-- The head with a list, from its other end. -/
theorem exists_last (a : α) (s : List α) : ∃ u, a :: s = u ++ [s.getLastD a] := by
  refine ⟨(a :: s).dropLast, ?_⟩
  have hlast := List.dropLast_append_getLast (List.cons_ne_nil a s)
  rw [List.getLast_eq_getLastD] at hlast
  exact hlast.symm

variable [DecidableEq α]

/-- An element is left out of a ring, wherever it stands. -/
theorem cut (h : Around f a (s ++ b :: t)) (hnodup : (a :: (s ++ b :: t)).Nodup) :
    Around (update f (s.getLastD a) (f b)) a (s ++ t) := by
  obtain ⟨u, hu⟩ := exists_last a s
  have hlist : a :: (s ++ b :: t) = u ++ s.getLastD a :: b :: t := by
    rw [← List.cons_append, hu, List.append_assoc, List.singleton_append]
  have h : Links f (u ++ s.getLastD a :: b :: (t ++ [a])) := by
    have hlinks : Links f (a :: (s ++ b :: t) ++ [a]) := h
    rw [hlist] at hlinks
    simpa using hlinks
  rw [hlist, List.nodup_append] at hnodup
  have hlinks := h.cut (fun hmem => hnodup.2.2 _ hmem _ List.mem_cons_self rfl)
    (fun hmem => (List.nodup_cons.1 hnodup.2.1).1 (List.mem_cons_of_mem b hmem))
  have hrest : u ++ s.getLastD a :: (t ++ [a]) = a :: (s ++ t ++ [a]) := by
    rw [List.append_cons, ← hu]
    simp
  rwa [hrest] at hlinks

theorem put_front (h : Around f a l) (ha : a ∉ l) (hb : b ∉ a :: l) :
    Around (update (update f b (f a)) a b) a (b :: l) := by
  rw [List.mem_cons, not_or] at hb
  exact Links.put (s := []) h List.not_mem_nil ha hb.1 List.not_mem_nil hb.2

theorem put_back (h : Around f a l) (hnodup : (a :: l).Nodup) (hb : b ∉ a :: l) :
    Around (update (update f b a) (l.getLastD a) b) a (l ++ [b]) := by
  obtain ⟨u, hu⟩ := exists_last a l
  have hlinks : Links f (u ++ l.getLastD a :: ([] ++ [a])) := by
    have hlinks : Links f (a :: l ++ [a]) := h
    rw [hu] at hlinks
    simpa using hlinks
  have hlast := hlinks.head.1
  rw [hu, List.nodup_append] at hnodup
  rw [hu, List.mem_append, List.mem_singleton, not_or] at hb
  have hput := hlinks.put (fun hmem => hnodup.2.2 _ hmem _ List.mem_cons_self rfl)
    List.not_mem_nil hb.2 hb.1 List.not_mem_nil
  rw [hlast] at hput
  have hrest : u ++ l.getLastD a :: b :: ([] ++ [a]) = a :: (l ++ [b] ++ [a]) := by
    rw [List.append_cons, ← hu]
    simp
  rwa [hrest] at hput

end Around

theorem headD_reverse (l : List α) (a : α) : l.reverse.headD a = l.getLastD a := by
  rw [List.headD_eq_head?_getD, List.head?_reverse, List.getLastD_eq_getLast?]

theorem getLastD_reverse (l : List α) (a : α) : l.reverse.getLastD a = l.headD a := by
  rw [← headD_reverse, List.reverse_reverse]

/-! ### Both directions -/

structure Doubly (α : Type*) where
  next : α → α
  prev : α → α

namespace Doubly

variable {r : Doubly α}

/-- The ring is made of the head and the list, each once. -/
structure Holds (r : Doubly α) (a : α) (l : List α) : Prop where
  nodup : (a :: l).Nodup
  next : Around r.next a l
  prev : Around r.prev a l.reverse

variable [DecidableEq α]

/-- `b->next->prev = b->prev; b->prev->next = b->next` -/
def unlink (r : Doubly α) (b : α) : Doubly α :=
  let r := { r with prev := update r.prev (r.next b) (r.prev b) }
  { r with next := update r.next (r.prev b) (r.next b) }

/-- `b->next = head.next; b->prev = &head; head.next->prev = b; head.next = b` -/
def pushFront (r : Doubly α) (a b : α) : Doubly α :=
  let r := { r with next := update r.next b (r.next a) }
  let r := { r with prev := update r.prev b a }
  let r := { r with prev := update r.prev (r.next a) b }
  { r with next := update r.next a b }

theorem Holds.unlink (h : Holds r a (s ++ b :: t)) : Holds (r.unlink b) a (s ++ t) := by
  have hreverse : (s ++ b :: t).reverse = t.reverse ++ b :: s.reverse := by simp
  have hprev := h.prev
  rw [hreverse] at hprev
  have hnodup : (a :: (t.reverse ++ b :: s.reverse)).Nodup := by
    rw [← hreverse]
    exact (List.Perm.nodup_iff (.cons a (List.reverse_perm _))).2 h.nodup
  have hbprev : r.prev b = s.getLastD a := by rw [hprev.next_eq, headD_reverse]
  have hbnext : r.next b = t.headD a := h.next.next_eq
  -- `b` is not after itself, so that its own pointer is read unchanged.
  have hne : b ≠ r.next b := by
    rw [hbnext]
    have hnodup := h.nodup
    rw [List.nodup_cons, List.nodup_append, List.nodup_cons] at hnodup
    cases t with
    | nil =>
      rintro rfl
      exact hnodup.1 (by simp)
    | cons c t =>
      rintro rfl
      exact hnodup.2.2.1.1 List.mem_cons_self
  constructor
  · exact h.nodup.sublist (.cons_cons a (.append_left (List.sublist_cons_self b t) s))
  · have hnext := h.next.cut h.nodup
    show Around (update r.next (update r.prev (r.next b) (r.prev b) b) (r.next b)) a (s ++ t)
    rwa [update_of_ne hne, hbprev]
  · have hcut := hprev.cut hnodup
    rw [getLastD_reverse, ← hbnext, ← List.reverse_append] at hcut
    exact hcut

theorem Holds.pushFront (h : Holds r a l) (hb : b ∉ a :: l) : Holds (r.pushFront a b) a (b :: l) := by
  have ha := (List.nodup_cons.1 h.nodup).1
  have hab : a ≠ b := fun e => hb (by simp [e])
  constructor
  · rw [List.nodup_cons, List.nodup_cons]
    rw [List.mem_cons, not_or] at hb
    refine ⟨?_, hb.2, (List.nodup_cons.1 h.nodup).2⟩
    rw [List.mem_cons, not_or]
    exact ⟨hab, ha⟩
  · exact h.next.put_front ha hb
  · have hreverse : (a :: l.reverse).Perm (a :: l) := .cons a (List.reverse_perm l)
    have hput := h.prev.put_back (hreverse.nodup_iff.2 h.nodup) (hreverse.mem_iff.not.2 hb)
    rw [getLastD_reverse, ← h.next.head_eq, ← List.reverse_cons] at hput
    show Around (update (update r.prev b a) (update r.next b (r.next a) a) b) a (b :: l).reverse
    rwa [update_of_ne hab]

/-! ### Search -/

/-- Follow `f` to the first element that passes the test, up to the head `a`. Without fuel the walk
has not ended. -/
def search (f : α → α) (a : α) (p : α → Bool) : ℕ → α → Option (Option α)
  | 0, _ => none
  | n + 1, x => if x = a then some none else if p x then some (some x) else search f a p n (f x)

theorem search_links {p : α → Bool} {n : ℕ} (h : Links f (l ++ [a])) (ha : a ∉ l)
    (hn : l.length < n) : search f a p n (l.headD a) = some (l.find? p) := by
  induction l generalizing n with
  | nil =>
    obtain ⟨n, rfl⟩ := Nat.exists_eq_add_one_of_ne_zero (by omega : n ≠ 0)
    rw [List.headD_nil, search, if_pos rfl, List.find?_nil]
  | cons x l ih =>
    obtain ⟨n, rfl⟩ := Nat.exists_eq_add_one_of_ne_zero (by omega : n ≠ 0)
    rw [List.mem_cons, not_or] at ha
    have hx := Links.head (s := []) (z := a) h
    rw [List.headD_cons, search, if_neg (Ne.symm ha.1)]
    by_cases hp : p x
    · rw [if_pos hp, List.find?_cons_of_pos hp]
    · rw [if_neg hp, List.find?_cons_of_neg hp, hx.1]
      exact ih hx.2 ha.2 (Nat.lt_of_succ_lt_succ hn)

/-- A search around the ring is a search in the list. -/
theorem search_eq {p : α → Bool} {n : ℕ} (h : Around f a l) (ha : a ∉ l) (hn : l.length < n) :
    search f a p n (f a) = some (l.find? p) := by
  rw [h.head_eq]
  exact search_links (Links.head (s := []) (z := a) h).2 ha hn

end Doubly
end Xv6Container.Lib
