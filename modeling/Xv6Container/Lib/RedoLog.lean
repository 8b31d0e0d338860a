import Mathlib.Logic.Function.Basic
import Mathlib.Data.Nat.Notation
import Mathlib.Tactic.Common

/-! Redo logs on a disk of blocks that are written one at a time. A transaction copies the
new contents of its blocks to the slots of the log, then writes their addresses to the
head, which commits it, then writes the blocks home, and then clears the head. Recovery
writes the blocks of the head home and clears it. Every disk that a crash can leave is one
from which recovery leads to the contents before the transaction or after it. -/

namespace Xv6Container.Lib

/-- Where the log lies on the disk: its head, its slots and the way the addresses are
written in the head. `Home` are the blocks outside the log. -/
structure LogArea (α β : Type*) where
  head : α
  slot : ℕ → α
  cap : ℕ
  entries : β → Option (List α)
  Home : α → Prop
  slot_ne_head : ∀ i < cap, slot i ≠ head
  slot_inj : ∀ i < cap, ∀ j < cap, slot i = slot j → i = j
  slot_not_home : ∀ i < cap, ¬ Home (slot i)
  head_not_home : ¬ Home head

namespace LogArea

variable {α β : Type*} (L : LogArea α β) {l : List α} {v old new d : α → β} {b : α} {x : β}
  {n : ℕ}

/-- The log is empty and the home blocks are those of `v`. -/
structure Idle (v d : α → β) : Prop where
  head : L.entries (d L.head) = some []
  home : ∀ b, L.Home b → d b = v b

/-- The first `n` slots hold the blocks of `v` at the addresses in `l`. -/
def Logged (l : List α) (v : α → β) (n : ℕ) (d : α → β) : Prop :=
  ∀ i, i < n → ∀ b, l[i]? = some b → d (L.slot i) = v b

/-- The head names the blocks `l` and the log holds their contents in `v`; every other
home block is that of `v` already. -/
structure Committed (l : List α) (v d : α → β) : Prop where
  head : L.entries (d L.head) = some l
  fits : l.length ≤ L.cap
  mem_home : ∀ b ∈ l, L.Home b
  logged : L.Logged l v l.length d
  rest : ∀ b, L.Home b → b ∉ l → d b = v b

/-- Recovery leads from `d` to the home blocks of `v`. -/
def Recovers (v d : α → β) : Prop := ∃ l, L.Committed l v d

variable {L}

/-- An empty log has nothing to write home. -/
theorem Idle.recovers (h : L.Idle v d) : L.Recovers v d := by
  refine ⟨[], h.head, Nat.zero_le _, fun b hb => ?_, fun i hi => ?_, fun b hb _ => h.home b hb⟩
  · exact absurd hb List.not_mem_nil
  · exact absurd hi (Nat.not_lt_zero i)

variable [DecidableEq α]

theorem Idle.write_slot (h : L.Idle v d) (hn : n < L.cap) :
    L.Idle v (Function.update d (L.slot n) x) where
  head := by
    rw [Function.update_of_ne (L.slot_ne_head n hn).symm]
    exact h.head
  home b hb := by
    rw [Function.update_of_ne]
    · exact h.home b hb
    · rintro rfl
      exact L.slot_not_home n hn hb

theorem Logged.write_slot (h : L.Logged l v n d) (hn : n < L.cap) (hb : l[n]? = some b) :
    L.Logged l v (n + 1) (Function.update d (L.slot n) (v b)) := by
  intro i hi b' hb'
  by_cases hin : i = n
  · subst hin
    rw [hb, Option.some.injEq] at hb'
    rw [Function.update_self, hb']
  · rw [Function.update_of_ne]
    · exact h i (by omega) b' hb'
    · intro he
      exact hin (L.slot_inj i (by omega) n hn he)

/-- The write of the head is the point where the transaction commits. -/
theorem Idle.write_head (h : L.Idle old d) (hfits : l.length ≤ L.cap)
    (hlog : L.Logged l new l.length d) (hhome : ∀ b ∈ l, L.Home b)
    (hrest : ∀ b, L.Home b → b ∉ l → old b = new b) (hx : L.entries x = some l) :
    L.Committed l new (Function.update d L.head x) where
  head := by rw [Function.update_self, hx]
  fits := hfits
  mem_home := hhome
  logged := by
    intro i hi b hb
    rw [Function.update_of_ne (L.slot_ne_head i (by omega))]
    exact hlog i hi b hb
  rest b hb hbl := by
    rw [Function.update_of_ne]
    · exact (h.home b hb).trans (hrest b hb hbl)
    · rintro rfl
      exact L.head_not_home hb

theorem Committed.write_home (h : L.Committed l v d) (hb : b ∈ l) :
    L.Committed l v (Function.update d b (v b)) where
  head := by
    rw [Function.update_of_ne]
    · exact h.head
    · rintro rfl
      exact L.head_not_home (h.mem_home _ hb)
  fits := h.fits
  mem_home := h.mem_home
  logged := by
    intro i hi b' hb'
    rw [Function.update_of_ne]
    · exact h.logged i hi b' hb'
    · rintro rfl
      have := h.fits
      exact L.slot_not_home i (by omega) (h.mem_home _ hb)
  rest b' hb' hbl := by
    rw [Function.update_of_ne]
    · exact h.rest b' hb' hbl
    · rintro rfl
      exact hbl hb

/-- Once every block of the transaction is home, the log may be cleared. -/
theorem Committed.clear (h : L.Committed l v d) (hl : ∀ b ∈ l, d b = v b)
    (hx : L.entries x = some []) : L.Idle v (Function.update d L.head x) where
  head := by rw [Function.update_self, hx]
  home b hb := by
    rw [Function.update_of_ne]
    · by_cases hbl : b ∈ l
      · exact hl b hbl
      · exact h.rest b hb hbl
    · rintro rfl
      exact L.head_not_home hb

end LogArea

end Xv6Container.Lib
