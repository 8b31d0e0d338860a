import Mathlib.Data.Fintype.Card
import Xv6Container.Lib.Triple
import Xv6Container.Bcache.Buffers

/-! What holds of the buffers between two steps: the list is a ring of all the buffers, no two of them
hold the same block, the reference counts count, and what is cached and not being changed is what was
last written. A block of which no buffer is dirty is on the disk as it was last written. -/

namespace Xv6Container.Bcache

open Function Lib
open Log (BlockNo Block Disk BufId Buf NBUF Stop)

variable {c : Config} {s t : State} {i j : BufId} {u v : Buf} {dev : UInt32} {b : BlockNo}
  {l : List BufId}

namespace State

/-- The processes that wait for the lock of a buffer. -/
def waiters (s : State) (i : BufId) : List Waiter := s.waiting.filter (·.1 = i)

end State

/-- The two do not hold the same block of a disk. -/
def Apart (u v : Buf) : Prop := u.dev ≠ 0 → ¬ (u.dev = v.dev ∧ u.blockno = v.blockno)

theorem Apart.symm (h : Apart u v) : Apart v u := by
  rintro hv ⟨hdev, hblock⟩
  exact h (hdev ▸ hv) ⟨hdev.symm, hblock.symm⟩

/-- What holds of the contents `u` of buffer `i`. -/
structure Fits (c : Config) (s : State) (i : BufId) (u : Buf) : Prop where
  refs : u.refcnt = (s.waiters i).length + s.leaving.count i + u.locked.toNat
  asked : ∀ w ∈ s.waiters i, w.2 = (u.dev, u.blockno)
  read : u.locked = true ∨ u.dirty = true → u.valid = true
  disk : u.valid = true → u.dev = 1 ∧ u.blockno.toNat < c.disksize
  same : u.valid = true → u.locked = false → u.data = s.written u.blockno

theorem Fits.congr (h : Fits c s i u) (hwaiters : t.waiters i = s.waiters i)
    (hleaving : t.leaving.count i = s.leaving.count i)
    (hwritten : u.dev = 1 → t.written u.blockno = s.written u.blockno) : Fits c t i u := by
  constructor
  · rw [hwaiters, hleaving]
    exact h.refs
  · rw [hwaiters]
    exact h.asked
  · exact h.read
  · exact h.disk
  · intro hvalid hlocked
    rw [hwritten (h.disk hvalid).1]
    exact h.same hvalid hlocked

/-- The list contains every buffer once. -/
def Ringed (r : Doubly (Option BufId)) : Prop :=
  ∃ l : List BufId, r.Holds none (l.map some) ∧ ∀ i, i ∈ l

structure Coherent (c : Config) (s : State) : Prop where
  ring : Ringed s.links
  apart : ∀ i j, i ≠ j → Apart (s.buf i) (s.buf j)
  each : ∀ i, Fits c s i (s.buf i)
  clean : ∀ b, (∀ i, (s.buf i).dev = 1 → (s.buf i).blockno = b → (s.buf i).dirty = false) →
    s.disk b = s.written b

namespace Coherent

/-- Nobody uses the buffer. -/
theorem idle (h : Coherent c s) (hrefs : (s.buf i).refcnt = 0) :
    (s.buf i).locked = false ∧ s.waiters i = [] ∧ i ∉ s.leaving := by
  have hcount := (h.each i).refs
  rw [hrefs] at hcount
  refine ⟨?_, ?_, ?_⟩
  · cases hl : (s.buf i).locked
    · rfl
    · rw [hl, Bool.toNat_true] at hcount
      omega
  · apply List.eq_nil_of_length_eq_zero
    omega
  · rw [← List.count_eq_zero]
    omega

/-- A step changes one buffer, and on the disk and among what was written nothing but its block. -/
theorem change (h : Coherent c s) (hbuf : t.buf = update s.buf i u) (hring : Ringed t.links)
    (hwaiters : ∀ j, j ≠ i → t.waiters j = s.waiters j)
    (hleaving : ∀ j, j ≠ i → t.leaving.count j = s.leaving.count j) (hfits : Fits c t i u)
    (hapart : ∀ j, j ≠ i → Apart u (s.buf j))
    (hothers : ∀ b, ¬ (u.dev = 1 ∧ u.blockno = b) →
      t.disk b = s.disk b ∧ t.written b = s.written b)
    (hdirty : (s.buf i).dirty = true → (s.buf i).dev = 1 → u.dev = 1 ∧ u.blockno = (s.buf i).blockno)
    (hclean : u.dev = 1 → u.dirty = false → t.disk u.blockno = t.written u.blockno) :
    Coherent c t := by
  have hself : t.buf i = u := by rw [hbuf, update_self]
  have hother : ∀ j, j ≠ i → t.buf j = s.buf j := by
    intro j hj
    rw [hbuf, update_of_ne hj]
  constructor
  · exact hring
  · intro j k hjk
    by_cases hj : j = i
    · subst hj
      rw [hself, hother k hjk.symm]
      exact hapart k hjk.symm
    · rw [hother j hj]
      by_cases hk : k = i
      · subst hk
        rw [hself]
        exact (hapart j hj).symm
      · rw [hother k hk]
        exact h.apart j k hjk
  · intro j
    by_cases hj : j = i
    · subst hj
      rwa [hself]
    · rw [hother j hj]
      apply (h.each j).congr (hwaiters j hj) (hleaving j hj)
      intro hdev
      refine (hothers _ ?_).2
      rintro ⟨hudev, hublock⟩
      exact hapart j hj (by rw [hudev]; decide) ⟨hudev.trans hdev.symm, hublock⟩
  · intro b hall
    by_cases hb : u.dev = 1 ∧ u.blockno = b
    · obtain ⟨hdev, rfl⟩ := hb
      have hud := hall i
      rw [hself] at hud
      exact hclean hdev (hud hdev rfl)
    · obtain ⟨hd, hw⟩ := hothers b hb
      rw [hd, hw]
      apply h.clean
      intro j hdev hblock
      by_cases hj : j = i
      · subst hj
        rw [← Bool.not_eq_true]
        intro hdj
        obtain ⟨hudev, hublock⟩ := hdirty hdj hdev
        exact hb ⟨hudev, hublock.trans hblock⟩
      · have hjt := hall j
        rw [hother j hj] at hjt
        exact hjt hdev hblock

/-- As `change`, for a buffer that goes on holding the same block. -/
theorem change_same (h : Coherent c s) (hbuf : t.buf = update s.buf i u) (hring : Ringed t.links)
    (hwaiters : ∀ j, j ≠ i → t.waiters j = s.waiters j)
    (hleaving : ∀ j, j ≠ i → t.leaving.count j = s.leaving.count j) (hfits : Fits c t i u)
    (hdev : u.dev = (s.buf i).dev) (hblock : u.blockno = (s.buf i).blockno)
    (hothers : ∀ b, ¬ (u.dev = 1 ∧ u.blockno = b) →
      t.disk b = s.disk b ∧ t.written b = s.written b)
    (hclean : u.dev = 1 → u.dirty = false → t.disk u.blockno = t.written u.blockno) :
    Coherent c t := by
  apply h.change hbuf hring hwaiters hleaving hfits _ hothers _ hclean
  · intro j hj
    rw [Apart, hdev, hblock]
    exact h.apart i j hj.symm
  · intro _ hone
    exact ⟨hdev.trans hone, hblock⟩

/-- The block of a buffer that is not dirty is on the disk. -/
theorem clean_at (h : Coherent c s) (hdev : (s.buf i).dev = 1) (hdirty : (s.buf i).dirty = false) :
    s.disk (s.buf i).blockno = s.written (s.buf i).blockno := by
  apply h.clean
  intro j hjdev hjblock
  by_cases hj : j = i
  · rwa [hj]
  · exact absurd ⟨hjdev.trans hdev.symm, hjblock⟩ (h.apart j i hj (by rw [hjdev]; decide))

/-- As `change_same`, for a buffer that stays as dirty as it was, with no block written. -/
theorem change_quiet (h : Coherent c s) (hbuf : t.buf = update s.buf i u) (hring : Ringed t.links)
    (hwaiters : ∀ j, j ≠ i → t.waiters j = s.waiters j)
    (hleaving : ∀ j, j ≠ i → t.leaving.count j = s.leaving.count j) (hfits : Fits c t i u)
    (hdev : u.dev = (s.buf i).dev) (hblock : u.blockno = (s.buf i).blockno)
    (hdirty : u.dirty = (s.buf i).dirty) (hdisk : t.disk = s.disk)
    (hwritten : t.written = s.written) : Coherent c t := by
  apply h.change_same hbuf hring hwaiters hleaving hfits hdev hblock
  · intro b _
    rw [hdisk, hwritten]
    exact ⟨rfl, rfl⟩
  · intro hone hclean
    rw [hdev] at hone
    rw [hdirty] at hclean
    rw [hdisk, hwritten, hblock]
    exact h.clean_at hone hclean

/-- No buffer changes. -/
theorem congr (h : Coherent c s) (hdisk : t.disk = s.disk) (hbuf : t.buf = s.buf)
    (hlinks : t.links = s.links) (hwaiting : t.waiting = s.waiting)
    (hleaving : t.leaving = s.leaving) (hwritten : t.written = s.written) : Coherent c t := by
  constructor
  · rw [hlinks]
    exact h.ring
  · rw [hbuf]
    exact h.apart
  · intro i
    rw [hbuf]
    apply (h.each i).congr
    · rw [State.waiters, State.waiters, hwaiting]
    · rw [hleaving]
    · intro _
      rw [hwritten]
  · rw [hbuf, hdisk, hwritten]
    exact h.clean

end Coherent

/-! ### The list -/

theorem length_le (h : (l.map some).Nodup) : l.length < NBUF + 1 := by
  have hcard := List.Nodup.length_le_card (List.Nodup.of_map some h)
  rw [Fintype.card_fin] at hcard
  omega

theorem find_around {f : Option BufId → Option BufId} {p : BufId → Bool}
    (h : Around f none (l.map some)) (hnodup : (none :: l.map some).Nodup) :
    find f p = some (l.find? p) := by
  rw [List.nodup_cons] at hnodup
  have hlen := length_le hnodup.2
  rw [find, Doubly.search_eq h hnodup.1 (by rwa [List.length_map]), List.find?_map]
  simp only [Option.map_some]
  cases hfind : l.find? p with
  | none =>
    rw [show ((fun x : Option BufId => x.elim false p) ∘ some) = p from rfl, hfind]
    rfl
  | some i =>
    rw [show ((fun x : Option BufId => x.elim false p) ∘ some) = p from rfl, hfind]
    rfl

theorem find_next {r : Doubly (Option BufId)} {p : BufId → Bool}
    (h : r.Holds none (l.map some)) : find r.next p = some (l.find? p) :=
  find_around h.next h.nodup

theorem find_prev {r : Doubly (Option BufId)} {p : BufId → Bool}
    (h : r.Holds none (l.map some)) : find r.prev p = some (l.reverse.find? p) := by
  apply find_around
  · rw [List.map_reverse]
    exact h.prev
  · rw [List.map_reverse]
    exact (List.Perm.nodup_iff (.cons none (List.reverse_perm _))).2 h.nodup

/-- One after the other is put at the front. -/
theorem pushed {r : Doubly (Option BufId)} (h : r.Holds none (l.map some)) {n : List BufId}
    (hnodup : n.Nodup) (hdisjoint : ∀ i ∈ n, i ∉ l) :
    (n.foldl (fun r i => r.pushFront none (some i)) r).Holds none
      ((n.reverse ++ l).map some) := by
  induction n generalizing r l with
  | nil => exact h
  | cons i n ih =>
    rw [List.nodup_cons] at hnodup
    have hpush : (r.pushFront none (some i)).Holds none ((i :: l).map some) := by
      apply h.pushFront
      have hi := hdisjoint i List.mem_cons_self
      simpa using hi
    rw [List.foldl_cons, List.reverse_cons, List.append_assoc, List.singleton_append]
    apply ih hpush hnodup.2
    intro j hj hmem
    rcases List.mem_cons.1 hmem with rfl | hmem
    · exact hnodup.1 hj
    · exact hdisjoint j (List.mem_cons_of_mem i hj) hmem

theorem binit_ringed : Ringed binit := by
  refine ⟨bufs.reverse ++ [], ?_, ?_⟩
  · apply pushed (l := []) _ (List.nodup_finRange NBUF) (fun _ _ => List.not_mem_nil)
    constructor
    · simp
    · exact List.isChain_pair.2 rfl
    · exact List.isChain_pair.2 rfl
  · intro i
    simp [bufs]

/-- `brelse` moves a buffer to the front. -/
theorem Ringed.front {r : Doubly (Option BufId)} (h : Ringed r) (i : BufId) :
    Ringed ((r.unlink (some i)).pushFront none (some i)) := by
  obtain ⟨l, hl, hall⟩ := h
  obtain ⟨m, n, rfl⟩ := List.append_of_mem (hall i)
  rw [List.map_append, List.map_cons] at hl
  refine ⟨i :: (m ++ n), ?_, ?_⟩
  · rw [List.map_cons, List.map_append]
    apply hl.unlink.pushFront
    have hnodup := hl.nodup
    rw [List.nodup_cons, List.nodup_append, List.nodup_cons] at hnodup
    obtain ⟨-, -, hcons, hdisjoint⟩ := hnodup
    rw [List.mem_cons, List.mem_append, not_or, not_or]
    refine ⟨Option.some_ne_none i, ?_, hcons.1⟩
    intro hmem
    exact hdisjoint _ hmem _ List.mem_cons_self rfl
  · intro j
    have hj := hall j
    simp only [List.mem_append, List.mem_cons] at hj ⊢
    tauto

end Xv6Container.Bcache
