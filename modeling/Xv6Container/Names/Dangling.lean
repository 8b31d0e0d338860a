import Xv6Container.Names.Links

/-! Entries without an inode. In every run in which no directory is made in a removed one and
no directory is removed that a removed one has as its parent, every entry of a directory in
use names an inode in use, and no lookup finds a free inode. -/

namespace Xv6Container.Names

open Lib Fs

variable {A B : Prop} {s : State} {n : Inum → Node}

/-- The entries of directories in use name inodes in use. -/
def NoDangling (n : Inum → Node) : Prop :=
  ∀ d name i, (n d).attr.type = .dir → some (name, i) ∈ (n d).entries → (n i).attr.type ≠ .free

theorem Tree.noDangling (h : Tree A B n) (hB : B) : NoDangling n := by
  intro d name i hd hi
  obtain ⟨u, hu⟩ := h.dotted d hd
  have hup : (n u).Live := h.upLive d u hd (Or.inr hB) hu.up
  by_cases hdots : name = .dot ∨ name = .dotdot
  · have hdir : (n i).attr.type = .dir := by
      obtain ⟨rest, hes, hrest⟩ := hu
      rw [hes] at hi
      rcases List.mem_cons.1 hi with hi | hi
      · cases hi
        exact hd
      · rcases List.mem_cons.1 hi with hi | hi
        · cases hi
          exact hup.1
        · obtain ⟨h1, h2⟩ := hrest name i hi
          rcases hdots with h | h
          · exact absurd h h1
          · exact absurd h h2
    rw [hdir]
    decide
  · rw [not_or] at hdots
    exact (h.below d name i hd hi hdots.1 hdots.2).1

theorem Tree.whole (h : Tree A B n) (hB : B) : Whole n := by
  refine ⟨?_, h.noDangling hB⟩
  rw [h.rootLive.1]
  decide

/-- A call makes no directory in a removed one, and it removes no directory that another one
has as its parent. -/
def KeepsParents (s : State) (c : Call) : Prop :=
  (∀ d ∈ c.makes s, 0 < (s.node d).attr.nlink) ∧
    ∀ i ∈ c.removes s, ∀ e, (s.node e).attr.type = .dir → (s.node e).up = some i → e = i

instance (s : State) (c : Call) : Decidable (KeepsParents s c) :=
  inferInstanceAs (Decidable (_ ∧ ∀ i ∈ c.removes s, _))

/-- In every run whose calls keep the parents of directories, every entry names an inode in
use, and no call stops because an inode is free. -/
theorem entries_in_use (hs : Reach step KeepsParents WellFormed s) :
    NoDangling s.node ∧ ∀ c r, step s c = .error r → r ≠ .panic "ilock: no type" := by
  have hinv : Tree False True s.node ∧ Steady True s := by
    refine hs.invariant (I := fun s => Tree False True s.node ∧ Steady True s)
      (fun s h => ?_) fun s c t ⟨htree, hsteady⟩ hg ht => ?_
    · exact ⟨h.tree.weaken False.elim id, h.steady⟩
    · obtain ⟨hst, m, hedit, hsweep⟩ := step_ok hsteady htree.whole ht
      exact ⟨(htree.edit hedit False.elim hg.1 fun _ => hg.2).sweep hsweep, hst⟩
  exact ⟨hinv.1.noDangling trivial, fun c r hr =>
    step_error hinv.2 hinv.1.whole hr trivial⟩

/-- The path `d/e`. -/
def pathDE : CString := ⟨['d'.toUInt8, '/'.toUInt8, 'e'.toUInt8], by decide⟩

/-- The path `..`. -/
def pathUp : CString := ⟨['.'.toUInt8, '.'.toUInt8], by decide⟩

/-- Two directories are made and removed, the lower one while it is in use. -/
theorem entries_in_use_rmdir : ∃ t, Reach step KeepsParents WellFormed t ∧
    (NoDangling t.node ∧ ∀ c r, step t c = .error r → r ≠ .panic "ilock: no type") ∧
    (t.node 3).attr = ⟨.dir, 0, 0, 0⟩ := by
  have hboot : Reach step KeepsParents WellFormed boot := .start boot_wellFormed
  obtain ⟨t, hs, ht⟩ := hboot.of_endsIn (fun s => decide ((s.node 3).attr = ⟨.dir, 0, 0, 0⟩))
    [.mkdir 0 pathD, .mkdir 0 pathDE, .fork 0 1 0, .chdir 1 pathDE, .unlink 0 pathDE]
    (by decide +kernel)
  exact ⟨t, hs, entries_in_use hs, of_decide_eq_true ht⟩

/-- A directory in use is removed and then its parent: its `..` is free, and the lookup of
that panics. -/
theorem parent_of_removed_is_freed : ∃ s, Reach step always WellFormed s ∧
    ¬ NoDangling s.node ∧ step s (.chdir 1 pathUp) = .error (.panic "ilock: no type") := by
  have hboot : Reach step always WellFormed boot := .start boot_wellFormed
  obtain ⟨t, hs, ht⟩ := hboot.of_endsIn
    (fun s => decide ((s.node 3).attr.type = .dir ∧
      some (Name.dotdot, 2) ∈ (s.node 3).entries ∧ (s.node 2).attr.type = .free) &&
      match step s (.chdir 1 pathUp) with
      | .ok _ => false
      | .error r => decide (r = .panic "ilock: no type"))
    [.mkdir 0 pathD, .mkdir 0 pathDE, .fork 0 1 0, .chdir 1 pathDE, .unlink 0 pathDE,
      .unlink 0 pathD] (by decide +kernel)
  rw [Bool.and_eq_true, decide_eq_true_eq] at ht
  obtain ⟨⟨hdir, hmem, hfree⟩, hstep⟩ := ht
  refine ⟨t, hs, fun h => h 3 _ 2 hdir hmem hfree, ?_⟩
  cases hc : step t (.chdir 1 pathUp) with
  | ok u =>
    rw [hc] at hstep
    cases hstep
  | error r =>
    rw [hc] at hstep
    rw [of_decide_eq_true hstep]

end Xv6Container.Names
