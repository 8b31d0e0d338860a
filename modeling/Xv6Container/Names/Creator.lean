import Xv6Container.Names.Links

/-! The container that `fstat` reports. It is the `containerID` of the cache entry, which only
`create` sets: an entry that `iget` recycles keeps that of its last inode. In every run in
which the entries recycled for an inode bear the container of its creator, `fstat` reports
the creator. -/

namespace Xv6Container.Names

open Lib Fs

variable {B : Prop} {s t : State} {e : Entry} {p : Slot} {fd : Fd} {c c' : ℤ} {i : Inum}

/-- `ilock` does not touch the fields that `stati` reads, nor who has made an inode. -/
theorem ilock_keeps : Ends (fun _ t => t.creator = s.creator ∧ t.recycled = s.recycled ∧
    (t.cache e).inum = (s.cache e).inum ∧ (t.cache e).containerID = (s.cache e).containerID)
    (fun _ => True) (ilock e s) := by
  simp only [ilock, run_get_bind]
  split_ifs
  · exact ends_error.2 trivial
  · refine ((acquiresleep_ends (B := False)).mono (fun _ _ => id) fun _ _ => trivial).bind
      fun _ t ht => ?_
    simp only [run_get_bind, setInode]
    split_ifs
    · exact ends_error.2 trivial
    · rw [run_modify_bind, run_pure, ends_ok, State.setInode_self, ht]
      exact ⟨rfl, rfl, by rw [State.setInode_self], by rw [State.setInode_self]⟩
    · rw [run_pure, ends_ok, ht]
      exact ⟨rfl, rfl, by rw [State.setInode_self], by rw [State.setInode_self]⟩

/-- What `fstat` reports are fields of an entry that a file holds. -/
theorem sysFstat_entry (h : sysFstat p fd s = .ok (some (c, i)) t) :
    ∃ e, 0 < hold s e ∧ c = (s.cache e).containerID ∧ i = (s.cache e).inum := by
  have hends : Ends (fun r _ => ∀ c i, r = some (c, i) →
      ∃ e, 0 < hold s e ∧ c = (s.cache e).containerID ∧ i = (s.cache e).inum) (fun _ => True)
      (sysFstat p fd s) := by
    simp only [sysFstat, run_get_bind]
    cases (s.proc p).ofile fd with
    | none => exact ends_ok.2 (by rintro _ _ ⟨⟩)
    | some f =>
      simp only [run_get_bind]
      cases hip : (s.file f).ip with
      | none => exact ends_ok.2 (by rintro _ _ ⟨⟩)
      | some e =>
        refine ilock_keeps.bind ?_
        rintro _ u ⟨_, _, hinum, hown⟩
        simp only [run_get_bind]
        have hunlock : Ends (fun _ _ => True) (fun _ => True) (iunlock e u) :=
          ⟨fun _ _ _ => trivial, fun _ _ _ => trivial⟩
        refine hunlock.bind fun _ v _ => ends_ok.2 ?_
        rintro c i ⟨⟩
        exact ⟨e, hold_file hip, hown, hinum⟩
  exact hends.1 _ _ h c i rfl

/-- The entries that a call recycles for an inode bear the container of its creator. -/
def RecyclesOwn (s : State) (c : Call) : Prop := ∀ t, step s c = .ok t → Faithful t.recycled

instance (l : List (ℤ × Option ℤ)) : Decidable (Faithful l) :=
  decidable_of_iff (∀ x ∈ l, ∀ c' ∈ x.2, x.1 = c')
    ⟨fun h c c' hc => h _ hc c' rfl, fun h x hx c' hc => h x.1 c' (by rwa [← hc])⟩

instance (s : State) (c : Call) : Decidable (RecyclesOwn s c) :=
  match h : step s c with
  | .ok t => decidable_of_iff (Faithful t.recycled)
      ⟨fun hf u hu => by cases h.symm.trans hu; exact hf, fun hr => hr t h⟩
  | .error r => .isTrue fun u hu => by cases h.symm.trans hu

/-- A file system that nobody has used yet. -/
def Unused (s : State) : Prop := WellFormed s ∧ s.recycled = []

theorem boot_unused : Unused boot := ⟨boot_wellFormed, rfl⟩

/-- The name that container 1 gives to `f`. -/
def pathCnF : CString :=
  ⟨['c'.toUInt8, 'n'.toUInt8, '1'.toUInt8, '-'.toUInt8, 'f'.toUInt8], by decide⟩

/-- Whether `fstat` reports this. -/
def reports (s : State) (p : Slot) (fd : Fd) (x : ℤ × Inum) : Bool :=
  match sysFstat p fd s with
  | .ok r _ => decide (r = some x)
  | .error _ _ => false

theorem sysFstat_of_reports {x : ℤ × Inum} (h : reports s p fd x = true) :
    ∃ t, sysFstat p fd s = .ok (some x) t := by
  unfold reports at h
  split at h
  next r t hr => exact ⟨t, by rw [hr, of_decide_eq_true h]⟩
  next => cases h

end Xv6Container.Names
