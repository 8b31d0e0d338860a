import Xv6Container.Files.Tables

/-! The sides of a pipe: the file of an end can be read just if it cannot be written. -/

namespace Xv6Container.Files

open Lib Names
open Fs hiding Stop

variable {α : Type} {s t : State} {p q : Slot} {fd : Fd} {f g : FileId} {pg : Page} {w : Bool}

def Sided (s : State) : Prop :=
  ∀ f, s.pipe f ≠ none → (s.fs.file f).readable = !(s.fs.file f).writable

/-- A program of the file system that does not change what files are open for. -/
def Flags (x : Names.Run α) : Prop :=
  ∀ s, Ends (fun _ t => ∀ f, (t.file f).readable = (s.file f).readable ∧
    (t.file f).writable = (s.file f).writable) (fun _ => True) (x s)

namespace Flags

theorem of_frames {x : Names.Run α} (h : Frames x) : Flags x := by
  refine fun s => (h s).post ?_
  rintro _ t ⟨hfile, -⟩ f
  rw [hfile]
  exact ⟨rfl, rfl⟩

theorem bind {β : Type} {x : Names.Run α} {k : α → Names.Run β} (hx : Flags x)
    (hk : ∀ a, Flags (k a)) : Flags (x >>= k) := by
  refine fun s => (hx s).bind fun a t ht => (hk a t).post fun _ u hu f => ?_
  exact ⟨(hu f).1.trans (ht f).1, (hu f).2.trans (ht f).2⟩

theorem read {k : Names.State → Names.Run α} (h : ∀ s, Flags (k s)) : Flags (get >>= k) :=
  fun s => h s s

theorem forM {β : Type} {k : β → Names.Run PUnit} (l : List β) (h : ∀ b, Flags (k b)) :
    Flags (l.forM k) := by
  induction l with
  | nil => exact .of_frames (.ret _)
  | cons b l ih => exact (h b).bind fun _ => ih

end Flags

/-- An entry of the file table changes in other fields. -/
theorem flags_update {fs fs' : Names.State} {x : File}
    (hfile : fs'.file = Function.update fs.file f x)
    (hx : x.readable = (fs.file f).readable ∧ x.writable = (fs.file f).writable) (k : FileId) :
    (fs'.file k).readable = (fs.file k).readable ∧
      (fs'.file k).writable = (fs.file k).writable := by
  rw [hfile]
  by_cases hk : k = f
  · rw [hk, Function.update_self]
    exact hx
  · rw [Function.update_of_ne hk]
    exact ⟨rfl, rfl⟩

theorem fileclose_flags : Flags (Names.fileclose f) := by
  refine fun _ => fileclose_table.post ?_
  rintro _ _ ⟨-, -, hfile⟩
  exact flags_update hfile ⟨rfl, rfl⟩

theorem filedup_flags : Flags (filedup f) := by
  refine fun s => filedup_table.post ?_
  rintro _ t ⟨-, rfl⟩
  exact flags_update rfl ⟨rfl, rfl⟩

theorem filealloc_flags : Flags filealloc := by
  refine fun s => filealloc_table.post fun o t ht => ?_
  cases o with
  | none =>
    obtain rfl := ht
    exact fun _ => ⟨rfl, rfl⟩
  | some f =>
    obtain ⟨-, rfl⟩ := ht
    exact flags_update rfl ⟨rfl, rfl⟩

theorem fdalloc_flags : Flags (fdalloc p f) := by
  refine fun s => (fdalloc_lowest (S := fun _ => True)).post fun o t ht k => ?_
  cases o with
  | none =>
    obtain ⟨rfl, -⟩ := ht
    exact ⟨rfl, rfl⟩
  | some fd =>
    obtain ⟨-, rfl⟩ := ht
    exact ⟨rfl, rfl⟩

theorem setFd_flags {o : Option FileId} : Flags (setFd p fd o) :=
  fun _ => ends_ok.2 fun _ => ⟨rfl, rfl⟩

theorem fork_flags {containerID : ℤ} : Flags (Names.fork p q containerID) := by
  refine .bind (.forM _ fun fd => .read fun s => ?_) fun _ => .read fun s => ?_
  · split
    · exact .of_frames (.ret _)
    · exact filedup_flags.bind fun _ => setFd_flags
  · split
    · exact .of_frames (.stop _)
    · refine .bind (.of_frames idup_frames) fun e => ?_
      exact fun _ => ends_ok.2 fun _ => ⟨rfl, rfl⟩

theorem sysChdir_flags {path : CString} : Flags (sysChdir p path) := by
  refine .bind (.of_frames namei_frames) fun o => ?_
  split
  · exact .of_frames (.ret _)
  · refine .bind (.of_frames ilock_frames) fun _ => .read fun s => ?_
    split_ifs
    · exact .bind (.of_frames iunlockput_frames) fun _ => .of_frames (.ret _)
    · refine .bind (.of_frames iunlock_frames) fun _ => .bind (.of_frames putCwd_frames) fun _ => ?_
      exact .bind (fun _ => ends_ok.2 fun _ => ⟨rfl, rfl⟩) fun _ => .of_frames (.ret _)

/-! ### Programs over files and pipes -/

/-- A program that keeps the sides. -/
def Sides (x : Run α) : Prop :=
  ∀ s, Sided s → Ends (fun _ t => Sided t) (fun _ => True) (x s)

namespace Sides

theorem bind {β : Type} {x : Run α} {k : α → Run β} (hx : Sides x) (hk : ∀ a, Sides (k a)) :
    Sides (x >>= k) :=
  fun s hs => (hx s hs).bind fun a t ht => hk a t ht

theorem ret (a : α) : Sides (pure a) := fun _ hs => ends_ok.2 hs

theorem read {k : State → Run α} (h : ∀ s, Sides (k s)) : Sides (get >>= k) := fun s => h s s

theorem onFs {x : Names.Run α} (h : Flags x) : Sides (onFs x) := by
  intro s hs
  refine (onFs_free (h s.fs)).post ?_
  rintro _ t ⟨fs, rfl, hfs⟩ f hf
  rw [(hfs f).1, (hfs f).2]
  exact hs f hf

theorem onKmem (x : Memory.Run α) : Sides (onKmem x) := by
  intro s hs
  unfold Files.onKmem
  cases x s.kmem with
  | ok a kmem => exact ends_ok.2 hs
  | error r kmem => exact ends_error.2 trivial

theorem forM {β : Type} {k : β → Run PUnit} (l : List β) (h : ∀ b, Sides (k b)) :
    Sides (l.forM k) := by
  induction l with
  | nil => exact ret _
  | cons b l ih => exact (h b).bind fun _ => ih

end Sides

theorem pipeclose_sides : Sides (pipeclose pg w) := by
  refine .read fun s => ?_
  split
  · exact fun _ _ => ends_error.2 trivial
  · refine .bind (fun _ hs => ends_ok.2 hs) fun _ => ?_
    split_ifs
    · exact (Sides.onKmem _).bind fun _ => .bind (fun _ hs => ends_ok.2 hs) fun _ =>
        fun _ hs => ends_ok.2 hs
    · exact .ret _

theorem fileclose_sides : Sides (fileclose f) := by
  refine .read fun s => (Sides.onFs fileclose_flags).bind fun _ => ?_
  split_ifs
  · split
    · exact .ret _
    · refine .bind (fun t ht => ends_ok.2 fun k hk => ?_) fun _ => pipeclose_sides
      change Function.update t.pipe f none k ≠ none at hk
      by_cases hkf : k = f
      · rw [hkf, Function.update_self] at hk
        exact absurd rfl hk
      · rw [Function.update_of_ne hkf] at hk
        exact ht k hk
  · exact .ret _

theorem setEnd_sides : Sides (setEnd f pg w) := by
  refine fun s hs => ends_ok.2 fun k hk => ?_
  change Function.update s.pipe f (some pg) k ≠ none at hk
  show (Function.update s.fs.file f _ k).readable = !(Function.update s.fs.file f _ k).writable
  by_cases hkf : k = f
  · rw [hkf, Function.update_self]
  · rw [Function.update_of_ne hkf] at hk ⊢
    exact hs k hk

theorem closeBoth_sides {a : α} : Sides (do
    fileclose f
    fileclose g
    return a) :=
  fileclose_sides.bind fun _ => fileclose_sides.bind fun _ => .ret _

theorem pipealloc_sides : Sides pipealloc := by
  refine (Sides.onFs filealloc_flags).bind fun o => ?_
  split
  · exact .ret _
  · refine (Sides.onFs filealloc_flags).bind fun o => ?_
    split
    · exact fileclose_sides.bind fun _ => .ret _
    · refine (Sides.onKmem _).bind fun o => ?_
      split
      · exact closeBoth_sides
      · refine .bind (fun _ hs => ends_ok.2 hs) fun _ => .bind (fun _ hs => ends_ok.2 hs) fun _ => ?_
        exact setEnd_sides.bind fun _ => setEnd_sides.bind fun _ => .ret _

theorem sysPipe_sides : Sides (sysPipe p) := by
  refine pipealloc_sides.bind fun o => ?_
  split
  · exact .ret _
  · refine (Sides.onFs fdalloc_flags).bind fun o => ?_
    split
    · exact closeBoth_sides
    · refine (Sides.onFs fdalloc_flags).bind fun o => ?_
      split
      · exact (Sides.onFs setFd_flags).bind fun _ => closeBoth_sides
      · exact .ret _

theorem sysDup_sides : Sides (sysDup p fd) := by
  refine .read fun s => ?_
  split
  · exact .ret _
  · refine (Sides.onFs fdalloc_flags).bind fun o => ?_
    split
    · exact .ret _
    · exact (Sides.onFs filedup_flags).bind fun _ => .ret _

theorem sysClose_sides : Sides (sysClose p fd) := by
  refine .read fun s => ?_
  split
  · exact .ret _
  · exact (Sides.onFs setFd_flags).bind fun _ => fileclose_sides.bind fun _ => .ret _

theorem exit_sides : Sides (exit p) := by
  refine .bind (.forM _ fun fd => .read fun s => ?_) fun _ => ?_
  · split
    · exact .ret _
    · exact fileclose_sides.bind fun _ => .onFs setFd_flags
  · refine .bind (.onFs (.of_frames putCwd_frames)) fun _ => .onFs ?_
    exact fun _ => ends_ok.2 fun _ => ⟨rfl, rfl⟩

theorem forkFiles_sides {containerID : ℤ} : Sides (forkFiles p q containerID) := by
  refine .read fun s => ?_
  split_ifs
  · exact .onFs fork_flags
  · exact fun _ _ => ends_error.2 trivial

/-- `open` makes a file of the file system of an entry that is free. -/
theorem sysOpen_sided {path : CString} {omode : UInt32} (h : Between s) (hs : Sided s) :
    Ends (fun _ t => Sided t) (fun _ => True) (onFs (sysOpen p path omode) s) := by
  have hclosed : ∀ f, (s.fs.file f).ref = 0 → (s.fs.file f).ip = none :=
    fun f hf => ((h.filed.object f).1 hf).1
  refine (onFs_free (sysOpen_table hclosed)).post ?_
  rintro _ t ⟨fs, rfl, hopen⟩ k hk
  cases hopen with
  | fail hfile _ =>
    rw [hfile]
    exact hs k hk
  | @ok f _ x href _ _ _ hfile _ =>
    have hkf : k ≠ f := by
      rintro rfl
      exact hk ((h.filed.object k).1 href).2
    rw [hfile, Function.update_of_ne hkf]
    exact hs k hk

end Xv6Container.Files
