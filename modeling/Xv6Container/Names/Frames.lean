import Xv6Container.Names.Model

/-! Calls about paths and inodes leave the tables of files and processes alone. -/

namespace Xv6Container.Names

open Lib Fs

variable {α β : Type} {s t : State} {e dp ip : Entry} {p : Slot} {path : CString}

/-- Whatever the program does, the files, the descriptors and the current directories stay. -/
def Frames (x : Run α) : Prop :=
  ∀ s, Ends (fun _ t => t.file = s.file ∧ t.proc = s.proc) (fun _ => True) (x s)

namespace Frames

theorem ret (a : α) : Frames (pure a) := fun _ => ends_ok.2 ⟨rfl, rfl⟩

theorem stop (r : Stop) : Frames (throw r : Run α) := fun _ => ends_error.2 trivial

theorem change {g : State → State} (h : ∀ s, (g s).file = s.file ∧ (g s).proc = s.proc) :
    Frames (modify g : Run PUnit) := fun s => ends_ok.2 (h s)

theorem bind {x : Run α} {f : α → Run β} (hx : Frames x) (hf : ∀ a, Frames (f a)) :
    Frames (x >>= f) := by
  intro s
  refine (hx s).bind fun a t ⟨hfile, hproc⟩ => ?_
  rw [← hfile, ← hproc]
  exact hf a t

theorem read {f : State → Run α} (h : ∀ s, Frames (f s)) : Frames (get >>= f) := fun s => h s s

theorem ite {c : Prop} [Decidable c] {x y : Run α} (hx : Frames x) (hy : Frames y) :
    Frames (if c then x else y) := by
  split_ifs
  · exact hx
  · exact hy

end Frames

/-! ### Inodes -/

theorem iget_frames (i : Inum) : Frames (iget i) := by
  refine .read fun s => ?_
  dsimp only
  split
  · exact .bind (.change fun _ => ⟨rfl, rfl⟩) fun _ => .ret _
  · split
    · refine .bind (.change fun _ => ⟨rfl, rfl⟩) fun _ => ?_
      exact .bind (.change fun _ => ⟨rfl, rfl⟩) fun _ => .ret _
    · exact .stop _

theorem setInode_frames (f : Inode → Inode) : Frames (setInode e f) :=
  .change fun _ => ⟨rfl, rfl⟩

theorem idup_frames : Frames (idup e) := (setInode_frames _).bind fun _ => .ret e

theorem acquiresleep_frames : Frames (acquiresleep e) :=
  .read fun _ => .ite (.stop _) (setInode_frames _)

theorem ilock_frames : Frames (ilock e) := by
  refine .read fun _ => .ite (.stop _) (acquiresleep_frames.bind fun _ => ?_)
  refine .read fun s => .ite ((setInode_frames _).bind fun _ => ?_) (.ret _)
  exact .ite (.stop _) (.ret _)

theorem iunlock_frames : Frames (iunlock e) :=
  .read fun _ => .ite (.stop _) (setInode_frames _)

theorem iupdate_frames : Frames (iupdate e) := .change fun _ => ⟨rfl, rfl⟩

theorem freeInode_frames : Frames (freeInode e) := by
  refine .bind (.change fun _ => ⟨rfl, rfl⟩) fun _ => (setInode_frames _).bind fun _ => ?_
  refine iupdate_frames.bind fun _ => (setInode_frames _).bind fun _ => ?_
  exact .change fun _ => ⟨rfl, rfl⟩

theorem iput_frames : Frames (iput e) := by
  refine acquiresleep_frames.bind fun _ => .read fun s => ?_
  have hrest : Frames (do
      releasesleep e
      setInode e fun ip => { ip with ref := ip.ref - 1 }) :=
    (setInode_frames _).bind fun _ => setInode_frames _
  dsimp only
  split_ifs
  · exact freeInode_frames.bind fun _ => hrest
  · exact hrest

theorem iunlockput_frames : Frames (iunlockput e) := iunlock_frames.bind fun _ => iput_frames

theorem ialloc_frames (type : FileType) : Frames (ialloc type) := by
  refine .read fun s => ?_
  dsimp only
  split
  · exact .bind (.change fun _ => ⟨rfl, rfl⟩) fun _ => iget_frames _
  · exact .stop _

/-! ### Directories and paths -/

theorem dirlookup_frames (name : Name) : Frames (dirlookup dp name) := by
  refine .read fun s => .ite (.stop _) ?_
  split
  · exact .ret _
  · exact (iget_frames _).bind fun _ => .ret _

theorem dirlink_frames (name : Name) (i : Inum) : Frames (dirlink dp name i) := by
  refine (dirlookup_frames name).bind fun o => ?_
  split
  · exact iput_frames.bind fun _ => .ret _
  · refine .read fun s => .ite (.bind (.change fun _ => ⟨rfl, rfl⟩) fun _ => .ret _) (.stop _)

theorem namexLoop_frames (parent : Bool) (name : Name) (path : List Name) :
    Frames (namexLoop parent ip name path) := by
  induction path generalizing ip name with
  | nil =>
    unfold namexLoop
    split_ifs
    · exact iput_frames.bind fun _ => .ret _
    · exact .ret _
  | cons name' path ih =>
    unfold namexLoop
    refine ilock_frames.bind fun _ => .read fun s => .ite ?_ (.ite ?_ ?_)
    · exact iunlockput_frames.bind fun _ => .ret _
    · exact iunlock_frames.bind fun _ => .ret _
    · refine (dirlookup_frames _).bind fun o => ?_
      split
      · exact iunlockput_frames.bind fun _ => .ret _
      · exact iunlockput_frames.bind fun _ => ih _

theorem namex_frames (parent : Bool) : Frames (namex p path parent) := by
  refine .bind ?_ fun ip => namexLoop_frames _ _ _
  refine .ite (iget_frames _) (.read fun s => ?_)
  split
  · exact idup_frames
  · exact .stop _

theorem namei_frames : Frames (namei p path) := (namex_frames false).bind fun _ => .ret _

theorem nameiparent_frames : Frames (nameiparent p path) := namex_frames true

/-! ### Calls -/

theorem incLink_frames : Frames (incLink e) :=
  .read fun _ => .ite (.stop _) (setInode_frames _)

theorem setCopy_frames (f : Attr → Attr) : Frames (setCopy e f) := setInode_frames _

theorem decLink_frames : Frames (decLink e) := setCopy_frames _

theorem newInode_frames (type : FileType) (major minor : ℤ) :
    Frames (newInode p type major minor) := by
  refine (ialloc_frames type).bind fun ip => ilock_frames.bind fun _ => .read fun s => ?_
  refine (setInode_frames _).bind fun _ => iupdate_frames.bind fun _ => ?_
  exact .bind (.change fun _ => ⟨rfl, rfl⟩) fun _ => .ret _

theorem createDots_frames : Frames (createDots dp ip) := by
  refine incLink_frames.bind fun _ => iupdate_frames.bind fun _ => .read fun s => ?_
  refine (dirlink_frames _ _).bind fun b => .ite ((dirlink_frames _ _).bind fun b => ?_) (.stop _)
  exact .ite (.ret _) (.stop _)

theorem create_frames (type : FileType) (major minor : ℤ) :
    Frames (create p path type major minor) := by
  refine nameiparent_frames.bind fun o => ?_
  split
  · exact .ret _
  · refine ilock_frames.bind fun _ => (dirlookup_frames _).bind fun o => ?_
    split
    · refine iunlockput_frames.bind fun _ => ilock_frames.bind fun _ => .read fun s => .ite ?_ ?_
      · exact .ret _
      · exact iunlockput_frames.bind fun _ => .ret _
    · refine (newInode_frames _ _ _).bind fun ip => ?_
      have hlink : ∀ dp name, Frames (do
          if ← dirlink dp name ((← get).cache ip).inum then
            iunlockput dp
            return some ip
          else throw (.panic "create: dirlink")) := by
        intro dp name
        refine .read fun s => (dirlink_frames _ _).bind fun b => .ite ?_ (.stop _)
        exact iunlockput_frames.bind fun _ => .ret _
      dsimp only
      split_ifs
      · exact createDots_frames.bind fun _ => hlink _ _
      · exact hlink _ _

theorem linkBad_frames : Frames (linkBad ip) :=
  ilock_frames.bind fun _ => decLink_frames.bind fun _ => iupdate_frames.bind fun _ =>
    iunlockput_frames

theorem sysLink_frames (new : CString) : Frames (sysLink p path new) := by
  refine namei_frames.bind fun o => ?_
  split
  · exact .ret _
  · refine ilock_frames.bind fun _ => .read fun s => .ite ?_ ?_
    · exact iunlockput_frames.bind fun _ => .ret _
    · refine incLink_frames.bind fun _ => iupdate_frames.bind fun _ => ?_
      refine iunlock_frames.bind fun _ => nameiparent_frames.bind fun o => ?_
      split
      · exact linkBad_frames.bind fun _ => .ret _
      · refine ilock_frames.bind fun _ => .read fun s => (dirlink_frames _ _).bind fun b => ?_
        refine .ite (iunlockput_frames.bind fun _ => ?_) (iunlockput_frames.bind fun _ => ?_)
        · exact iput_frames.bind fun _ => .ret _
        · exact linkBad_frames.bind fun _ => .ret _

theorem unlinkEntry_frames (off : ℕ) : Frames (unlinkEntry dp ip off) := by
  have hrest : Frames (do
      iunlockput dp
      decLink ip
      iupdate ip
      iunlockput ip
      return true) :=
    iunlockput_frames.bind fun _ => decLink_frames.bind fun _ => iupdate_frames.bind fun _ =>
      iunlockput_frames.bind fun _ => .ret _
  refine ilock_frames.bind fun _ => .read fun s => .ite (.stop _) (.ite ?_ ?_)
  · exact iunlockput_frames.bind fun _ => iunlockput_frames.bind fun _ => .ret _
  · refine .bind (.change fun _ => ⟨rfl, rfl⟩) fun _ => ?_
    dsimp only
    split_ifs
    · exact decLink_frames.bind fun _ => iupdate_frames.bind fun _ => hrest
    · exact hrest

theorem sysUnlink_frames : Frames (sysUnlink p path) := by
  refine nameiparent_frames.bind fun o => ?_
  split
  · exact .ret _
  · refine ilock_frames.bind fun _ => .ite (iunlockput_frames.bind fun _ => .ret _) ?_
    refine (dirlookup_frames _).bind fun o => ?_
    split
    · exact iunlockput_frames.bind fun _ => .ret _
    · exact unlinkEntry_frames _

theorem sysMake_frames (type : FileType) (major minor : ℤ) :
    Frames (sysMake p path type major minor) := by
  refine (create_frames _ _ _).bind fun o => ?_
  split
  · exact .ret _
  · exact iunlockput_frames.bind fun _ => .ret _

theorem openInode_frames (omode : UInt32) : Frames (openInode p path omode) := by
  refine .read fun s => ?_
  dsimp only
  split
  · exact .stop _
  · refine .ite (create_frames _ _ _) (namei_frames.bind fun o => ?_)
    split
    · exact .ret _
    · refine ilock_frames.bind fun _ => .read fun s => .ite ?_ (.ret _)
      exact iunlockput_frames.bind fun _ => .ret _

end Xv6Container.Names
