import Xv6Container.Files.Inodes

/-! The calls and the file table. Between two calls no reference to a file is in hand, and a
process slot without a process has no descriptors. A file that stays open in a call stands for the
same inode or end of a pipe afterwards. -/

namespace Xv6Container.Files

open Lib Names
open Fs hiding Stop

variable {α : Type} {K : FileId → ℤ} {s t u : State} {p q : Slot} {fd : Fd} {f g : FileId}

/-- A slot without a process has no descriptors. -/
def Idle (fs : Names.State) : Prop := ∀ p, (fs.proc p).cwd = none → ∀ fd, (fs.proc p).ofile fd = none

/-- A file that is open before and after a call is the same one. -/
def Persists (s t : State) : Prop :=
  ∀ f, (s.fs.file f).ref ≠ 0 → (t.fs.file f).ref ≠ 0 → Same s t f

/-- The state between two calls. -/
structure Between (s : State) : Prop where
  filed : Filed 0 s
  idle : Idle s.fs

theorem Shrinks.persists (h : Shrinks s t) : Persists s t := fun f _ ht => (h f ht).2

theorem Extends.persists (h : Extends s t) (h' : Shrinks t u) : Persists s u :=
  fun f hs hu => (h f hs).2.trans (h' f hu).2

theorem Idle.congr {fs fs' : Names.State} (h : Idle fs)
    (hproc : ∀ p, (fs'.proc p).cwd = none →
      (fs.proc p).cwd = none ∧ (fs'.proc p).ofile = (fs.proc p).ofile) : Idle fs' := by
  intro p hp fd
  obtain ⟨hcwd, hofile⟩ := hproc p hp
  rw [hofile]
  exact h p hcwd fd

/-- A process sets one of its descriptors. -/
theorem Idle.putFd {fs : Names.State} (h : Idle fs) (hp : (fs.proc p).cwd.isSome)
    (o : Option FileId) : Idle (fs.putFd p fd o) := by
  refine h.congr fun r hr => ?_
  have hrp : r ≠ p := by
    rintro rfl
    rw [State.putFd_self] at hr
    change (fs.proc r).cwd = none at hr
    rw [hr] at hp
    cases hp
  rw [State.putFd_of_ne hrp] at hr ⊢
  exact ⟨hr, rfl⟩

/-! ### Descriptors -/

theorem Filed.putSome (h : Filed K s) (hnone : (s.fs.proc p).ofile fd = none) :
    Filed (K - Pi.single f 1) { s with fs := s.fs.putFd p fd (some f) } :=
  h.recount (h.refs.putSome hnone) (.of_file rfl)

theorem Filed.putNone (h : Filed K s) (hsome : (s.fs.proc p).ofile fd = some f) :
    Filed (K + Pi.single f 1) { s with fs := s.fs.putFd p fd none } :=
  h.recount (h.refs.putNone hsome) (.of_file rfl)

theorem shrinks_putFd (o : Option FileId) : Shrinks s { s with fs := s.fs.putFd p fd o } :=
  fun _ hf => ⟨hf, rfl, rfl, rfl⟩

theorem fdalloc_filed (h : Filed K s) (hidle : Idle s.fs) (hp : (s.fs.proc p).cwd.isSome) :
    Ends (fun o t => Filed (o.elim K fun _ => K - Pi.single f 1) t ∧ Idle t.fs ∧
      (t.fs.proc p).cwd.isSome ∧ Shrinks s t ∧ (o = none → t = s) ∧
      ∀ fd, o = some fd → (t.fs.proc p).ofile fd = some f) Legal (onFs (fdalloc p f) s) := by
  refine (onFs_ends (S := fun _ => True) fdalloc_table).post fun o t ⟨fs, ht, hfs⟩ => ?_
  subst ht
  cases o with
  | none =>
    obtain rfl := hfs
    exact ⟨h, hidle, hp, .refl s, fun _ => rfl, nofun⟩
  | some fd =>
    obtain ⟨hnone, rfl⟩ := hfs
    refine ⟨h.putSome hnone, hidle.putFd hp _, ?_, shrinks_putFd _, nofun, ?_⟩
    · rw [State.putFd_self]
      exact hp
    · rintro _ ⟨⟩
      rw [State.putFd_self]
      exact Function.update_self ..

theorem setFd_filed (h : Filed K s) (hidle : Idle s.fs) (hp : (s.fs.proc p).cwd.isSome)
    (hsome : (s.fs.proc p).ofile fd = some f) :
    Ends (fun _ t => Filed (K + Pi.single f 1) t ∧ Idle t.fs ∧ (t.fs.proc p).cwd.isSome ∧
      Shrinks s t) Legal (onFs (setFd p fd none) s) := by
  refine ends_ok.2 ⟨h.putNone hsome, hidle.putFd hp none, ?_, shrinks_putFd none⟩
  show ((s.fs.putFd p fd none).proc p).cwd.isSome
  rw [State.putFd_self]
  exact hp

theorem shrinks_recount {fs : Names.State} (h : Recounted s.fs fs) : Shrinks s { s with fs := fs } :=
  fun f hf => ⟨fun h0 => hf ((h.used f).2 h0), h.ip f, rfl, h.writable f⟩

/-! ### Pipes, `dup` and `close` -/

theorem both_ends (f g : FileId) :
    (0 + Pi.single f 1 + Pi.single g 1 - Pi.single f 1 - Pi.single g 1 : FileId → ℤ) = 0 := by
  rw [zero_add, add_sub_cancel_left, sub_self]

/-- Both files of a pipe are closed again. -/
theorem closeBoth_between {r : α} (h : Filed (0 + Pi.single f 1 + Pi.single g 1) s)
    (hidle : Idle s.fs) : Ends (fun _ t => Between t ∧ Shrinks s t) Legal
      ((do
        fileclose f
        fileclose g
        return r) s) := by
  refine (fileclose_filed h).bind fun _ t ⟨ht, hproc, hst⟩ => ?_
  refine (fileclose_filed ht).bind fun _ u ⟨hu, hproc', htu⟩ => ?_
  rw [both_ends] at hu
  refine ends_ok.2 ⟨⟨hu, ?_⟩, hst.trans htu⟩
  rw [Idle, hproc', hproc]
  exact hidle

theorem sysPipe_between (h : Between s) (hp : (s.fs.proc p).cwd.isSome) :
    Ends (fun _ t => Between t ∧ Persists s t) Legal (sysPipe p s) := by
  refine (pipealloc_filed h.filed).bind fun o t ⟨ht, hproc, hst⟩ => ?_
  have hidle : Idle t.fs := by
    rw [Idle, hproc]
    exact h.idle
  rw [← hproc] at hp
  cases o with
  | none => exact ends_ok.2 ⟨⟨ht, hidle⟩, hst.persists (.refl t)⟩
  | some x =>
    obtain ⟨f, g⟩ := x
    refine (fdalloc_filed ht hidle hp).bind fun o u ⟨hu, hidle, hp, htu, _, hfd⟩ => ?_
    cases o with
    | none =>
      refine (closeBoth_between hu hidle).post fun _ v ⟨hv, huv⟩ => ⟨hv, ?_⟩
      exact hst.persists (htu.trans huv)
    | some fd0 =>
      refine (fdalloc_filed hu hidle hp).bind fun o v ⟨hv, hidle, hp, huv, hsame, _⟩ => ?_
      cases o with
      | none =>
        obtain rfl := hsame rfl
        refine (setFd_filed hv hidle hp (hfd fd0 rfl)).bind fun _ w ⟨hw, hidle, _, hvw⟩ => ?_
        have hw' : Filed (0 + Pi.single f 1 + Pi.single g 1) w := by
          have hcancel := sub_add_cancel (0 + Pi.single f 1 + Pi.single g 1 : FileId → ℤ)
            (Pi.single f 1)
          rw [← hcancel]
          exact hw
        refine (closeBoth_between hw' hidle).post fun _ x ⟨hx, hwx⟩ => ⟨hx, ?_⟩
        exact hst.persists (htu.trans (hvw.trans hwx))
      | some fd1 =>
        have hv' : Filed 0 v := by
          rw [← both_ends f g]
          exact hv
        exact ends_ok.2 ⟨⟨hv', hidle⟩, hst.persists (htu.trans huv)⟩

theorem sysDup_between (h : Between s) (hp : (s.fs.proc p).cwd.isSome) :
    Ends (fun _ t => Between t ∧ Persists s t) Legal (sysDup p fd s) := by
  simp only [sysDup, run_get_bind]
  cases hfd : (s.fs.proc p).ofile fd with
  | none => exact ends_ok.2 ⟨h, (Shrinks.refl s).persists⟩
  | some f =>
    refine (fdalloc_filed h.filed h.idle hp).bind fun o t ⟨ht, hidle, _, hst, _, _⟩ => ?_
    cases o with
    | none => exact ends_ok.2 ⟨⟨ht, hidle⟩, hst.persists⟩
    | some fd' =>
      refine (onFs_ends filedup_table).bind fun _ u ⟨fs, hu, hpos, hfs⟩ => ?_
      subst hu hfs
      have hrefs := ht.refs.setFile (f := f) (d := 1)
        (x := { t.fs.file f with ref := (t.fs.file f).ref + 1 }) rfl
      rw [Option.elim_some, sub_add_cancel] at hrefs
      have hcount : Recounted t.fs (t.fs.setFile f
          { t.fs.file f with ref := (t.fs.file f).ref + 1 }) := .setRef (by omega) (by omega)
      exact ends_ok.2 ⟨⟨ht.recount hrefs hcount, hidle⟩,
        (hst.trans (shrinks_recount hcount)).persists⟩

theorem sysClose_between (h : Between s) (hp : (s.fs.proc p).cwd.isSome) :
    Ends (fun _ t => Between t ∧ Persists s t) Legal (sysClose p fd s) := by
  simp only [sysClose, run_get_bind]
  cases hfd : (s.fs.proc p).ofile fd with
  | none => exact ends_ok.2 ⟨h, (Shrinks.refl s).persists⟩
  | some f =>
    refine (setFd_filed h.filed h.idle hp hfd).bind fun _ t ⟨ht, hidle, _, hst⟩ => ?_
    refine (fileclose_filed ht).bind fun _ u ⟨hu, hproc, htu⟩ => ?_
    rw [add_sub_cancel_right] at hu
    refine ends_ok.2 ⟨⟨hu, ?_⟩, (hst.trans htu).persists⟩
    rw [Idle, hproc]
    exact hidle

/-! ### Calls of the file system -/

/-- Neither the file table nor a descriptor changes, and nobody loses its directory. -/
def Settles (fs fs' : Names.State) : Prop :=
  fs'.file = fs.file ∧ ∀ p, (fs'.proc p).ofile = (fs.proc p).ofile ∧
    ((fs'.proc p).cwd = none → (fs.proc p).cwd = none)

theorem Settles.of_eq {fs fs' : Names.State} (hfile : fs'.file = fs.file)
    (hproc : fs'.proc = fs.proc) : Settles fs fs' :=
  ⟨hfile, fun p => by rw [hproc]; exact ⟨rfl, id⟩⟩

theorem settles_between {x : Names.Run α} (h : Between s)
    (hx : Ends (fun _ fs => Settles s.fs fs) (fun _ => True) (x s.fs)) :
    Ends (fun _ t => Between t ∧ Persists s t) Legal (discard (onFs x) s) := by
  refine (onFs_ends hx).discard.post fun _ t ⟨_, fs, ht, hfile, hproc⟩ => ?_
  subst ht
  refine ⟨⟨h.filed.frame hfile fun p => (hproc p).1, ?_⟩, (extends_file hfile).persists (.refl _)⟩
  exact h.idle.congr fun p hp => ⟨(hproc p).2 hp, (hproc p).1⟩

theorem frames_between {x : Names.Run α} (h : Between s) (hx : Frames x) :
    Ends (fun _ t => Between t ∧ Persists s t) Legal (discard (onFs x) s) :=
  settles_between h ((hx s.fs).post fun _ _ ⟨hfile, hproc⟩ => .of_eq hfile hproc)

theorem exec_frames (path : CString) (loads fits : Bool) : Frames (exec p path loads fits) := by
  refine namei_frames.bind fun o => ?_
  split
  · exact .ret _
  · refine ilock_frames.bind fun _ => .ite ?_ ?_
    · exact iunlockput_frames.bind fun _ => .ret _
    · exact iunlockput_frames.bind fun _ => .ret _

theorem sysFstat_frames : Frames (sysFstat p fd) := by
  refine .read fun s => ?_
  split
  · exact .ret _
  · refine .read fun s => ?_
    split
    · exact .ret _
    · exact ilock_frames.bind fun _ => .read fun s => iunlock_frames.bind fun _ => .ret _

theorem putCwd_frames : Frames (putCwd p) := by
  refine .read fun s => ?_
  split
  · exact iput_frames
  · exact .stop _

theorem sysChdir_settles {fs : Names.State} {path : CString} :
    Ends (fun _ fs' => Settles fs fs') (fun _ => True) (sysChdir p path fs) := by
  refine (namei_frames fs).bind ?_
  rintro o t ⟨hfile, hproc⟩
  cases o with
  | none => exact ends_ok.2 (.of_eq hfile hproc)
  | some ip =>
    refine (ilock_frames t).bind ?_
    rintro _ u ⟨hfile', hproc'⟩
    simp only [run_get_bind]
    split_ifs
    · refine (iunlockput_frames u).bind ?_
      rintro _ v ⟨hfile'', hproc''⟩
      refine ends_ok.2 (.of_eq ?_ ?_)
      · rw [hfile'', hfile', hfile]
      · rw [hproc'', hproc', hproc]
    · refine (iunlock_frames u).bind ?_
      rintro _ v ⟨hfv, hpv⟩
      refine (putCwd_frames v).bind ?_
      rintro _ w ⟨hfw, hpw⟩
      rw [setCwd, run_modify_bind, run_pure, ends_ok]
      refine ⟨?_, fun q => ?_⟩
      · show w.file = fs.file
        rw [hfw, hfv, hfile', hfile]
      · have hall : w.proc = fs.proc := by rw [hpw, hpv, hproc', hproc]
        show ((Function.update w.proc p { w.proc p with cwd := some ip } q)).ofile = _ ∧
          ((Function.update w.proc p { w.proc p with cwd := some ip } q).cwd = none → _)
        by_cases hq : q = p
        · subst hq
          rw [Function.update_self, hall]
          exact ⟨rfl, by rintro ⟨⟩⟩
        · rw [Function.update_of_ne hq, hall]
          exact ⟨rfl, id⟩

/-! ### `open` -/

/-- A new file of type `FD_INODE`, and a descriptor for it. -/
theorem Filed.openFile {fs : Names.State} {x : Names.File} (h : Filed 0 s)
    (href : (s.fs.file f).ref = 0) (hx : x.ref = 1) (hip : x.ip.isSome)
    (hfd : (s.fs.proc p).ofile fd = none) (hfile : fs.file = Function.update s.fs.file f x)
    (hproc : fs.proc = (s.fs.putFd p fd (some f)).proc) : Filed 0 { s with fs := fs } := by
  have hpipe : s.pipe f = none := ((h.object f).1 href).2
  have hrefs : Refs 0 fs := by
    have hput := (h.refs.putSome (f := f) hfd).setFile (f := f) (x := x) (d := 1) (by
      show x.ref = (s.fs.file f).ref + 1
      omega)
    rw [sub_add_cancel] at hput
    have hslots : slots fs = slots (s.fs.putFd p fd (some f)) :=
      slots_congr fun q => congrFun hproc q ▸ rfl
    intro g
    rw [hfile, hslots]
    exact hput g
  have hend : State.endOf { s with fs := fs } = s.endOf := by
    funext g
    show (s.pipe g).map (fun pg => (pg, (fs.file g).writable)) = _
    by_cases hg : g = f
    · rw [hg, State.endOf, hpipe]
      rfl
    · rw [hfile, Function.update_of_ne hg]
      rfl
  refine ⟨hrefs, fun g => ?_, fun g => ?_, fun pg w => ?_, h.live, h.nodup, h.apart, h.log⟩
  · show (fs.file g).ref = 0 ↔ (fs.file g).ip = none ∧ s.pipe g = none
    rw [hfile]
    by_cases hg : g = f
    · rw [hg, Function.update_self, hx]
      exact ⟨by rintro ⟨⟩, fun hnone => absurd hnone.1 (Option.isSome_iff_ne_none.1 hip)⟩
    · rw [Function.update_of_ne hg]
      exact h.object g
  · show (fs.file g).ip = none ∨ s.pipe g = none
    rw [hfile]
    by_cases hg : g = f
    · exact .inr (hg ▸ hpipe)
    · rw [Function.update_of_ne hg]
      exact h.single g
  · rw [hend]
    exact h.ends pg w

theorem sysOpen_between {path : CString} {omode : UInt32} (h : Between s)
    (hp : (s.fs.proc p).cwd.isSome) :
    Ends (fun _ t => Between t ∧ Persists s t) Legal (discard (onFs (sysOpen p path omode)) s) := by
  have hopen : Ends (fun _ fs => OpensFile p s.fs fs) (fun _ => True)
      (sysOpen p path omode s.fs) := sysOpen_table fun f href => ((h.filed.object f).1 href).1
  refine (onFs_ends hopen).discard.post fun _ t ⟨_, fs, ht, hfs⟩ => ?_
  subst ht
  cases hfs with
  | fail hfile hproc =>
    refine ⟨⟨h.filed.frame hfile fun p => by rw [hproc], ?_⟩, (extends_file hfile).persists (.refl _)⟩
    rw [Idle, hproc]
    exact h.idle
  | @ok f fd x href hx hip hfd hfile hproc =>
    refine ⟨⟨h.filed.openFile href hx hip hfd hfile hproc, ?_⟩, fun g hg _ => ?_⟩
    · rw [Idle, hproc]
      exact h.idle.putFd hp _
    · have hgf : g ≠ f := by
        rintro rfl
        exact hg href
      rw [Same]
      dsimp only
      rw [hfile, Function.update_of_ne hgf]
      exact ⟨rfl, rfl, rfl⟩

/-! ### `exit` -/

/-- The files of `exit` on the way: the first `i` descriptors are closed. -/
structure Leaving (p : Slot) (s : State) (i : ℕ) (t : State) : Prop where
  filed : Filed 0 t
  shrinks : Shrinks s t
  other : ∀ r, r ≠ p → t.fs.proc r = s.fs.proc r
  closed : ∀ fd : Fd, fd.val < i → (t.fs.proc p).ofile fd = none

theorem closeAll_leaving (h : Filed 0 s) :
    Ends (fun _ t => Leaving p s NOFILE t) Legal (closeAll p s) := by
  refine Ends.finRange (I := fun i t => Leaving p s i t)
    ⟨h, .refl s, fun _ _ => rfl, fun fd hfd => absurd hfd (Nat.not_lt_zero _)⟩ fun fd t ht => ?_
  simp only [run_get_bind]
  cases hfd : (t.fs.proc p).ofile fd with
  | none =>
    refine ends_ok.2 ⟨ht.filed, ht.shrinks, ht.other, fun fd' hlt => ?_⟩
    by_cases heq : fd' = fd
    · rw [heq, hfd]
    · exact ht.closed fd' (Nat.lt_of_le_of_ne (Nat.le_of_lt_succ hlt) (Fin.val_ne_of_ne heq))
  | some f =>
    refine (fileclose_filed ht.filed).bind fun _ u ⟨hu, hproc, htu⟩ => ?_
    rw [← hproc] at hfd
    have hput := hu.putNone hfd
    rw [sub_add_cancel] at hput
    refine ends_ok.2 ⟨hput, ht.shrinks.trans (htu.trans (shrinks_putFd none)), fun r hr => ?_,
      fun fd' hlt => ?_⟩
    · show (u.fs.putFd p fd none).proc r = _
      rw [State.putFd_of_ne hr, hproc, ht.other r hr]
    · show ((u.fs.putFd p fd none).proc p).ofile fd' = none
      rw [State.putFd_self]
      show Function.update (u.fs.proc p).ofile fd none fd' = none
      by_cases heq : fd' = fd
      · rw [heq, Function.update_self]
      · rw [Function.update_of_ne heq, hproc]
        exact ht.closed fd' (Nat.lt_of_le_of_ne (Nat.le_of_lt_succ hlt) (Fin.val_ne_of_ne heq))

theorem exit_between (h : Between s) :
    Ends (fun _ t => Between t ∧ Shrinks s t) Legal (exit p s) := by
  refine (closeAll_leaving (p := p) h.filed).bind fun _ t ht => ?_
  refine (onFs_ends (putCwd_frames (p := p) t.fs)).bind fun _ u ⟨fs, hu, hfile, hproc⟩ => ?_
  subst hu
  rw [setCwd, onFs, run_modify, ends_ok]
  have hofile : ∀ r, (Function.update fs.proc p { fs.proc p with cwd := none } r).ofile =
      (t.fs.proc r).ofile := by
    intro r
    rw [← hproc]
    by_cases hr : r = p
    · rw [hr, Function.update_self]
    · rw [Function.update_of_ne hr]
  refine ⟨⟨ht.filed.frame hfile hofile, fun r hr fd => ?_⟩, ht.shrinks.trans ?_⟩
  · refine (congrFun (hofile r) fd).trans ?_
    by_cases hrp : r = p
    · rw [hrp]
      exact ht.closed fd fd.isLt
    · change (Function.update fs.proc p { fs.proc p with cwd := none } r).cwd = none at hr
      rw [Function.update_of_ne hrp, hproc, ht.other r hrp] at hr
      rw [ht.other r hrp]
      exact h.idle r hr fd
  · exact shrinks_recount (.of_file hfile)

/-! ### `fork` -/

theorem forkFiles_between {containerID : ℤ} (h : Between s) :
    Ends (fun _ t => Between t ∧ Shrinks s t) Legal (forkFiles p q containerID s) := by
  simp only [forkFiles, run_get_bind]
  split_ifs with hq
  · have hfork : Ends _ _ (Names.fork p q containerID s.fs) :=
      fork_table h.filed.refs (h.idle q (Option.isNone_iff_eq_none.1 hq))
    refine (onFs_ends hfork).post ?_
    rintro _ t ⟨fs, ht, hrefs, hcount, hother, hself⟩
    subst ht
    refine ⟨⟨h.filed.recount hrefs hcount, h.idle.congr fun r hr => ?_⟩, shrinks_recount hcount⟩
    by_cases hrq : r = q
    · rw [hrq] at hr
      exact absurd hr (Option.isSome_iff_ne_none.1 hself)
    · have hsame := hother r hrq
      rw [hsame] at hr ⊢
      exact ⟨hr, rfl⟩
  · exact ends_error.2 (by rintro _ ⟨⟩)

/-! ### One step -/

theorem call_between (c : Call) (h : Between s) (hp : ∀ p ∈ c.proc, (s.fs.proc p).cwd.isSome) :
    Ends (fun _ t => Between t ∧ Persists s t) Legal (c.run s) := by
  cases c with
  | open_ p path omode => exact sysOpen_between h (hp p rfl)
  | close p fd => exact (sysClose_between h (hp p rfl)).discard.post fun _ _ ⟨_, ht⟩ => ht
  | dup p fd => exact (sysDup_between h (hp p rfl)).discard.post fun _ _ ⟨_, ht⟩ => ht
  | pipe p => exact (sysPipe_between h (hp p rfl)).discard.post fun _ _ ⟨_, ht⟩ => ht
  | chdir p path => exact settles_between h sysChdir_settles
  | fork p q => exact (forkFiles_between h).post fun _ _ ⟨ht, hst⟩ => ⟨ht, hst.persists⟩
  | joinContainer p q containerID =>
    refine (forkFiles_between h).bind fun _ t ⟨ht, hst⟩ => ?_
    exact (exit_between ht).post fun _ _ ⟨hu, htu⟩ => ⟨hu, (hst.trans htu).persists⟩
  | exec p path loads fits => exact frames_between h (exec_frames path loads fits)
  | link p old new => exact frames_between h (sysLink_frames new)
  | unlink p path => exact frames_between h sysUnlink_frames
  | mkdir p path => exact frames_between h (sysMake_frames .dir 0 0)
  | mknod p path major minor => exact frames_between h (sysMake_frames .dev major minor)
  | fstat p fd => exact frames_between h sysFstat_frames
  | exit p => exact (exit_between h).post fun _ _ ⟨ht, hst⟩ => ⟨ht, hst.persists⟩
  | memory freelist =>
    simp only [Call.run, run_get_bind]
    split_ifs with hlist
    · exact ends_ok.2 ⟨⟨{ h.filed with nodup := hlist.1, apart := hlist.2 }, h.idle⟩,
        (Shrinks.refl s).persists⟩
    · exact ends_error.2 nofun

/-! ### Runs -/

theorem slots_boot {node : Inum → Node} {kmem : Kmem} : slots (boot node kmem).fs f = 0 :=
  tally_none f

theorem boot_between {node : Inum → Node} {kmem : Kmem} (h : kmem.freelist.Nodup) :
    Between (boot node kmem) := by
  refine ⟨⟨fun f => ?_, fun f => ⟨fun _ => ⟨rfl, rfl⟩, fun _ => rfl⟩, fun f => .inl rfl,
    fun pg w => ?_, nofun, h, fun _ _ => rfl, fun _ => rfl⟩, fun _ _ _ => rfl⟩
  · rw [slots_boot]
    rfl
  · exact tally_none (pg, w)

theorem step_between {c : Call} (h : Between s) (ht : step s c = .ok t) :
    Between t ∧ Persists s t := by
  unfold step at ht
  split_ifs at ht with hp
  cases hrun : c.run s with
  | ok a u =>
    rw [hrun] at ht
    cases ht
    exact (call_between c h hp).1 a _ hrun
  | error r u =>
    rw [hrun] at ht
    cases ht

theorem step_legal {c : Call} {r : Stop} (h : Between s) (ht : step s c = .error r) : Legal r := by
  unfold step at ht
  split_ifs at ht with hp
  · cases hrun : c.run s with
    | ok a u =>
      rw [hrun] at ht
      cases ht
    | error r' u =>
      rw [hrun] at ht
      cases ht
      exact (call_between c h hp).2 _ u hrun
  · cases ht
    exact nofun

/-- The references to a file are its descriptors, and a file holds its inode or its end of a pipe
as long as there are any. Each open end belongs to one file. A page is a pipe as long as one of
its ends is open, and is freed once for every time that it has become one. -/
structure FilesCounted (s : State) : Prop where
  refs : ∀ f, (s.fs.file f).ref = slots s.fs f
  object : ∀ f, slots s.fs f = 0 ↔ (s.fs.file f).ip = none ∧ s.pipe f = none
  inode : ∀ e, (s.fs.cache e).ref =
    tally (fun f => (s.fs.file f).ip) e + tally (fun p => (s.fs.proc p).cwd) e
  ends : ∀ pg w, tally s.endOf (pg, w) = if s.isOpen pg w then 1 else 0
  page : ∀ pg, (s.pipes pg).isSome ↔ s.isOpen pg false ∨ s.isOpen pg true
  log : ∀ pg, s.log.count (.made pg) =
    s.log.count (.freed pg) + if (s.pipes pg).isSome then 1 else 0

theorem Filed.isSome_iff (h : Filed K s) :
    (s.pipes pg).isSome ↔ s.isOpen pg false ∨ s.isOpen pg true := by
  unfold State.isOpen
  cases hq : s.pipes pg with
  | none => simp
  | some q =>
    have hlive := h.live pg q hq
    unfold Pipes.Pipe.freed at hlive
    simp only [Option.isSome_some, Option.elim_some, Pipes.Pipe.isOpen, true_iff]
    grind

/-- In every run files and pipes are counted right between two calls, a call lets a file that
stays open stand for what it stood for, and no pipe is used after it has been freed. -/
theorem files_counted (hs : Reach step always Booted s) : FilesCounted s ∧
    (∀ c t, step s c = .ok t → Persists s t) ∧ ∀ c pg, step s c ≠ .error (.freed pg) := by
  have hinv : Between s ∧ Steady False s.fs := by
    refine hs.invariant (I := fun s => Between s ∧ Steady False s.fs) ?_ ?_
    · rintro s ⟨node, kmem, hdisk, hlist, rfl⟩
      exact ⟨boot_between hlist, boot_steady hdisk⟩
    · intro s c t ⟨hs, hsteady⟩ _ ht
      exact ⟨(step_between hs ht).1, step_steady hsteady ht⟩
  obtain ⟨h, hsteady⟩ := hinv
  have hrefs : ∀ f, (s.fs.file f).ref = slots s.fs f := fun f => by
    rw [h.filed.refs f]
    exact add_zero _
  refine ⟨⟨hrefs, fun f => ?_, (counted_of_steady hsteady).count, h.filed.ends,
    fun pg => h.filed.isSome_iff, h.filed.log⟩, fun c t ht => (step_between h ht).2,
    fun c pg hstop => step_legal h hstop pg rfl⟩
  rw [← hrefs]
  exact h.filed.object f

/-- Both ends of a pipe are shared, one descriptor of each is closed twice over, and the writer
exits: one end is left. -/
theorem files_counted_pipe : ∃ s, Reach step always Booted s ∧ FilesCounted s ∧
    (s.fs.file 0).ref = 1 ∧ s.isOpen 0x80400000 false ∧ ¬ s.isOpen 0x80400000 true := by
  have hboot : Reach step always Booted firstBoot := .start booted_firstBoot
  obtain ⟨s, hs, ht⟩ := hboot.of_endsIn
    (fun s => decide ((s.fs.file 0).ref = 1 ∧ s.isOpen 0x80400000 false ∧
      ¬ s.isOpen 0x80400000 true))
    [.pipe 0, .dup 0 0, .fork 0 1, .close 0 1, .close 0 2, .exit 1] (by decide +kernel)
  exact ⟨s, hs, (files_counted hs).1, of_decide_eq_true ht⟩

end Xv6Container.Files
