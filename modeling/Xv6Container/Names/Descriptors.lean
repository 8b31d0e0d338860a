import Mathlib.Algebra.Group.Pi.Basic
import Mathlib.Data.Fintype.Prod
import Mathlib.Tactic.Ring
import Xv6Container.Lib.Tally
import Xv6Container.Names.Frames

/-! Descriptors and the file table. The reference count of a file is that of the descriptors that
point to it and of the calls that have it in hand. -/

namespace Xv6Container.Names

open Lib Fs

variable {K : FileId → ℤ} {s t : State} {p q : Slot} {fd : Fd} {f g : FileId} {x : File}
  {S : Stop → Prop}

/-! ### Counts -/

/-- The descriptors that point to a file. -/
def slots (s : State) (f : FileId) : ℤ :=
  tally (fun d : Slot × Fd => (s.proc d.1).ofile d.2) f

theorem slots_congr (h : ∀ p, (t.proc p).ofile = (s.proc p).ofile) : slots t = slots s := by
  funext f
  simp only [slots, h]

/-- A descriptor is set. -/
def State.putFd (s : State) (p : Slot) (fd : Fd) (o : Option FileId) : State :=
  s.setProc p { s.proc p with ofile := Function.update (s.proc p).ofile fd o }

theorem State.putFd_self (o : Option FileId) :
    (s.putFd p fd o).proc p = { s.proc p with ofile := Function.update (s.proc p).ofile fd o } :=
  Function.update_self ..

theorem State.putFd_of_ne (h : q ≠ p) (o : Option FileId) :
    (s.putFd p fd o).proc q = s.proc q :=
  Function.update_of_ne h ..

theorem slots_putFd (o : Option FileId) : slots (s.putFd p fd o) f =
    slots s f - (if (s.proc p).ofile fd = some f then 1 else 0) +
      (if o = some f then 1 else 0) := by
  have htable : (fun d : Slot × Fd => ((s.putFd p fd o).proc d.1).ofile d.2) =
      Function.update (fun d : Slot × Fd => (s.proc d.1).ofile d.2) (p, fd) o := by
    funext ⟨q, fd'⟩
    by_cases hq : q = p
    · subst hq
      show ((s.putFd q fd o).proc q).ofile fd' = _
      rw [State.putFd_self]
      by_cases hfd : fd' = fd
      · rw [hfd, Function.update_self]
        exact Function.update_self ..
      · rw [Function.update_of_ne fun h => hfd (Prod.mk.inj h).2]
        exact Function.update_of_ne hfd ..
    · rw [Function.update_of_ne fun h => hq (Prod.mk.inj h).1]
      exact congrArg (fun x => Proc.ofile x fd') (State.putFd_of_ne hq o)
  rw [slots, htable]
  exact tally_update _ _ _ _

/-- The references to files; `K` are those that a call has in hand. -/
def Refs (K : FileId → ℤ) (s : State) : Prop := ∀ f, (s.file f).ref = slots s f + K f

theorem Refs.putSome (h : Refs K s) (hnone : (s.proc p).ofile fd = none) :
    Refs (K - Pi.single f 1) (s.putFd p fd (some f)) := by
  intro g
  rw [slots_putFd, hnone, if_neg nofun, Pi.sub_apply, Pi.single_apply]
  show (s.file g).ref = _
  rw [h g]
  simp only [Option.some.injEq, eq_comm (a := f)]
  ring

theorem Refs.putNone (h : Refs K s) (hsome : (s.proc p).ofile fd = some f) :
    Refs (K + Pi.single f 1) (s.putFd p fd none) := by
  intro g
  rw [slots_putFd, hsome, if_neg (show ¬ none = some g from nofun), Pi.add_apply, Pi.single_apply]
  show (s.file g).ref = _
  rw [h g]
  simp only [Option.some.injEq, eq_comm (a := f)]
  ring

theorem Refs.setFile (h : Refs K s) {d : ℤ} (hx : x.ref = (s.file f).ref + d) :
    Refs (K + Pi.single f d) (s.setFile f x) := by
  intro g
  rw [slots_congr (t := s.setFile f x) (s := s) fun _ => rfl, Pi.add_apply, Pi.single_apply]
  show (Function.update s.file f x g).ref = _
  by_cases hg : g = f
  · rw [hg, Function.update_self, if_pos rfl, hx, h f]
    ring
  · rw [Function.update_of_ne hg, if_neg hg, h g]
    ring

/-! ### The functions of `file.c` -/

theorem fdalloc_table : Ends (fun o t => o.elim (t = s) fun fd =>
    (s.proc p).ofile fd = none ∧ t = s.putFd p fd (some f)) S (fdalloc p f s) := by
  simp only [fdalloc, run_get_bind]
  cases hfd : (List.finRange NOFILE).find? fun fd => ((s.proc p).ofile fd).isNone with
  | none => exact ends_ok.2 rfl
  | some fd =>
    have hfound := List.find?_some hfd
    simp only [run_modify_bind, run_pure, ends_ok]
    exact ⟨Option.isNone_iff_eq_none.1 hfound, rfl⟩

theorem filealloc_table : Ends (fun o t => o.elim (t = s) fun f =>
    (s.file f).ref = 0 ∧ t = s.setFile f { s.file f with ref := 1 }) S (filealloc s) := by
  simp only [filealloc, run_get_bind]
  cases hf : (List.finRange NFILE).find? fun f => (s.file f).ref = 0 with
  | none => exact ends_ok.2 rfl
  | some f =>
    have hfound := List.find?_some hf
    simp only [run_modify_bind, run_pure, ends_ok]
    exact ⟨of_decide_eq_true hfound, rfl⟩

theorem filedup_table : Ends (fun _ t => 1 ≤ (s.file f).ref ∧
    t = s.setFile f { s.file f with ref := (s.file f).ref + 1 }) (fun _ => True) (filedup f s) := by
  simp only [filedup, run_get_bind]
  split_ifs with href
  · exact ends_error.2 trivial
  · exact ends_ok.2 ⟨by omega, rfl⟩

/-- What `fileclose` makes of an entry. -/
def File.closed (x : File) : File :=
  { x with ref := x.ref - 1, ip := if x.ref = 1 then none else x.ip }

theorem fileclose_table : Ends (fun _ t => 1 ≤ (s.file f).ref ∧ t.proc = s.proc ∧
    t.file = Function.update s.file f (s.file f).closed) (fun _ => True) (fileclose f s) := by
  simp only [fileclose, run_get_bind]
  split_ifs with href hmore
  · exact ends_error.2 trivial
  · refine ends_ok.2 ⟨by omega, rfl, ?_⟩
    rw [File.closed, if_neg (by omega)]
    rfl
  · have hone : (s.file f).ref = 1 := by omega
    have hclosed : (s.file f).closed = { s.file f with ref := 0, ip := none } := by
      rw [File.closed, if_pos hone, hone, sub_self]
    rw [run_modify_bind, hclosed]
    cases (s.file f).ip with
    | none => exact ends_ok.2 ⟨hone.ge, rfl, rfl⟩
    | some ip =>
      refine (iput_frames _).post fun _ t ⟨hfile, hproc⟩ => ⟨hone.ge, hproc, ?_⟩
      exact hfile

/-- An entry that has been allocated and is closed again. -/
theorem File.closed_new (href : x.ref = 0) (hip : x.ip = none) :
    ({ x with ref := 1 } : File).closed = x := by
  cases x
  subst href hip
  rfl

/-! ### `sys_open` -/

/-- What `sys_open` does to the tables. -/
inductive OpensFile (p : Slot) (s t : State) : Prop
  | fail (hfile : t.file = s.file) (hproc : t.proc = s.proc) : OpensFile p s t
  | ok {f : FileId} {fd : Fd} {x : File} (href : (s.file f).ref = 0) (hx : x.ref = 1)
      (hip : x.ip.isSome) (hfd : (s.proc p).ofile fd = none)
      (hfile : t.file = Function.update s.file f x)
      (hproc : t.proc = (s.putFd p fd (some f)).proc) : OpensFile p s t

theorem sysOpen_table {path : CString} {omode : UInt32}
    (hc : ∀ f, (s.file f).ref = 0 → (s.file f).ip = none) :
    Ends (fun _ t => OpensFile p s t) (fun _ => True) (sysOpen p path omode s) := by
  refine (openInode_frames omode s).bind fun o t ⟨hfile, hproc⟩ => ?_
  cases o with
  | none => exact ends_ok.2 (.fail hfile hproc)
  | some ip =>
    refine filealloc_table.bind fun o u hu => ?_
    cases o with
    | none =>
      obtain rfl := hu
      refine (iunlockput_frames _).bind fun _ v ⟨hfile', hproc'⟩ => ?_
      exact ends_ok.2 (.fail (hfile'.trans hfile) (hproc'.trans hproc))
    | some f =>
      obtain ⟨href, rfl⟩ := hu
      refine fdalloc_table.bind fun o u hu => ?_
      cases o with
      | none =>
        obtain rfl := hu
        refine fileclose_table.bind fun _ v ⟨_, hproc', hfile'⟩ => ?_
        refine (iunlockput_frames _).bind fun _ w ⟨hfile'', hproc''⟩ => ?_
        refine ends_ok.2 (.fail ?_ (hproc''.trans (hproc'.trans hproc)))
        have hself : (t.setFile f { t.file f with ref := 1 }).file f =
            { t.file f with ref := 1 } := Function.update_self ..
        have hip : (t.file f).ip = none := by
          rw [hfile] at href ⊢
          exact hc f href
        rw [hfile'', hfile', hself, File.closed_new href hip, ← hfile]
        show Function.update (Function.update t.file f _) f (t.file f) = t.file
        rw [Function.update_idem, Function.update_eq_self]
      | some fd =>
        obtain ⟨hfd, rfl⟩ := hu
        refine (iunlock_frames _).bind fun _ v ⟨hfile', hproc'⟩ => ?_
        rw [run_modify_bind, run_pure, ends_ok]
        have hself : v.file f = { t.file f with ref := 1 } := by
          rw [hfile']
          exact Function.update_self ..
        rw [hfile] at href
        have hfd' : (s.proc p).ofile fd = none := by
          rw [← hproc]
          exact hfd
        have hputs : t.setFile f { t.file f with ref := 1 } = { t with
            file := Function.update s.file f { t.file f with ref := 1 } } := by
          rw [← hfile]
          rfl
        refine .ok (x := { v.file f with
          ip := some ip
          readable := omode &&& O_WRONLY == 0
          writable := omode &&& O_WRONLY != 0 || omode &&& O_RDWR != 0 })
          href (congrArg File.ref hself) rfl hfd' ?_ ?_
        · show Function.update v.file f _ = _
          rw [hfile', hputs]
          exact Function.update_idem ..
        · show v.proc = _
          rw [hproc', hputs]
          show Function.update t.proc p { t.proc p with
            ofile := Function.update (t.proc p).ofile fd (some f) } = _
          rw [hproc]
          rfl

/-! ### `fork` -/

/-- Only the counts of files in use have changed. -/
structure Recounted (s t : State) : Prop where
  ip : ∀ f, (t.file f).ip = (s.file f).ip
  writable : ∀ f, (t.file f).writable = (s.file f).writable
  used : ∀ f, (t.file f).ref = 0 ↔ (s.file f).ref = 0

theorem Recounted.of_file (h : t.file = s.file) : Recounted s t :=
  ⟨fun _ => by rw [h], fun _ => by rw [h], fun _ => by rw [h]⟩

theorem Recounted.trans {u : State} (h : Recounted s t) (h' : Recounted t u) : Recounted s u :=
  ⟨fun f => (h'.ip f).trans (h.ip f), fun f => (h'.writable f).trans (h.writable f),
    fun f => (h'.used f).trans (h.used f)⟩

theorem Recounted.setRef {n : ℤ} (hn : n ≠ 0) (href : (s.file f).ref ≠ 0) :
    Recounted s (s.setFile f { s.file f with ref := n }) := by
  have hself : (s.setFile f { s.file f with ref := n }).file f = { s.file f with ref := n } :=
    Function.update_self ..
  have hother : ∀ g, g ≠ f → (s.setFile f { s.file f with ref := n }).file g = s.file g :=
    fun g hg => Function.update_of_ne hg ..
  refine ⟨fun g => ?_, fun g => ?_, fun g => ?_⟩
  · by_cases hg : g = f
    · rw [hg, hself]
    · rw [hother g hg]
  · by_cases hg : g = f
    · rw [hg, hself]
    · rw [hother g hg]
  · by_cases hg : g = f
    · rw [hg, hself]
      exact ⟨fun h => absurd h hn, fun h => absurd h href⟩
    · rw [hother g hg]

/-- The copies of the descriptors. -/
structure Copied (K : FileId → ℤ) (q : Slot) (s : State) (i : ℕ) (t : State) : Prop where
  refs : Refs K t
  recounted : Recounted s t
  other : ∀ r, r ≠ q → t.proc r = s.proc r
  empty : ∀ fd : Fd, i ≤ fd.val → (t.proc q).ofile fd = none

theorem fork_table {containerID : ℤ} (h : Refs K s)
    (hq : ∀ fd, (s.proc q).ofile fd = none) :
    Ends (fun _ t => Refs K t ∧ Recounted s t ∧ (∀ r, r ≠ q → t.proc r = s.proc r) ∧
      (t.proc q).cwd.isSome) (fun _ => True) (fork p q containerID s) := by
  rw [fork]
  refine (Ends.finRange (I := fun i t => Copied K q s i t)
    ⟨h, .of_file rfl, fun _ _ => rfl, fun fd _ => hq fd⟩ ?_).bind ?_
  · intro fd t ht
    simp only [run_get_bind]
    cases hfd : (t.proc p).ofile fd with
    | none =>
      refine ends_ok.2 ⟨ht.refs, ht.recounted, ht.other, fun fd' hle => ?_⟩
      exact ht.empty fd' (by omega)
    | some f =>
      refine filedup_table.bind ?_
      rintro _ u ⟨hpos, hu⟩
      have hfree : (u.proc q).ofile fd = none := by
        rw [hu]
        exact ht.empty fd (le_refl _)
      have hrefs : Refs (K + Pi.single f 1) u := hu ▸ ht.refs.setFile rfl
      have hput := hrefs.putSome (f := f) hfree
      rw [add_sub_cancel_right] at hput
      have hcount : Recounted t u := hu ▸ .setRef (by omega) (by omega)
      have hproc : u.proc = t.proc := by rw [hu]; rfl
      refine ends_ok.2 ⟨hput, ht.recounted.trans (hcount.trans (.of_file rfl)), fun r hr => ?_,
        fun fd' hle => ?_⟩
      · rw [← ht.other r hr, ← hproc]
        exact State.putFd_of_ne hr _
      · show ((u.putFd q fd (some f)).proc q).ofile fd' = none
        rw [State.putFd_self, hproc]
        have hne : fd' ≠ fd := by
          rintro rfl
          omega
        rw [← ht.empty fd' (by omega)]
        exact Function.update_of_ne hne ..
  intro _ t ht
  simp only [run_get_bind]
  cases (t.proc p).cwd with
  | none => exact ends_error.2 trivial
  | some cwd =>
    refine (idup_frames _).bind ?_
    rintro e u ⟨hfile, hproc⟩
    rw [run_modify, ends_ok]
    have hself : ∀ x, (u.setProc q x).proc q = x := fun x => Function.update_self ..
    have hother : ∀ x r, r ≠ q → (u.setProc q x).proc r = u.proc r := fun x r hr =>
      Function.update_of_ne hr ..
    refine ⟨fun f => ?_, ht.recounted.trans (.of_file hfile), fun r hr => ?_, ?_⟩
    · rw [slots_congr (s := t) fun r => ?_, ← ht.refs f]
      · exact congrArg (fun x => File.ref (x f)) hfile
      · by_cases hr : r = q
        · rw [hr, hself, hproc]
        · rw [hother _ r hr, hproc]
    · rw [hother _ r hr, hproc]
      exact ht.other r hr
    · rw [hself]
      rfl

end Xv6Container.Names
