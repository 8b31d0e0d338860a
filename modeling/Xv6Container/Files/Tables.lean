import Xv6Container.Files.Calls

/-! The descriptors after a call. `open`, `dup` and `pipe` take the lowest descriptors that are free,
and no call changes the descriptors of another process. -/

namespace Xv6Container.Files

open Lib Names
open Fs hiding Stop

variable {s t u : State} {p q r : Slot} {fd : Fd} {f g : FileId} {T U : Fd → Option FileId}

/-- The descriptors of a process. -/
def State.table (s : State) (p : Slot) : Fd → Option FileId := (s.fs.proc p).ofile

/-- The descriptor that `fdalloc` takes. -/
def Lowest {β : Type} (T : Fd → Option β) (fd : Fd) : Prop := T fd = none ∧ ∀ fd' < fd, T fd' ≠ none

theorem Lowest.unique {β : Type} {T : Fd → Option β} {a b : Fd} (ha : Lowest T a)
    (hb : Lowest T b) : a = b := by
  obtain hlt | heq | hlt := lt_trichotomy a b
  · exact absurd ha.1 (hb.2 a hlt)
  · exact heq
  · exact absurd hb.1 (ha.2 b hlt)

theorem Lowest.congr {β γ : Type} {T : Fd → Option β} {T' : Fd → Option γ} {a : Fd}
    (h : ∀ fd, T fd = none ↔ T' fd = none) (ha : Lowest T a) : Lowest T' a :=
  ⟨(h a).1 ha.1, fun fd hlt hnone => ha.2 fd hlt ((h fd).2 hnone)⟩

theorem lowest_map {β γ : Type} {T : Fd → Option β} {g : β → γ} {a : Fd} :
    Lowest (fun fd => (T fd).map g) a ↔ Lowest T a := by
  simp only [Lowest, ne_eq, Option.map_eq_none_iff]

/-- A call of `p`, which goes on with the descriptors `T`. -/
structure Tabled (p : Slot) (T : Fd → Option FileId) (s t : State) : Prop where
  between : Between t
  persists : Persists s t
  table : t.table p = T
  cwd : (t.fs.proc p).cwd.isSome
  other : ∀ r, r ≠ p → t.fs.proc r = s.fs.proc r

/-! ### Files in use -/

theorem Between.ref (h : Between s) (f : FileId) : (s.fs.file f).ref = slots s.fs f :=
  (h.filed.refs f).trans (add_zero _)

/-- A file that has a descriptor is in use. -/
theorem Between.used (h : Between s) (hf : s.table p fd = some f) : (s.fs.file f).ref ≠ 0 := by
  have hpos := tally_pos (f := fun d : Slot × Fd => (s.fs.proc d.1).ofile d.2) (i := (p, fd)) hf
  change 0 < slots s.fs f at hpos
  rw [h.ref]
  omega

/-- An open end of a pipe has a descriptor. -/
theorem Between.holder {pg : Page} {w : Bool} (h : Between s) (hopen : s.isOpen pg w = true) :
    ∃ p fd f, s.table p fd = some f ∧ s.endOf f = some (pg, w) := by
  have hends : tally s.endOf (pg, w) ≠ 0 := by
    rw [h.filed.ends, if_pos hopen]
    exact one_ne_zero
  obtain ⟨f, hend⟩ := exists_of_tally_ne_zero hends
  have href : (s.fs.file f).ref ≠ 0 := by
    intro hzero
    have hnone := ((h.filed.object f).1 hzero).2
    rw [State.endOf, hnone] at hend
    cases hend
  rw [h.ref] at href
  obtain ⟨⟨p, fd⟩, hp⟩ := exists_of_tally_ne_zero href
  exact ⟨p, fd, f, hp, hend⟩

/-- One file stands for each end. -/
theorem Between.endOf_inj {x : Page × Bool} (h : Between s) (hf : s.endOf f = some x)
    (hg : s.endOf g = some x) : f = g := by
  refine eq_of_tally_le_one ?_ hf hg
  rw [h.filed.ends x.1 x.2]
  split_ifs
  · exact le_refl 1
  · exact Int.zero_le_ofNat 1

/-- A file that stays in use stays the same end. -/
theorem Same.endOf (h : Same s t f) : t.endOf f = s.endOf f := by
  rw [State.endOf, h.2.1, h.2.2]
  rfl

theorem Tabled.held (h : Tabled p T s t) (hs : Between s) {fd' : Fd} (hf : s.table q fd = some f)
    (ht : t.table r fd' = some f) : Same s t f :=
  h.persists f (hs.used hf) (h.between.used ht)

theorem Tabled.other_table (h : Tabled p T s t) (hr : r ≠ p) : t.table r = s.table r :=
  congrArg Proc.ofile (h.other r hr)

/-- Nothing is said of the way in which a program stops. -/
theorem onFs_free {α : Type} {x : Names.Run α} {Q : α → Names.State → Prop} {S : Fs.Stop → Prop}
    (h : Ends Q S (x s.fs)) :
    Ends (fun a t => ∃ fs, t = { s with fs := fs } ∧ Q a fs) (fun _ => True) (onFs x s) :=
  (onFs_ends h).mono (fun _ _ => id) fun _ _ => trivial

/-- What a call does is shown of states between two calls. -/
theorem ends_between {α : Type} {x : Run α} {Q : α → State → Prop}
    (h : Ends (fun _ t => Between t ∧ Persists s t) Legal (x s))
    (hx : Ends (fun a t => Between t → Persists s t → Q a t) (fun _ => True) (x s)) :
    Ends Q Legal (x s) :=
  (h.and hx).mono (fun _ _ ht => ht.2 ht.1.1 ht.1.2) fun _ => And.left

/-! ### `fdalloc` -/

theorem table_putFd {fs : Names.State} (o : Option FileId) :
    ((fs.putFd p fd o).proc p).ofile = Function.update (fs.proc p).ofile fd o := by
  rw [Names.State.putFd_self]

theorem putFd_cwd {fs : Names.State} {o : Option FileId} :
    ((fs.putFd p fd o).proc r).cwd = (fs.proc r).cwd := by
  by_cases hr : r = p
  · rw [hr, Names.State.putFd_self]
  · rw [Names.State.putFd_of_ne hr]

/-- A descriptor is taken and given back. -/
theorem putFd_back {fs : Names.State} (hfd : (fs.proc p).ofile fd = none) :
    ((fs.putFd p fd (some f)).putFd p fd none).proc = fs.proc := by
  funext r
  by_cases hr : r = p
  · rw [hr, Names.State.putFd_self, Names.State.putFd_self]
    refine congrArg (fun T => { fs.proc p with ofile := T }) ?_
    rw [Function.update_idem, ← hfd, Function.update_eq_self]
  · rw [Names.State.putFd_of_ne hr, Names.State.putFd_of_ne hr]

theorem fdalloc_lowest {fs : Names.State} {S : Fs.Stop → Prop} :
    Ends (fun o t => o.elim (t = fs ∧ ∀ fd, (fs.proc p).ofile fd ≠ none) fun fd =>
      Lowest (fs.proc p).ofile fd ∧ t = fs.putFd p fd (some f)) S (fdalloc p f fs) := by
  simp only [fdalloc, run_get_bind]
  cases hfd : (List.finRange NOFILE).find? fun fd => ((fs.proc p).ofile fd).isNone with
  | none =>
    refine ends_ok.2 ⟨rfl, fun fd hnone => ?_⟩
    have := List.find?_eq_none.1 hfd fd (List.mem_finRange fd)
    rw [hnone] at this
    exact this rfl
  | some fd =>
    rw [← Fin.find?_eq_find?_finRange, Fin.find?_eq_some_iff] at hfd
    simp only [run_modify_bind, run_pure, ends_ok]
    refine ⟨⟨Option.isNone_iff_eq_none.1 hfd.1, fun fd' hlt hnone => ?_⟩, rfl⟩
    have := hfd.2 fd' hlt
    rw [hnone] at this
    cases this

/-! ### Calls that change one descriptor -/

/-- A call that leaves the processes alone. -/
theorem Tabled.of_proc (ht : Between t) (hst : Persists s t) (hproc : t.fs.proc = s.fs.proc)
    (hp : (s.fs.proc p).cwd.isSome) : Tabled p (s.table p) s t where
  between := ht
  persists := hst
  table := by rw [State.table, hproc]; rfl
  cwd := by rw [hproc]; exact hp
  other r _ := by rw [hproc]

theorem sysClose_tabled (h : Between s) (hp : (s.fs.proc p).cwd.isSome) :
    Ends (fun _ t => Tabled p (Function.update (s.table p) fd none) s t) Legal
      (sysClose p fd s) := by
  simp only [sysClose, run_get_bind]
  cases hfd : (s.fs.proc p).ofile fd with
  | none =>
    refine ends_ok.2 ?_
    rw [show Function.update (s.table p) fd none = s.table p from
      hfd ▸ Function.update_eq_self fd (s.table p)]
    exact .of_proc h (Shrinks.refl s).persists rfl hp
  | some f =>
    refine (setFd_filed h.filed h.idle hp hfd).bind_with (onFs_ends (S := fun _ => True)
      (Q := fun _ fs => fs = s.fs.putFd p fd none) (ends_ok.2 rfl)) ?_
    rintro - t ⟨ht, hidle, hcwd, hst⟩ ⟨fs, rfl, rfl⟩
    refine (fileclose_filed ht).bind ?_
    rintro _ u ⟨hu, hproc, htu⟩
    rw [add_sub_cancel_right] at hu
    refine ends_ok.2 ⟨⟨hu, ?_⟩, (hst.trans htu).persists, ?_, ?_, fun r hr => ?_⟩
    · rw [Idle, hproc]
      exact hidle
    · rw [State.table, hproc]
      exact congrArg Proc.ofile (Names.State.putFd_self ..)
    · rw [hproc]
      exact hcwd
    · rw [hproc]
      exact Names.State.putFd_of_ne hr none

/-- What `dup` does. -/
def Dups (p : Slot) (fd : Fd) (s t : State) : Option Fd → Prop
  | none => (s.table p fd = none ∨ ∀ fd', s.table p fd' ≠ none) ∧ Tabled p (s.table p) s t
  | some fd' => Lowest (s.table p) fd' ∧ s.table p fd ≠ none ∧
    Tabled p (Function.update (s.table p) fd' (s.table p fd)) s t

theorem sysDup_tabled (h : Between s) (hp : (s.fs.proc p).cwd.isSome) :
    Ends (fun o t => Dups p fd s t o) Legal (sysDup p fd s) := by
  refine ends_between (sysDup_between h hp) ?_
  simp only [sysDup, run_get_bind]
  cases hfd : (s.fs.proc p).ofile fd with
  | none =>
    refine ends_ok.2 fun hs hst => ⟨.inl hfd, hs, hst, rfl, hp, fun _ _ => rfl⟩
  | some f =>
    refine (onFs_free (S := fun _ => True) fdalloc_lowest).bind ?_
    rintro o t ⟨fs, rfl, hfs⟩
    cases o with
    | none =>
      obtain ⟨rfl, hfull⟩ := hfs
      exact ends_ok.2 fun hs hst => ⟨.inr hfull, hs, hst, rfl, hp, fun _ _ => rfl⟩
    | some fd' =>
      obtain ⟨hlow, rfl⟩ := hfs
      refine (onFs_free filedup_table).bind ?_
      rintro _ u ⟨_, rfl, -, rfl⟩
      refine ends_ok.2 fun hs hst => ⟨hlow, ?_, hs, hst, ?_, ?_, fun r hr => ?_⟩
      · rw [State.table, hfd]
        rintro ⟨⟩
      · exact (table_putFd _).trans (congrArg (Function.update _ fd') hfd.symm)
      · exact putFd_cwd.symm ▸ hp
      · exact Names.State.putFd_of_ne hr (some f)

/-! ### `pipe` -/

/-- Two files that were free have become the ends of a page that was no pipe. -/
structure NewPipe (f g : FileId) (s t : State) : Prop where
  reader : (s.fs.file f).ref = 0
  writer : (s.fs.file g).ref = 0
  made : ∃ pg, s.pipes pg = none ∧ t.endOf f = some (pg, false) ∧ t.endOf g = some (pg, true)

theorem pipealloc_new (h : Between s) :
    Ends (fun o t => o.elim True fun x => NewPipe x.1 x.2 s t) (fun _ => True) (pipealloc s) := by
  refine (onFs_free (S := fun _ => True) filealloc_table).bind ?_
  rintro o t ⟨fs, rfl, hfs⟩
  cases o with
  | none => exact ends_ok.2 trivial
  | some f =>
    obtain ⟨hf, rfl⟩ := hfs
    refine (onFs_free (S := fun _ => True) filealloc_table).bind ?_
    rintro o t ⟨fs, rfl, hfs⟩
    cases o with
    | none => exact (Ends.any _).bind fun _ _ _ => ends_ok.2 trivial
    | some g =>
      obtain ⟨hg, rfl⟩ := hfs
      have hne : g ≠ f := by
        rintro rfl
        change (Function.update s.fs.file g _ g).ref = 0 at hg
        rw [Function.update_self] at hg
        cases hg
      change (Function.update s.fs.file f _ g).ref = 0 at hg
      rw [Function.update_of_ne hne] at hg
      refine ((onKmem_ends kalloc_freelist).mono (fun _ _ => id) fun _ _ => trivial).bind ?_
      rintro o t ⟨kmem, rfl, hkmem⟩
      cases o with
      | none =>
        exact (Ends.any _).bind fun _ _ _ => (Ends.any _).bind fun _ _ _ => ends_ok.2 trivial
      | some pg =>
        simp only [setPipe, record, setEnd, run_modify_bind, run_pure, ends_ok]
        have hmem : pg ∈ s.kmem.freelist := by
          change s.kmem.freelist = pg :: _ at hkmem
          rw [hkmem]
          exact List.mem_cons_self
        refine ⟨hf, hg, pg, h.filed.apart pg hmem, ?_, ?_⟩
        · simp [State.endOf, Names.State.setFile, Function.update_of_ne hne.symm]
        · simp [State.endOf, Names.State.setFile]

theorem fileclose_proc :
    Ends (fun _ t => t.fs.proc = s.fs.proc) (fun _ => True) (fileclose f s) := by
  simp only [fileclose, run_get_bind]
  refine (onFs_free fileclose_table).bind ?_
  rintro _ t ⟨fs, rfl, -, hproc, -⟩
  split_ifs
  · cases s.pipe f with
    | none => exact ends_ok.2 hproc
    | some pg =>
      simp only [run_modify_bind, pipeclose, run_get_bind]
      cases s.pipes pg with
      | none => exact ends_error.2 trivial
      | some q =>
        simp only [setPipe, run_modify_bind]
        split_ifs
        · refine ((onKmem_ends kfree_freelist).mono (fun _ _ => id) fun _ _ => trivial).bind ?_
          rintro _ u ⟨kmem, rfl, -⟩
          exact ends_ok.2 hproc
        · exact ends_ok.2 hproc
  · exact ends_ok.2 hproc

theorem closeBoth_proc {α : Type} {a : α} :
    Ends (fun b t => b = a ∧ t.fs.proc = s.fs.proc) (fun _ => True)
      ((do
        fileclose f
        fileclose g
        return a) s) := by
  refine fileclose_proc.bind fun _ t ht => ?_
  refine fileclose_proc.bind fun _ u hu => ?_
  exact ends_ok.2 ⟨rfl, hu.trans ht⟩

/-- What `pipe` does. -/
def Pipes (p : Slot) (s t : State) : Option (Fd × Fd) → Prop
  | none => Tabled p (s.table p) s t
  | some (a, b) => ∃ f g, NewPipe f g s t ∧ Lowest (s.table p) a ∧
    Lowest (Function.update (s.table p) a (some f)) b ∧
    Tabled p (Function.update (Function.update (s.table p) a (some f)) b (some g)) s t

theorem sysPipe_tabled (h : Between s) (hp : (s.fs.proc p).cwd.isSome) :
    Ends (fun o t => Pipes p s t o) Legal (sysPipe p s) := by
  refine ends_between (sysPipe_between h hp) ?_
  refine (pipealloc_filed h.filed).bind_with (pipealloc_new h) ?_
  rintro o t ⟨ht, hproc, -⟩ hnew
  cases o with
  | none =>
    exact ends_ok.2 fun hs hst => .of_proc hs hst hproc hp
  | some x =>
    obtain ⟨f, g⟩ := x
    refine (onFs_free (S := fun _ => True) fdalloc_lowest).bind ?_
    rintro o u ⟨fs, rfl, hfs⟩
    cases o with
    | none =>
      obtain ⟨rfl, -⟩ := hfs
      refine closeBoth_proc.post ?_
      rintro a u ⟨rfl, hu⟩
      exact fun hs hst => .of_proc hs hst (hu.trans hproc) hp
    | some fd0 =>
      obtain ⟨hlow, rfl⟩ := hfs
      refine (onFs_free (S := fun _ => True) fdalloc_lowest).bind ?_
      rintro o v ⟨fs, rfl, hfs⟩
      have hself : (t.fs.putFd p fd0 (some f)).proc p = _ := Names.State.putFd_self (some f)
      cases o with
      | none =>
        obtain ⟨rfl, -⟩ := hfs
        refine Ends.bind (ends_ok.2 rfl : Ends (fun _ w => w = _) (fun _ => True)
          (onFs (setFd p fd0 none) _)) ?_
        rintro _ w rfl
        refine closeBoth_proc.post ?_
        rintro a u ⟨rfl, hu⟩
        refine fun hs hst => .of_proc hs hst (hu.trans ?_) hp
        rw [← hproc]
        exact putFd_back hlow.1
      | some fd1 =>
        obtain ⟨hlow', rfl⟩ := hfs
        rw [hself] at hlow'
        rw [hproc] at hlow hlow'
        refine ends_ok.2 fun hs hst => ⟨f, g, ⟨hnew.reader, hnew.writer, hnew.made⟩, hlow, hlow',
          hs, hst, ?_, ?_, fun r hr => ?_⟩
        · refine (table_putFd _).trans ?_
          rw [hself, hproc]
          rfl
        · change (((t.fs.putFd p fd0 (some f)).putFd p fd1 (some g)).proc p).cwd.isSome
          rw [putFd_cwd, putFd_cwd, hproc]
          exact hp
        · refine (Names.State.putFd_of_ne hr (some g)).trans ?_
          exact (Names.State.putFd_of_ne hr (some f)).trans (congrFun hproc r)

/-! ### `open` -/

theorem sysOpen_lowest {fs : Names.State} {path : CString} {omode : UInt32} :
    Ends (fun o t => o.elim (t.proc = fs.proc) fun fd => ∃ f, (fs.file f).ref = 0 ∧
      Lowest (fs.proc p).ofile fd ∧ t.proc = (fs.putFd p fd (some f)).proc) (fun _ => True)
      (sysOpen p path omode fs) := by
  refine (openInode_frames omode fs).bind ?_
  rintro o t ⟨hfile, hproc⟩
  cases o with
  | none => exact ends_ok.2 hproc
  | some ip =>
    refine filealloc_table.bind fun o u hu => ?_
    cases o with
    | none =>
      obtain rfl := hu
      refine (iunlockput_frames _).bind ?_
      rintro _ v ⟨-, hproc'⟩
      exact ends_ok.2 (hproc'.trans hproc)
    | some f =>
      obtain ⟨href, rfl⟩ := hu
      rw [hfile] at href
      refine fdalloc_lowest.bind fun o u hu => ?_
      cases o with
      | none =>
        obtain ⟨rfl, -⟩ := hu
        refine fileclose_table.bind ?_
        rintro _ v ⟨-, hproc', -⟩
        refine (iunlockput_frames _).bind ?_
        rintro _ w ⟨-, hproc''⟩
        exact ends_ok.2 (hproc''.trans (hproc'.trans hproc))
      | some fd =>
        obtain ⟨hlow, rfl⟩ := hu
        refine (iunlock_frames _).bind ?_
        rintro _ v ⟨-, hproc'⟩
        rw [run_modify_bind, run_pure, ends_ok]
        refine ⟨f, href, ?_, ?_⟩
        · rw [← hproc]
          exact hlow
        · refine hproc'.trans ?_
          show Function.update t.proc p { t.proc p with
            ofile := Function.update (t.proc p).ofile fd (some f) } = _
          rw [hproc]
          rfl

/-- What `open` does. -/
def OpensAt (p : Slot) (s t : State) : Option Fd → Prop
  | none => Tabled p (s.table p) s t
  | some fd => ∃ f, (s.fs.file f).ref = 0 ∧ t.pipe f = none ∧ Lowest (s.table p) fd ∧
    Tabled p (Function.update (s.table p) fd (some f)) s t

theorem sysOpen_tabled {path : CString} {omode : UInt32} (h : Between s)
    (hp : (s.fs.proc p).cwd.isSome) :
    Ends (fun o t => OpensAt p s t o) Legal (onFs (sysOpen p path omode) s) := by
  have hbetween : Ends (fun _ t => Between t ∧ Persists s t) Legal
      (onFs (sysOpen p path omode) s) :=
    Ends.of_map (f := fun _ => PUnit.unit) (sysOpen_between h hp)
  refine (hbetween.and (onFs_free sysOpen_lowest)).mono ?_ fun _ => And.left
  rintro o t ⟨⟨ht, hst⟩, fs, rfl, hfs⟩
  cases o with
  | none => exact .of_proc ht hst hfs hp
  | some fd =>
    obtain ⟨f, href, hlow, hproc⟩ := hfs
    change fs.proc = (s.fs.putFd p fd (some f)).proc at hproc
    refine ⟨f, href, ((h.filed.object f).1 href).2, hlow, ht, hst, ?_, ?_, fun r hr => ?_⟩
    · change (fs.proc p).ofile = _
      rw [hproc]
      exact table_putFd _
    · change (fs.proc p).cwd.isSome
      rw [hproc, putFd_cwd]
      exact hp
    · change fs.proc r = _
      rw [hproc]
      exact Names.State.putFd_of_ne hr _

/-! ### `fork`, `exit` and `chdir` -/

/-- The loop of `fork` copies the descriptors. -/
theorem fork_copies {fs : Names.State} {containerID : ℤ} (hpq : p ≠ q)
    (hq : ∀ fd, (fs.proc q).ofile fd = none) :
    Ends (fun _ t => (t.proc q).ofile = (fs.proc p).ofile ∧ (t.proc q).cwd.isSome ∧
      ∀ r, r ≠ q → t.proc r = fs.proc r) (fun _ => True) (Names.fork p q containerID fs) := by
  rw [Names.fork]
  refine (Ends.finRange (I := fun i t => (∀ fd : Fd, (t.proc q).ofile fd =
      if fd.val < i then (fs.proc p).ofile fd else none) ∧ ∀ r, r ≠ q → t.proc r = fs.proc r)
    ⟨fun fd => (hq fd).trans (if_neg (Nat.not_lt_zero _)).symm, fun _ _ => rfl⟩ ?_).bind ?_
  · rintro fd t ⟨hcopied, hother⟩
    have hsame : (t.proc p).ofile = (fs.proc p).ofile := by rw [hother p hpq]
    have hnext : ∀ fd' : Fd, fd' ≠ fd → (fd'.val < fd.val + 1 ↔ fd'.val < fd.val) := by
      intro fd' hne
      have := Fin.val_ne_of_ne hne
      omega
    simp only [run_get_bind]
    cases hfd : (t.proc p).ofile fd with
    | none =>
      refine ends_ok.2 ⟨fun fd' => ?_, hother⟩
      by_cases heq : fd' = fd
      · rw [heq, hcopied, if_neg (lt_irrefl _), if_pos (Nat.lt_succ_self _), ← hsame, hfd]
      · rw [hcopied]
        simp only [hnext fd' heq]
    | some f =>
      refine filedup_table.bind ?_
      rintro _ u ⟨_, rfl⟩
      refine ends_ok.2 ⟨fun fd' => ?_, fun r hr => ?_⟩
      · refine (congrFun (table_putFd (some f)) fd').trans ?_
        by_cases heq : fd' = fd
        · rw [heq, Function.update_self, if_pos (Nat.lt_succ_self _), ← hsame, hfd]
        · rw [Function.update_of_ne heq]
          refine (hcopied fd').trans ?_
          simp only [hnext fd' heq]
      · exact (Names.State.putFd_of_ne hr (some f)).trans (hother r hr)
  · rintro _ t ⟨hcopied, hother⟩
    have htable : (t.proc q).ofile = (fs.proc p).ofile := by
      funext fd
      rw [hcopied, if_pos fd.isLt]
    simp only [run_get_bind]
    cases (t.proc p).cwd with
    | none => exact ends_error.2 trivial
    | some cwd =>
      refine (idup_frames _).bind ?_
      rintro e u ⟨-, hproc⟩
      rw [run_modify, ends_ok]
      have hself : ∀ x, (u.setProc q x).proc q = x := fun x => Function.update_self ..
      refine ⟨?_, ?_, fun r hr => ?_⟩
      · rw [hself, hproc]
        exact htable
      · rw [hself]
        rfl
      · rw [← hother r hr, ← hproc]
        exact Function.update_of_ne hr ..

/-- `q` gets the descriptors of `p`. -/
theorem forkFiles_tabled {containerID : ℤ} (h : Between s) (hp : (s.fs.proc p).cwd.isSome) :
    Ends (fun _ t => (s.fs.proc q).cwd = none ∧ Tabled q (s.table p) s t) Legal
      (forkFiles p q containerID s) := by
  refine ends_between
    ((forkFiles_between h).mono (fun _ _ ht => ⟨ht.1, ht.2.persists⟩) fun _ => id) ?_
  simp only [forkFiles, run_get_bind]
  split_ifs with hq
  · have hnone := Option.isNone_iff_eq_none.1 hq
    have hpq : p ≠ q := by
      rintro rfl
      rw [hnone] at hp
      cases hp
    refine (onFs_free (fork_copies hpq (h.idle q hnone))).post ?_
    rintro _ t ⟨fs, rfl, htable, hcwd, hother⟩ hs hst
    exact ⟨hnone, hs, hst, htable, hcwd, hother⟩
  · exact ends_error.2 trivial

/-- A process that has left has no descriptors. -/
structure Left (p : Slot) (s t : State) : Prop where
  between : Between t
  persists : Persists s t
  cwd : (t.fs.proc p).cwd = none
  other : ∀ r, r ≠ p → t.fs.proc r = s.fs.proc r

theorem Left.table (h : Left p s t) (fd : Fd) : t.table p fd = none := h.between.idle p h.cwd fd

theorem exit_left (h : Between s) : Ends (fun _ t => Left p s t) Legal (exit p s) := by
  refine ends_between ((exit_between h).mono (fun _ _ ht => ⟨ht.1, ht.2.persists⟩) fun _ => id) ?_
  refine ((closeAll_leaving (p := p) h.filed).mono (fun _ _ => id) fun _ _ => trivial).bind ?_
  rintro _ t ht
  refine (onFs_free (putCwd_frames (p := p) t.fs)).bind ?_
  rintro _ u ⟨fs, rfl, -, hproc⟩
  rw [setCwd, onFs, run_modify, ends_ok]
  intro hs hst
  refine ⟨hs, hst, ?_, fun r hr => ?_⟩
  · change (Function.update fs.proc p { fs.proc p with cwd := none } p).cwd = none
    rw [Function.update_self]
  · refine (Function.update_of_ne hr ..).trans ?_
    rw [hproc]
    exact ht.other r hr

theorem sysChdir_proc {fs : Names.State} {path : CString} (hp : (fs.proc p).cwd.isSome) :
    Ends (fun _ t => (t.proc p).ofile = (fs.proc p).ofile ∧ (t.proc p).cwd.isSome ∧
      ∀ r, r ≠ p → t.proc r = fs.proc r) (fun _ => True) (sysChdir p path fs) := by
  have hkept : ∀ t : Names.State, t.proc = fs.proc → (t.proc p).ofile = (fs.proc p).ofile ∧
      (t.proc p).cwd.isSome ∧ ∀ r, r ≠ p → t.proc r = fs.proc r := by
    intro t ht
    rw [ht]
    exact ⟨rfl, hp, fun _ _ => rfl⟩
  refine (namei_frames fs).bind ?_
  rintro o t ⟨-, hproc⟩
  cases o with
  | none => exact ends_ok.2 (hkept t hproc)
  | some ip =>
    refine (ilock_frames t).bind ?_
    rintro _ u ⟨-, hproc'⟩
    simp only [run_get_bind]
    split_ifs
    · refine (iunlockput_frames u).bind ?_
      rintro _ v ⟨-, hproc''⟩
      exact ends_ok.2 (hkept v (hproc''.trans (hproc'.trans hproc)))
    · refine (iunlock_frames u).bind ?_
      rintro _ v ⟨-, hpv⟩
      refine (putCwd_frames v).bind ?_
      rintro _ w ⟨-, hpw⟩
      rw [setCwd, run_modify_bind, run_pure, ends_ok]
      have hall : w.proc = fs.proc := hpw.trans (hpv.trans (hproc'.trans hproc))
      have hself : ∀ x, (w.setProc p x).proc p = x := fun x => Function.update_self ..
      refine ⟨?_, ?_, fun r hr => ?_⟩
      · rw [hself, hall]
      · rw [hself]
        rfl
      · rw [← hall]
        exact Function.update_of_ne hr ..

theorem sysChdir_tabled {path : CString} (h : Between s) (hp : (s.fs.proc p).cwd.isSome) :
    Ends (fun _ t => Tabled p (s.table p) s t) Legal (onFs (sysChdir p path) s) := by
  have hbetween : Ends (fun _ t => Between t ∧ Persists s t) Legal
      (onFs (sysChdir p path) s) :=
    Ends.of_map (f := fun _ => PUnit.unit) (settles_between h sysChdir_settles)
  refine (hbetween.and (onFs_free (sysChdir_proc hp))).mono ?_ fun _ => And.left
  rintro o t ⟨⟨ht, hst⟩, fs, rfl, htable, hcwd, hother⟩
  exact ⟨ht, hst, htable, hcwd, hother⟩

/-! ### Reading and writing -/

/-- The bytes in a pipe change. -/
theorem Filed.fill {K : FileId → ℤ} {pg : Page} {b c : Pipes.Pipe} (h : Filed K s)
    (hb : s.pipes pg = some b) (hread : c.readopen = b.readopen)
    (hwrite : c.writeopen = b.writeopen) :
    Filed K { s with pipes := Function.update s.pipes pg (some c) } := by
  have hopen : ∀ pg' w, (Function.update s.pipes pg (some c) pg').elim false
      (fun x => x.isOpen w) = s.isOpen pg' w := by
    intro pg' w
    by_cases hpg : pg' = pg
    · rw [hpg, Function.update_self, State.isOpen, hb, Option.elim_some, Option.elim_some,
        Pipes.Pipe.isOpen, Pipes.Pipe.isOpen, hread, hwrite]
    · rw [Function.update_of_ne hpg]
      rfl
  refine ⟨h.refs, h.object, h.single, fun pg' w => ?_, fun pg' x hx => ?_, h.nodup,
    fun pg' hmem => ?_, fun pg' => ?_⟩
  · refine (h.ends pg' w).trans ?_
    rw [← hopen]
    rfl
  · change Function.update s.pipes pg (some c) pg' = some x at hx
    by_cases hpg : pg' = pg
    · rw [hpg, Function.update_self] at hx
      obtain rfl := Option.some.inj hx
      rw [Pipes.Pipe.freed, hread, hwrite]
      exact h.live pg b hb
    · rw [Function.update_of_ne hpg] at hx
      exact h.live pg' x hx
  · have hpg : pg' ≠ pg := by
      rintro rfl
      rw [h.apart pg' hmem] at hb
      cases hb
    exact (Function.update_of_ne hpg ..).trans (h.apart pg' hmem)
  · refine (h.log pg').trans ?_
    show _ + _ = _ + if (Function.update s.pipes pg (some c) pg').isSome then 1 else 0
    by_cases hpg : pg' = pg
    · rw [hpg, Function.update_self, hb]
      rfl
    · rw [Function.update_of_ne hpg]

theorem fill_tabled {pg : Page} {b c : Pipes.Pipe} (h : Between s) (hp : (s.fs.proc p).cwd.isSome)
    (hb : s.pipes pg = some b) (hread : c.readopen = b.readopen)
    (hwrite : c.writeopen = b.writeopen) :
    Tabled p (s.table p) s { s with pipes := Function.update s.pipes pg (some c) } :=
  .of_proc ⟨h.filed.fill hb hread hwrite, h.idle⟩ (fun _ _ _ => ⟨rfl, rfl, rfl⟩) rfl hp

end Xv6Container.Files
