import Xv6Container.Files.Sides
import Xv6Container.Plumbing.Machine

/-! What the calls do to the machine: a process goes on with other descriptors, has a child, or is
gone. Everything that is not said to change stays as it is. -/

namespace Xv6Container.Plumbing

open Function Names Lib
open Files (Between Tabled Lowest NewPipe Sided)

variable {X : Type} {P : Programs X} {m m' : Machine X} {p q : Slot} {x x' : X} {fd : ℕ} {e : Env}
  {T : Fd → Option FileId}

/-- A process goes on with the descriptors `T` and the program `x'`. -/
structure Goes (p : Slot) (T : Fd → Option FileId) (x' : X) (m m' : Machine X) : Prop where
  files : Tabled p T m.files m'.files
  sided : Sided m.files → Sided m'.files
  task : m'.task = update m.task p (some x')
  zombie : m'.zombie = m.zombie
  parent : m'.parent = m.parent
  pid : m'.pid = m.pid
  nextpid : m'.nextpid = m.nextpid

theorem argfd_val (fd : Fd) : argfd fd = some fd := dif_pos fd.isLt

/-- A call that is a program over the files. -/
theorem run_goes {α : Type} {y : Files.Run α} {answer : α → Answer} {Q : α → Files.State → Prop}
    {S : Files.Stop → Prop} (hy : Ends Q S (y m.files))
    (hside : Sided m.files → Ends (fun _ t => Sided t) (fun _ => True) (y m.files))
    (ht : m.run P p x y answer = .ok m') :
    ∃ a files, Q a files ∧ ∀ T, Tabled p T m.files files →
      files = m'.files ∧ Goes p T (P.resume x (answer a)) m m' := by
  rw [Machine.run] at ht
  split at ht
  next a files hrun =>
    obtain rfl := Except.ok.inj ht
    exact ⟨a, files, hy.1 a files hrun, fun T hT =>
      ⟨rfl, hT, fun hs => (hside hs).1 a files hrun, rfl, rfl, rfl, rfl, rfl⟩⟩
  next => cases ht

theorem back_goes (h : Between m.files) (hp : (m.files.fs.proc p).cwd.isSome) (a : Answer) :
    Goes p (m.files.table p) (P.resume x a) m (m.back P p x a) where
  files := .of_proc h (fun _ _ _ => ⟨rfl, rfl, rfl⟩) rfl hp
  sided := id
  task := rfl
  zombie := rfl
  parent := rfl
  pid := rfl
  nextpid := rfl

theorem close_goes (h : Between m.files) (hp : (m.files.fs.proc p).cwd.isSome)
    (ht : m.close P p x fd = .ok m') :
    ∃ a, Goes p ((argfd fd).elim (m.files.table p) fun fd => update (m.files.table p) fd none)
      (P.resume x a) m m' := by
  rw [Machine.close] at ht
  cases hfd : argfd fd with
  | none =>
    rw [hfd] at ht
    obtain rfl := Except.ok.inj ht
    exact ⟨_, back_goes h hp _⟩
  | some fd =>
    rw [hfd] at ht
    obtain ⟨a, files, hT, hgoes⟩ := run_goes (Files.sysClose_tabled h hp) (Files.sysClose_sides _) ht
    exact ⟨_, (hgoes _ hT).2⟩

/-- The descriptors after a call of `dup`. -/
inductive Dupped (T : Fd → Option FileId) (fd : ℕ) : (Fd → Option FileId) → Prop
  | same (h : ∀ a, argfd fd = some a → T a = none ∨ ∀ b, T b ≠ none) : Dupped T fd T
  | copy {a b : Fd} (ha : argfd fd = some a) (h : T a ≠ none) (hb : Lowest T b) :
    Dupped T fd (update T b (T a))

theorem dup_goes (h : Between m.files) (hp : (m.files.fs.proc p).cwd.isSome)
    (ht : m.dup P p x fd = .ok m') :
    ∃ a T, Dupped (m.files.table p) fd T ∧ Goes p T (P.resume x a) m m' := by
  rw [Machine.dup] at ht
  cases hfd : argfd fd with
  | none =>
    rw [hfd] at ht
    obtain rfl := Except.ok.inj ht
    exact ⟨_, _, .same (by rw [hfd]; rintro _ ⟨⟩), back_goes h hp _⟩
  | some fd =>
    rw [hfd] at ht
    obtain ⟨o, files, hdups, hgoes⟩ := run_goes (Files.sysDup_tabled h hp) (Files.sysDup_sides _) ht
    cases o with
    | none =>
      refine ⟨_, _, .same ?_, (hgoes _ hdups.2).2⟩
      rintro a ha
      obtain rfl := Option.some.inj (hfd.symm.trans ha)
      exact hdups.1
    | some fd' => exact ⟨_, _, .copy hfd hdups.2.1 hdups.1, (hgoes _ hdups.2.2).2⟩

theorem pipe_goes (h : Between m.files) (hp : (m.files.fs.proc p).cwd.isSome)
    (ht : m.pipe P p x = .ok m') :
    (∃ a, a.ret < 0 ∧ Goes p (m.files.table p) (P.resume x a) m m') ∨
    ∃ fd0 fd1 f g, NewPipe f g m.files m'.files ∧ Lowest (m.files.table p) fd0 ∧
      Lowest (update (m.files.table p) fd0 (some f)) fd1 ∧
      Goes p (update (update (m.files.table p) fd0 (some f)) fd1 (some g))
        (P.resume x { ret := 0, fds := (fd0, fd1) }) m m' := by
  obtain ⟨o, files, hpipes, hgoes⟩ := run_goes (Files.sysPipe_tabled h hp) (Files.sysPipe_sides _) ht
  cases o with
  | none => exact .inl ⟨_, by decide, (hgoes _ hpipes).2⟩
  | some fds =>
    obtain ⟨f, g, hnew, h0, h1, hT⟩ := hpipes
    obtain ⟨rfl, hgo⟩ := hgoes _ hT
    exact .inr ⟨_, _, f, g, hnew, h0, h1, hgo⟩

theorem open_goes {path : Fs.CString} {omode : UInt32} (h : Between m.files)
    (hp : (m.files.fs.proc p).cwd.isSome) (ht : m.open_ P p x path omode = .ok m') :
    (∃ a, a.ret < 0 ∧ Goes p (m.files.table p) (P.resume x a) m m') ∨
    ∃ a fd f, ¬ a.ret < 0 ∧ (m.files.fs.file f).ref = 0 ∧ m'.files.pipe f = none ∧
      Lowest (m.files.table p) fd ∧
      Goes p (update (m.files.table p) fd (some f)) (P.resume x a) m m' := by
  obtain ⟨o, files, hopens, hgoes⟩ := run_goes (Files.sysOpen_tabled h hp) (Files.sysOpen_sided h) ht
  cases o with
  | none => exact .inl ⟨_, by decide, (hgoes _ hopens).2⟩
  | some fd =>
    obtain ⟨f, href, hpipe, hlow, hT⟩ := hopens
    obtain ⟨rfl, hgo⟩ := hgoes _ hT
    refine .inr ⟨_, fd, f, ?_, href, hpipe, hlow, hgo⟩
    exact not_lt.2 (Int.natCast_nonneg fd.val)

theorem chdir_goes {path : Fs.CString} (h : Between m.files)
    (hp : (m.files.fs.proc p).cwd.isSome) (ht : m.chdir P p x path = .ok m') :
    ∃ a, Goes p (m.files.table p) (P.resume x a) m m' := by
  obtain ⟨ok, files, hT, hgoes⟩ := run_goes (Files.sysChdir_tabled h hp)
    (Files.Sides.onFs Files.sysChdir_flags _) ht
  exact ⟨_, (hgoes _ hT).2⟩

theorem exec_goes {path : Fs.CString} {argv : List (List Char)} (h : Between m.files)
    (hp : (m.files.fs.proc p).cwd.isSome) (ht : m.exec P p x path argv e = .ok m') :
    ∃ x', (x' = P.image argv ∨ ∃ a, x' = P.resume x a) ∧ Goes p (m.files.table p) x' m m' := by
  have hexec : Ends (fun _ t => Tabled p (m.files.table p) m.files t) (fun _ => True)
      (Files.onFs (Files.exec p path e.loads true) m.files) := by
    have hbetween : Ends (fun _ t => Between t ∧ Files.Persists m.files t) Files.Legal
        (Files.onFs (Files.exec p path e.loads true) m.files) :=
      Ends.of_map (f := fun _ => PUnit.unit)
        (Files.frames_between h (Files.exec_frames path e.loads true))
    refine (hbetween.and (Files.onFs_free
      (Files.exec_frames path e.loads true m.files.fs))).mono ?_ fun _ _ => trivial
    rintro _ t ⟨⟨ht, hst⟩, fs, rfl, -, hproc⟩
    exact .of_proc ht hst hproc hp
  have hside := Files.Sides.onFs (.of_frames (Files.exec_frames (p := p) path e.loads true)) m.files
  rw [Machine.exec] at ht
  split at ht
  next files hrun =>
    obtain rfl := Except.ok.inj ht
    exact ⟨_, .inl rfl, hexec.1 _ _ hrun, fun hs => (hside hs).1 _ _ hrun, rfl, rfl, rfl, rfl,
      rfl⟩
  next files hrun =>
    obtain rfl := Except.ok.inj ht
    exact ⟨_, .inr ⟨_, rfl⟩, hexec.1 _ _ hrun, fun hs => (hside hs).1 _ _ hrun, rfl, rfl, rfl, rfl,
      rfl⟩
  next => cases ht

/-! ### Reading and writing -/

theorem readLoop_flags (k : ℕ) (b : Pipes.Pipe) :
    (b.readLoop k).2.readopen = b.readopen ∧ (b.readLoop k).2.writeopen = b.writeopen := by
  induction k generalizing b with
  | zero => exact ⟨rfl, rfl⟩
  | succ k ih =>
    rw [Pipes.Pipe.readLoop]
    split_ifs
    · exact ⟨rfl, rfl⟩
    · exact ih b.fetch.2

theorem writeLoop_flags (addr : ℕ → Pipes.Byte) (k i : ℕ) (b : Pipes.Pipe) :
    (b.writeLoop addr k i).2.readopen = b.readopen ∧
      (b.writeLoop addr k i).2.writeopen = b.writeopen := by
  induction k generalizing i b with
  | zero => exact ⟨rfl, rfl⟩
  | succ k ih =>
    rw [Pipes.Pipe.writeLoop]
    split_ifs
    · exact ⟨rfl, rfl⟩
    · exact ih (i + 1) (b.store (addr i))

theorem read_goes {n : ℤ} (h : Between m.files) (hp : (m.files.fs.proc p).cwd.isSome)
    (ht : m.read P p x fd n e = .ok m') :
    ∃ a, Goes p (m.files.table p) (P.resume x a) m m' := by
  rw [Machine.read] at ht
  split at ht
  · obtain rfl := Except.ok.inj ht
    exact ⟨_, back_goes h hp _⟩
  next f hf =>
    split_ifs at ht
    · obtain rfl := Except.ok.inj ht
      exact ⟨_, back_goes h hp _⟩
    · split at ht
      · obtain rfl := Except.ok.inj ht
        exact ⟨_, back_goes h hp _⟩
      next pg hpg =>
        split at ht
        · cases ht
        next b hb =>
          split_ifs at ht
          obtain rfl := Except.ok.inj ht
          obtain ⟨hread, hwrite⟩ := readLoop_flags n.toNat b
          exact ⟨_, Files.fill_tabled h hp hb hread hwrite, id, rfl, rfl, rfl, rfl, rfl⟩

/-- `pipewrite` may stay in the call. -/
theorem write_goes {addr : ℕ → Pipes.Byte} {n : ℤ} (h : Between m.files)
    (hp : (m.files.fs.proc p).cwd.isSome) (hx : m.task p = some x)
    (ht : m.write P p x fd addr n e = .ok m') :
    ∃ x', (x' = x ∨ ∃ a, x' = P.resume x a) ∧ Goes p (m.files.table p) x' m m' := by
  rw [Machine.write] at ht
  split at ht
  · obtain rfl := Except.ok.inj ht
    exact ⟨_, .inr ⟨_, rfl⟩, back_goes h hp _⟩
  next f hf =>
    split_ifs at ht
    · obtain rfl := Except.ok.inj ht
      exact ⟨_, .inr ⟨_, rfl⟩, back_goes h hp _⟩
    · split at ht
      · obtain rfl := Except.ok.inj ht
        exact ⟨_, .inr ⟨_, rfl⟩, back_goes h hp _⟩
      next pg hpg =>
        split at ht
        · cases ht
        next b hb =>
          have hflags := writeLoop_flags addr (n.toNat - m.sent p) (m.sent p) b
          rcases hloop : b.writeLoop addr (n.toNat - m.sent p) (m.sent p) with ⟨j, c⟩
          rw [hloop] at ht hflags
          have hfill := Files.fill_tabled h hp hb hflags.1 hflags.2
          dsimp only at ht
          split_ifs at ht
          · obtain rfl := Except.ok.inj ht
            exact ⟨_, .inr ⟨_, rfl⟩, hfill, id, rfl, rfl, rfl, rfl, rfl⟩
          · obtain rfl := Except.ok.inj ht
            refine ⟨x, .inl rfl, hfill, id, ?_, rfl, rfl, rfl, rfl⟩
            rw [← hx, update_eq_self]
            rfl
          · obtain rfl := Except.ok.inj ht
            exact ⟨_, .inr ⟨_, rfl⟩, hfill, id, rfl, rfl, rfl, rfl, rfl⟩

/-! ### Processes -/

/-- A call of `fork` that has made a child. -/
structure Forks (p q : Slot) (x y : X) (m m' : Machine X) : Prop where
  files : Tabled q (m.files.table p) m.files m'.files
  sided : Sided m.files → Sided m'.files
  idle : (m.files.fs.proc q).cwd = none
  free : m.task q = none
  zombie_free : m.zombie q = false
  task : m'.task = update (update m.task p (some x)) q (some y)
  zombie : m'.zombie = m.zombie
  parent : m'.parent = update m.parent q (some p)
  pid : m'.pid = update m.pid q m.nextpid
  nextpid : m'.nextpid = m.nextpid + 1

theorem fork_goes (h : Between m.files) (hp : (m.files.fs.proc p).cwd.isSome)
    (ht : m.fork P p x e = .ok m') :
    (∃ a, a.ret < 0 ∧ Goes p (m.files.table p) (P.resume x a) m m') ∨
    ∃ q, Forks p q (P.resume x { ret := m.nextpid }) (P.resume x { ret := 0 }) m m' := by
  rw [Machine.fork] at ht
  split at ht
  · split_ifs at ht with hneg
    obtain rfl := Except.ok.inj ht
    exact .inl ⟨_, hneg, back_goes h hp _⟩
  next q _ =>
    split_ifs at ht with hfree
    split at ht
    next a files hrun =>
      obtain rfl := Except.ok.inj ht
      obtain ⟨hidle, hT⟩ := (Files.forkFiles_tabled h hp).1 a files hrun
      exact .inr ⟨q, hT, fun hs => (Files.forkFiles_sides _ hs).1 a files hrun, hidle, hfree.1,
        hfree.2, rfl, rfl, rfl, rfl, rfl⟩
    next => cases ht

/-- A child has been waited for. -/
structure Reaps (p q : Slot) (x : X) (m m' : Machine X) : Prop where
  parent_eq : m.parent q = some p
  dead : m.zombie q = true
  files : m'.files = m.files
  task : m'.task = update m.task p (some x)
  zombie : m'.zombie = update m.zombie q false
  parent : m'.parent = update m.parent q none
  pid : m'.pid = m.pid
  nextpid : m'.nextpid = m.nextpid

theorem wait_goes (h : Between m.files) (hp : (m.files.fs.proc p).cwd.isSome)
    (ht : m.wait P p x = .ok m') :
    (∃ a q, Reaps p q (P.resume x a) m m') ∨
    ((∀ q, m.parent q ≠ some p) ∧ ∃ a, Goes p (m.files.table p) (P.resume x a) m m') := by
  rw [Machine.wait] at ht
  split at ht
  next q hq =>
    obtain rfl := Except.ok.inj ht
    have hfound := List.find?_some hq
    obtain ⟨hparent, hdead⟩ := of_decide_eq_true hfound
    exact .inl ⟨_, q, hparent, hdead, rfl, rfl, rfl, rfl, rfl, rfl⟩
  next =>
    split_ifs at ht with hkids
    obtain rfl := Except.ok.inj ht
    exact .inr ⟨not_exists.1 hkids, _, back_goes h hp _⟩

/-- A process has called `exit`. -/
structure Exits (p : Slot) (m m' : Machine X) : Prop where
  files : Files.Left p m.files m'.files
  sided : Sided m.files → Sided m'.files
  task : m'.task = update m.task p none
  zombie : m'.zombie = update m.zombie p true
  parent : m'.parent = fun q => if m.parent q = some p then none else m.parent q
  pid : m'.pid = m.pid
  nextpid : m'.nextpid = m.nextpid

theorem exit_goes (h : Between m.files) (ht : m.exit p = .ok m') : Exits p m m' := by
  rw [Machine.exit] at ht
  split at ht
  next a files hrun =>
    obtain rfl := Except.ok.inj ht
    exact ⟨(Files.exit_left h).1 a files hrun, fun hs => (Files.exit_sides _ hs).1 a files hrun,
      rfl, rfl, rfl, rfl, rfl⟩
  next => cases ht

end Xv6Container.Plumbing
