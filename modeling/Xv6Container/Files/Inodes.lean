import Xv6Container.Files.Counts
import Xv6Container.Names.Links

/-! References to inodes. Between two calls every entry of the inode cache is referenced by the
open files and the current directories and by nothing else, however the calls have ended. -/

namespace Xv6Container.Files

open Lib Names
open Fs hiding Stop

variable {α : Type} {s t u : State} {p q : Slot} {fd : Fd} {f g : FileId} {pg : Page} {w : Bool}

/-- A call that keeps the references right. -/
def Keeps (x : Run α) : Prop :=
  ∀ s, Steady False s.fs → Ends (fun _ t => Steady False t.fs) (fun _ => True) (x s)

namespace Keeps

theorem bind {β : Type} {x : Run α} {k : α → Run β} (hx : Keeps x) (hk : ∀ a, Keeps (k a)) :
    Keeps (x >>= k) :=
  fun s hs => (hx s hs).bind fun a t ht => hk a t ht

theorem ret (a : α) : Keeps (pure a) := fun _ hs => ends_ok.2 hs

theorem stop (r : Stop) : Keeps (throw r : Run α) := fun _ _ => ends_error.2 trivial

theorem read {k : State → Run α} (h : ∀ s, Keeps (k s)) : Keeps (get >>= k) := fun s => h s s

theorem ite {c : Prop} [Decidable c] {x y : Run α} (hx : Keeps x) (hy : Keeps y) :
    Keeps (if c then x else y) := by
  split_ifs
  · exact hx
  · exact hy

theorem change {h : State → State} (hfs : ∀ s, (h s).fs = s.fs) : Keeps (modify h : Run PUnit) :=
  fun s hs => ends_ok.2 ((hfs s).symm ▸ hs)

theorem onFs {x : Names.Run α}
    (h : ∀ s, Steady False s → Ends (fun _ t => Steady False t) (Names.Legal False) (x s)) :
    Keeps (onFs x) := by
  intro s hs
  have hx := h s.fs hs
  unfold Files.onFs
  cases hr : x s.fs with
  | ok a fs => exact ends_ok.2 (hx.1 a fs hr)
  | error r fs => exact ends_error.2 trivial

theorem onKmem (x : Memory.Run α) : Keeps (onKmem x) := by
  intro s hs
  unfold Files.onKmem
  cases x s.kmem with
  | ok a kmem => exact ends_ok.2 hs
  | error r kmem => exact ends_error.2 trivial

theorem forM {β : Type} {k : β → Run PUnit} (l : List β) (h : ∀ b, Keeps (k b)) :
    Keeps (l.forM k) := by
  induction l with
  | nil => exact ret _
  | cons b l ih => exact (h b).bind fun _ => ih

theorem discard {x : Run α} (h : Keeps x) : Keeps (Functor.discard x : Run PUnit) :=
  fun s hs => (h s hs).discard.post fun _ _ ⟨_, ht⟩ => ht

end Keeps

/-! ### Files -/

theorem setPipe_keeps (pg : Page) (q : Option Pipes.Pipe) : Keeps (setPipe pg q) :=
  .change fun _ => rfl

theorem record_keeps (e : PageEvent) : Keeps (record e) := .change fun _ => rfl

theorem pipeclose_keeps : Keeps (pipeclose pg w) := by
  refine .read fun s => ?_
  split
  · exact .stop _
  · refine (setPipe_keeps _ _).bind fun _ => .ite ?_ (.ret _)
    exact (Keeps.onKmem _).bind fun _ => (setPipe_keeps _ _).bind fun _ => record_keeps _

theorem fileclose_keeps : Keeps (fileclose f) := by
  refine .read fun s => ?_
  have hclose : Keeps (onFs (Names.fileclose f)) :=
    .onFs fun _ hs => (fileclose_steady hs).post fun _ _ ht => ht.1
  refine hclose.bind fun _ => .ite ?_ (.ret _)
  split
  · exact .ret _
  · exact .bind (.change fun _ => rfl) fun _ => pipeclose_keeps

theorem fdalloc_keeps : Keeps (onFs (fdalloc p f)) :=
  .onFs fun _ hs => fdalloc_ends.post fun _ _ ⟨hq, hf, _⟩ => hs.quiet hq (hs.closed.congr hf)

theorem setFd_keeps {o : Option FileId} : Keeps (onFs (setFd p fd o)) :=
  .onFs fun _ hs => Quiet.setFd.post fun _ _ ⟨hq, hf⟩ => hs.quiet hq (hs.closed.congr hf)

theorem filedup_keeps : Keeps (onFs (filedup f)) :=
  .onFs fun _ hs => (filedup_ends hs.closed).post fun _ _ ⟨hq, hc⟩ => hs.quiet hq hc

/-- A new file holds no inode when it becomes the end of a pipe. -/
theorem setEnd_steady (hs : Steady False s.fs) (hip : (s.fs.file f).ip = none) :
    Ends (fun _ t => Steady False t.fs ∧ Quiet s.fs t.fs) (fun _ => True) (setEnd f pg w s) := by
  rw [setEnd, run_modify, ends_ok]
  have hq : Quiet s.fs (s.fs.setFile f { s.fs.file f with
      ip := none, readable := !w, writable := w }) := .setFile hip.symm
  exact ⟨hs.quiet hq (hs.closed.setFile fun _ => rfl), hq⟩

theorem filealloc_steady {s : Names.State} (hs : Steady False s) :
    Ends (fun o t => Steady False t ∧ Quiet s t ∧ ∀ f, o = some f → (s.file f).ip = none)
      (fun _ => True) (filealloc s) := by
  refine filealloc_table.post fun o t ht => ?_
  cases o with
  | none =>
    obtain rfl := ht
    exact ⟨hs, .refl t, nofun⟩
  | some f =>
    obtain ⟨href, rfl⟩ := ht
    have hq : Quiet s (s.setFile f { s.file f with ref := 1 }) := .setFile rfl
    refine ⟨hs.quiet hq (hs.closed.setFile nofun), hq, ?_⟩
    rintro _ ⟨⟩
    exact hs.closed f href

theorem pipealloc_keeps : Keeps pipealloc := by
  intro s hs
  refine Ends.bind ((onFs_ends (filealloc_steady hs)).mono (fun _ _ => id) fun _ _ => trivial) ?_
  rintro o t ⟨fs, ht, hfs, hq, hf⟩
  subst ht
  cases o with
  | none => exact ends_ok.2 hfs
  | some f =>
    refine Ends.bind ((onFs_ends (filealloc_steady hfs)).mono (fun _ _ => id) fun _ _ => trivial) ?_
    rintro o t ⟨fs', ht, hfs', hq', hg⟩
    subst ht
    cases o with
    | none => exact (fileclose_keeps.bind fun _ => .ret _) _ hfs'
    | some g =>
      refine Ends.bind ((onKmem_ends kalloc_freelist).mono (fun _ _ => id) fun _ _ => trivial) ?_
      rintro o t ⟨kmem, ht, _⟩
      subst ht
      cases o with
      | none =>
        exact (fileclose_keeps.bind fun _ => fileclose_keeps.bind fun _ => .ret _) _ hfs'
      | some pg =>
        have hip : (fs'.file f).ip = none := by rw [hq'.ip, hq.ip, hf f rfl]
        have hip' : (fs'.file g).ip = none := by rw [hq'.ip, hg g rfl]
        simp only [setPipe, record, run_modify_bind]
        refine (setEnd_steady hfs' hip).bind ?_
        rintro _ u ⟨hu, hqu⟩
        refine (setEnd_steady hu (by rw [hqu.ip, hip'])).bind ?_
        rintro _ v ⟨hv, -⟩
        exact ends_ok.2 hv

/-! ### Calls -/

theorem sysPipe_keeps : Keeps (sysPipe p) := by
  refine pipealloc_keeps.bind fun o => ?_
  split
  · exact .ret _
  · refine fdalloc_keeps.bind fun o => ?_
    split
    · exact fileclose_keeps.bind fun _ => fileclose_keeps.bind fun _ => .ret _
    · refine fdalloc_keeps.bind fun o => ?_
      split
      · refine setFd_keeps.bind fun _ => ?_
        exact fileclose_keeps.bind fun _ => fileclose_keeps.bind fun _ => .ret _
      · exact .ret _

theorem sysDup_keeps : Keeps (sysDup p fd) := by
  refine .read fun s => ?_
  split
  · exact .ret _
  · refine fdalloc_keeps.bind fun o => ?_
    split
    · exact .ret _
    · exact filedup_keeps.bind fun _ => .ret _

theorem sysClose_keeps : Keeps (sysClose p fd) := by
  refine .read fun s => ?_
  split
  · exact .ret _
  · exact setFd_keeps.bind fun _ => fileclose_keeps.bind fun _ => .ret _

theorem closeAll_keeps : Keeps (closeAll p) := by
  refine .forM _ fun fd => .read fun s => ?_
  split
  · exact .ret _
  · exact fileclose_keeps.bind fun _ => setFd_keeps

/-- The last part of `exit`. -/
theorem leaveCwd_keeps : Keeps (do onFs (putCwd p); onFs (setCwd p none)) := by
  intro s hs
  have hcached : Cached False (hold s.fs + 0) s.fs := by
    rw [add_zero]
    exact hs.cached
  have hput := putCwd_ends (p := p) hcached fun _ => le_refl 0
  refine Ends.bind ((onFs_ends hput).mono (fun _ _ => id) fun _ _ => trivial)
    fun _ t ⟨fs, ht, hfs, hst, _⟩ => ?_
  subst ht
  rw [← ptr_none] at hfs
  refine (onFs_ends (setCwd_ends hfs hst hs.closed)).mono (fun _ t ⟨fs', ht, hfs', _⟩ => ?_)
    fun _ _ => trivial
  rw [ht]
  exact hfs'

theorem exit_keeps : Keeps (exit p) := closeAll_keeps.bind fun _ => leaveCwd_keeps

theorem exec_keeps {path : CString} {loads fits : Bool} :
    Keeps (onFs (exec p path loads fits)) := by
  refine .onFs fun s hs => ?_
  have hR := hold_nonneg s
  refine (namei_ends hs.cached hR .hold False.elim).bind fun o t ⟨ht, hl, _⟩ => ?_
  cases o with
  | none =>
    rw [ptr_none, add_zero] at ht
    exact ends_ok.2 (hl.toStable.steady hs.closed ht)
  | some ip =>
    rw [ptr_some] at ht
    refine (ilock_ends ht (add_one_pos (hR ip))).bind fun _ u ⟨hu, hlu, _⟩ => ?_
    have hsu : Looked (hold s) s u := hl.trans hlu.drop
    have hput : ∀ b : Bool, Ends (fun _ v => Steady False v) (Names.Legal False)
        ((do
          iunlockput ip
          return b) u) := by
      intro b
      refine (iunlockput_looks hu (hR ip) (hsu.settled hs.cached.settled)).bind fun _ v ⟨hv, hlv⟩ => ?_
      exact ends_ok.2 ((hsu.trans hlv).toStable.steady hs.closed hv)
    split_ifs
    · exact hput fits
    · exact hput false

theorem forkFiles_keeps {containerID : ℤ} : Keeps (forkFiles p q containerID) := by
  intro s hs
  simp only [forkFiles, run_get_bind]
  split_ifs with hq
  · have hfork : Ends (fun _ t => Steady False t ∧ t.node = s.fs.node) (Names.Legal False)
        (Names.fork p q containerID s.fs) := fork_ends hs (Option.isNone_iff_eq_none.1 hq)
    refine (onFs_ends hfork).mono (fun _ t ⟨fs, ht, hfs, _⟩ => ?_) fun _ _ => trivial
    rw [ht]
    exact hfs
  · exact ends_error.2 trivial

/-- Every call keeps the references right. -/
theorem call_keeps (c : Call) : Keeps c.run := by
  cases c with
  | open_ p path omode =>
    exact .discard (.onFs fun s hs => (sysOpen_ends (W := False) hs False.elim).post
      fun _ _ ht => ht.1)
  | close p fd => exact .discard sysClose_keeps
  | dup p fd => exact .discard sysDup_keeps
  | pipe p => exact .discard sysPipe_keeps
  | chdir p path =>
    exact .discard (.onFs fun s hs => (sysChdir_ends hs False.elim).post fun _ _ ht => ht.1)
  | fork p q => exact .read fun s => forkFiles_keeps
  | joinContainer p q containerID => exact forkFiles_keeps.bind fun _ => exit_keeps
  | exec p path loads fits => exact .discard exec_keeps
  | link p old new =>
    exact .discard (.onFs fun s hs => (sysLink_ends (W := False) hs False.elim).post
      fun _ _ ht => ht.1)
  | unlink p path =>
    exact .discard (.onFs fun s hs => (sysUnlink_ends hs False.elim).post fun _ _ ht => ht.1)
  | mkdir p path =>
    exact .discard (.onFs fun s hs => (sysMake_ends (W := False) hs False.elim (by decide) rfl
      fun _ => rfl).post fun _ _ ht => ht.1)
  | mknod p path major minor =>
    exact .discard (.onFs fun s hs => (sysMake_ends (W := False) hs False.elim (by decide) rfl
      fun _ => rfl).post fun _ _ ht => ht.1)
  | fstat p fd => exact .discard (.onFs fun s hs => (sysFstat_ends hs).post fun _ _ ht => ht.1)
  | exit p => exact exit_keeps
  | memory freelist =>
    exact .read fun s => .ite (.change fun _ => rfl) (.stop _)

/-! ### Runs -/

/-- No inode is cached twice, and the references to one are those of the open files of type
`FD_INODE` and of the current directories. -/
structure InodesCounted (s : State) : Prop where
  distinct : ∀ e e', 0 < (s.fs.cache e).ref → 0 < (s.fs.cache e').ref →
    (s.fs.cache e).inum = (s.fs.cache e').inum → e = e'
  count : ∀ e, (s.fs.cache e).ref =
    tally (fun f => (s.fs.file f).ip) e + tally (fun p => (s.fs.proc p).cwd) e
  closed : ∀ f, (s.fs.file f).ref = 0 → (s.fs.file f).ip = none

theorem counted_of_steady (h : Steady False s.fs) : InodesCounted s := by
  refine ⟨fun e e' he he' heq => ?_, fun e => ?_, h.closed⟩
  · rw [h.cached.count] at he he'
    exact h.cached.distinct e e' he he' heq
  · rw [h.cached.count, hold, add_comm]

theorem hold_boot {node : Inum → Node} {kmem : Kmem} : hold (boot node kmem).fs = one 0 := by
  funext e
  have hfiles : tally (fun f => ((boot node kmem).fs.file f).ip) e = 0 := tally_none e
  have hcwd : (fun p => ((boot node kmem).fs.proc p).cwd) =
      Function.update (fun _ => none) 0 (some 0) := by
    funext p
    rw [Function.update_apply]
    rfl
  rw [hold, hfiles, hcwd, tally_update, tally_none]
  simp [one, eq_comm]

theorem boot_steady {node : Inum → Node} {kmem : Kmem} (h : Disk node) :
    Steady False (boot node kmem).fs := by
  have hpos : ∀ e, 0 < hold (boot node kmem).fs e → e = 0 := by
    intro e he
    by_contra hne
    rw [hold_boot, one_of_ne hne] at he
    exact absurd he (lt_irrefl 0)
  refine ⟨⟨⟨fun e => ?_, fun a b ha hb _ => ?_, fun e _ hv => ?_, False.elim,
    fun _ e c _ hc => ?_, h.zero⟩, fun i hi hn => ?_⟩, fun f _ => rfl⟩
  · rw [hold_boot]
    rfl
  · rw [hpos a ha, hpos b hb]
  · cases hv
  · cases hc
  · exact absurd hn (h.linked i hi)

theorem step_steady {c : Call} (h : Steady False s.fs) (ht : step s c = .ok t) :
    Steady False t.fs := by
  unfold step at ht
  split_ifs at ht
  cases hrun : c.run s with
  | ok a u =>
    rw [hrun] at ht
    cases ht
    exact (call_keeps c s h).1 a _ hrun
  | error r u =>
    rw [hrun] at ht
    cases ht

/-- In every run the references to inodes are those of open files and current directories. -/
theorem inodes_counted (hs : Reach step always Booted s) : InodesCounted s := by
  refine counted_of_steady (hs.invariant (I := fun s => Steady False s.fs) ?_ ?_)
  · rintro s ⟨node, kmem, hdisk, -, rfl⟩
    exact boot_steady hdisk
  · intro s c t hs _ ht
    exact step_steady hs ht

/-! ### A run -/

/-- An empty root directory, and three free pages. -/
def firstBoot : State := boot Names.boot.node ⟨[0x80400000, 0x80401000, 0x80402000], 0x80100000⟩

theorem disk_boot : Disk Names.boot.node := by
  refine ⟨?_, ?_, fun i hi => ?_⟩
  · rw [boot_node, if_neg (by decide)]
  · rw [boot_node, if_pos rfl]
  · by_cases hroot : i = ROOTINO
    · rw [boot_node, if_pos hroot]
      decide
    · rw [boot_node, if_neg hroot] at hi
      exact absurd rfl hi

theorem booted_firstBoot : Booted firstBoot := ⟨_, _, disk_boot, by decide, rfl⟩

/-- Two processes share an open file, one of them is in a directory of its own. -/
theorem inodes_counted_shared : ∃ s, Reach step always Booted s ∧ InodesCounted s ∧
    (s.fs.cache 0).ref = 1 ∧ (s.fs.file 0).ref = 2 := by
  have hboot : Reach step always Booted firstBoot := .start booted_firstBoot
  obtain ⟨s, hs, ht⟩ := hboot.of_endsIn
    (fun s => decide ((s.fs.cache 0).ref = 1 ∧ (s.fs.file 0).ref = 2))
    [.mkdir 0 pathD, .open_ 0 pathF O_CREATE, .fork 0 1, .chdir 1 pathD] (by decide +kernel)
  exact ⟨s, hs, inodes_counted hs, of_decide_eq_true ht⟩

end Xv6Container.Files
