import Xv6Container.Exec.Stack

/-! The whole of `exec`. All jumps to `bad` leave an address space that owns what has been allocated, or
none, and an inode that is locked, or none; `bad` gives both back. Otherwise the new image takes the
place of the old one, whose pages are freed. -/

namespace Xv6Container.Exec

open Lib
open Fs (CString)
open Memory (PGSIZE KERNBASE PHYSTOP DEVSPACE UINT NPTENTRIES V2P PGROUNDUP)
open Memory.Copyout (PTE_P PTE_U flag PTE_ADDR P2V memmove)
open Paging

variable {ip : File} {pgdir n : ℕ} {k : Kernel} {s t : State} {L L' : List ℕ} {α : Type}
  {namei : CString → Option File} {path : CString} {argv : List CString} {found : Bool}

@[simp] theorem run_call (c : Call) : call c s = .ok () { s with calls := s.calls ++ [c] } := rfl

@[simp] theorem run_call_bind (c : Call) (f : Unit → Run α) :
    (call c >>= f) s = f () { s with calls := s.calls ++ [c] } := rfl

/-- A call of the memory functions changes nothing else. -/
theorem onKmem_ends {x : Paging.Run α} {Q : α → Kmem → Prop} {S : Stop → Prop}
    (h : Ends Q S (x s.kmem)) :
    Ends (fun a t => Q a t.kmem ∧ t.proc = s.proc ∧ t.calls = s.calls) S (onKmem x s) := by
  rw [onKmem]
  cases hx : x s.kmem with
  | ok a m => exact ends_ok.2 ⟨h.1 a m hx, rfl, rfl⟩
  | error e m => exact ends_error.2 (h.2 e m hx)

theorem onKmem_ok {x : Paging.Run α} {a : α} {m : Kmem} (h : x s.kmem = .ok a m) :
    onKmem x s = .ok a { s with kmem := m } := by
  rw [onKmem, h]

theorem onKmem_mk {x : Paging.Run α} {a : α} {m m' : Kmem} (h : x m = .ok a m') (proc : Proc)
    (calls : List Call) : onKmem x ⟨m, proc, calls⟩ = .ok a ⟨m', proc, calls⟩ := by
  rw [onKmem, h]

/-- What there is to clean up: the address space `pgdir`, or nothing. -/
def Pending (k : Kernel) (s : State) (pgdir : ℕ) (L : List ℕ) : Prop :=
  pgdir = 0 ∧ s.kmem.freelist.Perm L ∨ Owns k s.kmem pgdir L

/-- The calls that give back a locked inode. -/
def unlocks (ip : Bool) : List Call := if ip then [.iunlockput, .end_op] else []

theorem bad_frees (h : Pending k s pgdir L) (found : Bool) :
    Ends (fun r t => r = -1 ∧ t.proc = s.proc ∧ t.kmem.freelist.Perm L ∧
        Frame L s.kmem.mem t.kmem.mem ∧ t.calls = s.calls ++ unlocks found)
      (fun _ => False) (bad k pgdir found s) := by
  have hend : ∀ {u : State}, u.proc = s.proc → u.calls = s.calls → u.kmem.freelist.Perm L →
      Frame L s.kmem.mem u.kmem.mem →
      Ends (fun r t => r = -1 ∧ t.proc = s.proc ∧ t.kmem.freelist.Perm L ∧
        Frame L s.kmem.mem t.kmem.mem ∧ t.calls = s.calls ++ unlocks found) (fun _ => False)
        ((do
          if found then
            call .iunlockput
            call .end_op
          return -1 : Run ℤ) u) := by
    intro u hproc hcalls hperm hframe
    cases found with
    | false => exact ends_ok.2 ⟨rfl, hproc, hperm, hframe, hcalls.trans (List.append_nil _).symm⟩
    | true =>
      refine ends_ok.2 ⟨rfl, hproc, hperm, hframe, ?_⟩
      change u.calls ++ _ ++ _ = _
      rw [hcalls, List.append_assoc]
      rfl
  rw [bad]
  obtain ⟨rfl, hperm⟩ | howns := h
  · exact hend rfl rfl hperm (.refl _ _)
  · have hne : pgdir ≠ 0 := by
      have hrange := (howns.valid _ howns.dir_mem).range.1
      rintro rfl
      exact absurd hrange (by decide)
    obtain ⟨m, hrun, hperm, hframe⟩ := freevm_frees howns
    rw [if_pos hne, run_bind_ok (onKmem_ok hrun)]
    exact hend rfl rfl hperm hframe

/-- What the first part of `exec` leaves. -/
def Left (k : Kernel) (ip : File) (L : List ℕ) (s t : State) : Loading → Prop
  | .bad pgdir found =>
    Pending k t pgdir L ∧ t.calls ++ unlocks found = s.calls ++ [.iunlockput, .end_op]
  | .image pgdir sz entry =>
    (∃ n, sz = (n + 2) * PGSIZE ∧ Image k ip pgdir L n t.kmem) ∧
      (elfhdr ip).map Elfhdr.entry = some entry ∧ t.calls = s.calls ++ [.iunlockput, .end_op]

/-- A new address space is an image without segments. -/
theorem loaded_nil {m : Kmem} (h : Space k m pgdir L)
    (hempty : ∀ n < NUPAGES, mapping m.mem pgdir n = none) : Loaded k ip pgdir L [] 0 m where
  space := h
  part := ⟨fun i hi => absurd hi (Nat.not_lt_zero i), fun i _ hi => hempty i hi⟩
  size := rfl
  size_lt := by decide
  covers := nofun
  inFile := nofun
  peek a ha := absurd ha (Nat.not_lt_zero a)

/-- The page below the stack. -/
theorem guard_address (h : (n + 2) * PGSIZE < KERNBASE) :
    ((n + 2) * PGSIZE + (UINT - 2 * PGSIZE)) % UINT = n * PGSIZE := by
  dsimp only [PGSIZE, UINT, KERNBASE] at *
  omega

theorem loadImage_leaves (hnodup : s.kmem.freelist.Nodup) (hvalid : ∀ p ∈ s.kmem.freelist, Valid k p) :
    Ends (fun r t => t.proc = s.proc ∧ Frame s.kmem.freelist s.kmem.mem t.kmem.mem ∧
        Left k ip s.kmem.freelist s t r)
      (fun _ => False) (loadImage k ip s) := by
  have hnone : Left k ip s.kmem.freelist s s (.bad 0 true) := ⟨.inl ⟨rfl, .refl _⟩, rfl⟩
  rw [loadImage]
  cases helf : elfhdr ip with
  | none => exact ends_ok.2 ⟨rfl, .refl _ _, hnone⟩
  | some elf =>
    dsimp only
    by_cases hmagic : elf.magic ≠ ELF_MAGIC
    · rw [if_pos hmagic]
      exact ends_ok.2 ⟨rfl, .refl _ _, hnone⟩
    rw [if_neg hmagic]
    refine (onKmem_ends (setupkvm_makes hnodup hvalid)).bind fun r s₁ h₁ => ?_
    obtain ⟨⟨hframe₁, hr⟩, hproc₁, hcalls₁⟩ := h₁
    obtain ⟨rfl, hperm⟩ | ⟨pgdir, rfl, hspace, hempty⟩ := hr
    · exact ends_ok.2 ⟨hproc₁, hframe₁, .inl ⟨rfl, hperm⟩, by rw [hcalls₁]; rfl⟩
    refine (onKmem_ends (loadSegments_loads (loaded_nil hspace hempty))).bind fun r s₂ h₂ => ?_
    obtain ⟨⟨hspace₂, hframe₂, hloaded⟩, hproc₂, hcalls₂⟩ := h₂
    have hframe := hframe₁.trans hframe₂
    cases r with
    | none =>
      refine ends_ok.2 ⟨hproc₂.trans hproc₁, hframe, .inr hspace₂.owns, ?_⟩
      rw [hcalls₂, hcalls₁]
      rfl
    | some sz =>
      have hsegs : segments ip = segmentsFrom ip elf.phnum elf.phoff := by
        rw [segments, helf]
      have hl := hloaded sz rfl
      rw [List.nil_append, ← hsegs] at hl
      have hcalls : s₂.calls ++ [Call.iunlockput] ++ [.end_op] = s.calls ++ [.iunlockput, .end_op] := by
        rw [hcalls₂, hcalls₁, List.append_assoc]
        rfl
      have hstack := onKmem_ends
        (s := { s₂ with calls := s₂.calls ++ [.iunlockput] ++ [.end_op] }) hl.stack
      dsimp only
      rw [run_call_bind, run_call_bind]
      refine hstack.bind fun r s₃ h₃ => ?_
      obtain ⟨⟨hspace₃, hframe₃, hok⟩, hproc₃, hcalls₃⟩ := h₃
      by_cases hzero : r = 0
      · rw [if_pos hzero]
        refine ends_ok.2 ⟨hproc₃.trans (hproc₂.trans hproc₁), hframe.trans hframe₃, .inr hspace₃.owns, ?_⟩
        rw [hcalls₃]
        exact (List.append_nil _).trans hcalls
      · obtain ⟨rfl, m, hrun, hframe₄, himage⟩ := hok hzero
        rw [if_neg hzero, guard_address himage.size_lt, run_bind_ok (onKmem_ok hrun)]
        refine ends_ok.2 ⟨hproc₃.trans (hproc₂.trans hproc₁), (hframe.trans hframe₃).trans hframe₄,
          ⟨_, rfl, himage⟩, ?_, ?_⟩
        · rw [helf]
          rfl
        · exact hcalls₃.trans hcalls

/-! ### The whole call -/

/-- The calls of a run of `exec`, whether it fails or not. -/
def callsOf (found : Bool) : List Call :=
  if found then [.begin_op, .namei true, .ilock, .iunlockput, .end_op]
  else [.begin_op, .namei false, .end_op]

/-- `exec` has found the inode and locked it. -/
def State.locked (s : State) : State :=
  { s with calls := s.calls ++ [.begin_op] ++ [.namei true] ++ [.ilock] }

/-- The arguments are shorter than the new image, if there is one. -/
def Shorter (k : Kernel) (namei : CString → Option File) (path : CString) (argv : List CString)
    (s : State) : Prop :=
  ∀ ip, namei path = some ip → ∀ pgdir sz entry t,
    loadImage k ip s.locked = .ok (.image pgdir sz entry) t → ∀ arg ∈ argv, arg.strlen < sz

/-- All is as before but for the contents of free pages. -/
structure Failed (s t : State) : Prop where
  proc : t.proc = s.proc
  free : t.kmem.freelist.Perm s.kmem.freelist
  frame : Frame s.kmem.freelist s.kmem.mem t.kmem.mem

/-- The process has the new address space `pgdir`, with what it was in `m` before the old one was
freed. -/
structure Replaced (k : Kernel) (ip : File) (L : List ℕ) (n : ℕ) (m : Kmem) (t : State) : Prop where
  space : Space k t.kmem t.proc.pgdir L
  same : Same t.proc.pgdir m.mem t.kmem.mem
  size : t.proc.sz = (n + 2) * PGSIZE
  entry : (elfhdr ip).map Elfhdr.entry = some t.proc.eip

theorem Arguments.congr {m m' : ℕ → UInt8} {esp : ℕ} (h : Arguments m pgdir n argv esp)
    (hsize : (n + 2) * PGSIZE < KERNBASE)
    (hpeek : ∀ a < KERNBASE, peek m' pgdir a = peek m pgdir a) : Arguments m' pgdir n argv esp := by
  obtain ⟨ptrs, hat, hbytes⟩ := h.strings
  have hneed := h.need
  have hlength := hat.length_eq
  unfold stackNeed at hneed
  refine ⟨h.need, h.low, ptrs, hat.imp fun arg p hp => ?_, fun i hi => ?_⟩
  · have hhigh := hp.high
    refine ⟨hp.low, hp.high, fun j hj => ?_⟩
    rw [hpeek _ (by omega)]
    exact hp.byte j hj
  · rw [hpeek _ (by omega)]
    exact hbytes i hi

/-- `exec`, with what is known of the arguments on the stack of an image. -/
theorem exec_runs {S : Stop → Prop} {Q : File → ℕ → ℕ → Kmem → ℕ → Prop}
    (hold : Owns k s.kmem s.proc.pgdir L)
    (hpush : ∀ ip, namei path = some ip → ∀ pgdir n entry t,
      loadImage k ip s.locked = .ok (.image pgdir ((n + 2) * PGSIZE) entry) t →
      Image k ip pgdir s.kmem.freelist n t.kmem →
      Ends (fun r m => Space k m pgdir s.kmem.freelist ∧ Frame s.kmem.freelist t.kmem.mem m.mem ∧
        ∀ esp, r = some esp → Q ip pgdir n m esp) S (pushArgs pgdir argv ((n + 2) * PGSIZE) t.kmem)) :
    Ends (fun r t => t.calls = s.calls ++ callsOf (namei path).isSome ∧ (r = -1 ∧ Failed s t ∨
        r = 0 ∧ ∃ ip n m, namei path = some ip ∧ Q ip t.proc.pgdir n m t.proc.esp ∧ Replaced k ip L n m t))
      S (exec k namei path argv s) := by
  have hnodup : s.kmem.freelist.Nodup := (List.nodup_append.1 hold.apart.nodup).1
  have hvalid : ∀ p ∈ s.kmem.freelist, Valid k p := fun p hp => hold.valid p (hold.free_mem hp)
  rw [exec, run_call_bind, run_call_bind]
  cases hip : namei path with
  | none =>
    refine ends_ok.2 ⟨?_, .inl ⟨rfl, rfl, .refl _, .refl _ _⟩⟩
    change s.calls ++ _ ++ _ ++ _ = _
    rw [List.append_assoc, List.append_assoc]
    rfl
  | some ip =>
    have hlocked : s.locked.calls ++ [.iunlockput, .end_op] = s.calls ++ callsOf true := by
      change s.calls ++ _ ++ _ ++ _ ++ _ = _
      rw [List.append_assoc, List.append_assoc, List.append_assoc]
      rfl
    have hload := @loadImage_leaves ip k s.locked hnodup hvalid
    have hpush' := hpush ip hip
    dsimp only
    rw [run_call_bind]
    change Ends _ _ ((loadImage k ip >>= _) s.locked)
    cases hrun : loadImage k ip s.locked with
    | error e t => exact (hload.2 e t hrun).elim
    | ok r t =>
      obtain ⟨hproc, hframe, hleft⟩ := hload.1 r t hrun
      have hfail : ∀ {u : State} {pgdir : ℕ} {found : Bool}, u.proc = s.proc →
          Frame s.kmem.freelist s.kmem.mem u.kmem.mem → Pending k u pgdir s.kmem.freelist →
          u.calls ++ unlocks found = s.calls ++ callsOf true →
          Ends (fun r t => t.calls = s.calls ++ callsOf true ∧ (r = -1 ∧ Failed s t ∨
            r = 0 ∧ ∃ ip' n m, some ip = some ip' ∧ Q ip' t.proc.pgdir n m t.proc.esp ∧
              Replaced k ip' L n m t)) S (bad k pgdir found u) := by
        intro u pgdir found hproc' hframe' hpending hcalls
        refine (bad_frees hpending found).mono (fun r t hr => ?_) fun _ => False.elim
        obtain ⟨rfl, hproc'', hperm, hframe'', hcalls'⟩ := hr
        exact ⟨hcalls'.trans hcalls, .inl ⟨rfl, hproc''.trans hproc', hperm, hframe'.trans hframe''⟩⟩
      rw [run_bind_ok hrun]
      cases r with
      | bad pgdir found => exact hfail hproc hframe hleft.1 (hleft.2.trans hlocked)
      | image pgdir sz entry =>
        obtain ⟨⟨n, rfl, himage⟩, hentry, hcalls⟩ := hleft
        have hcalls' := hcalls.trans hlocked
        refine (onKmem_ends (hpush' _ _ _ _ hrun himage)).bind fun r u hu => ?_
        obtain ⟨⟨hspace, hframe', hok⟩, hproc', hcalls''⟩ := hu
        cases r with
        | none =>
          refine hfail (hproc'.trans hproc) (hframe.trans hframe') (.inr hspace.owns) ?_
          rw [hcalls'']
          exact (List.append_nil _).trans hcalls'
        | some esp =>
          obtain ⟨m, hfree, hspace', hsame⟩ := freevm_old hold hspace (hframe.trans hframe')
          have hold' : u.proc.pgdir = s.proc.pgdir := by rw [hproc', hproc]; rfl
          dsimp only
          rw [run_get_bind, hold', run_modify_bind, run_bind_ok (onKmem_mk hfree _ _)]
          exact ends_ok.2 ⟨hcalls''.trans hcalls',
            .inr ⟨rfl, ip, n, u.kmem, rfl, hok esp rfl, hspace', hsame, rfl, hentry⟩⟩

/-- The new image of the file `ip` is in order. -/
structure Loads (m : ℕ → UInt8) (ip : File) (pgdir sz : ℕ) : Prop where
  size : sz = imageSize ip
  size_lt : sz < KERNBASE
  bytes : ∀ a < sz - PGSIZE, peek m pgdir a = some (imageByte ip (segments ip) a)
  inFile : ∀ ph ∈ segments ip, 0 < ph.filesz →
    ph.off + ph.filesz ≤ ip.content.length ∧ ph.vaddr + ph.filesz ≤ sz - 2 * PGSIZE
  guard : ∃ x, mapping m pgdir (sz / PGSIZE - 2) = some x ∧ flag x PTE_U = false
  others : ∀ n, sz / PGSIZE ≤ n → n < NUPAGES → mapping m pgdir n = none

theorem Image.loads {m : Kmem} (h : Image k ip pgdir L n m) :
    Loads m.mem ip pgdir ((n + 2) * PGSIZE) := by
  have hguard : (n + 2) * PGSIZE / PGSIZE = n + 2 := Nat.mul_div_cancel _ (by decide)
  have hstack : (n + 2) * PGSIZE - PGSIZE = (n + 1) * PGSIZE := by
    dsimp only [PGSIZE]
    omega
  have hlow : (n + 2) * PGSIZE - 2 * PGSIZE = n * PGSIZE := by
    rw [Nat.add_mul, Nat.add_sub_cancel]
  refine ⟨?_, h.size_lt, ?_, fun ph hph hpos => ⟨h.inFile ph hph hpos, ?_⟩, ?_, ?_⟩
  · rw [h.pages]
    rfl
  · rw [hstack]
    exact h.peek
  · rw [hlow]
    exact h.covers ph hph
  · rw [hguard, Nat.add_sub_cancel]
    exact h.guard
  · rw [hguard]
    exact h.absent

/-- The arguments are shorter than the image. -/
theorem exec_ends (hold : Owns k s.kmem s.proc.pgdir L) (hargs : Shorter k namei path argv s) :
    Ends (fun r t => t.calls = s.calls ++ callsOf (namei path).isSome ∧ (r = -1 ∧ Failed s t ∨
        r = 0 ∧ ∃ ip n, namei path = some ip ∧ t.proc.sz = (n + 2) * PGSIZE ∧
          Image k ip t.proc.pgdir L n t.kmem ∧ Arguments t.kmem.mem t.proc.pgdir n argv t.proc.esp))
      (fun _ => False) (exec k namei path argv s) := by
  refine (exec_runs hold fun ip hip pgdir n entry t hrun himage =>
    pushArgs_pushes himage (hargs ip hip _ _ _ _ hrun)).post fun r t hr => ?_
  obtain ⟨hcalls, hfail | ⟨hzero, ip, n, m, hip, ⟨himage, harguments⟩, hnew⟩⟩ := hr
  · exact ⟨hcalls, .inl hfail⟩
  · have hsize := himage.size_lt
    refine ⟨hcalls, .inr ⟨hzero, ip, n, hip, hnew.size, ?_, ?_⟩⟩
    · refine himage.congr hnew.space hnew.same.mapping fun a ha => hnew.same.peek a ?_
      exact himage.lt_base (ha.trans_le (Nat.mul_le_mul_right _ (by omega)))
    · exact harguments.congr hsize hnew.same.peek

/-- The size of the image is known from the file. -/
theorem shorter_of_imageSize (hold : Owns k s.kmem s.proc.pgdir L)
    (h : ∀ ip, namei path = some ip → ∀ arg ∈ argv, arg.strlen < imageSize ip) :
    Shorter k namei path argv s := by
  have hnodup : s.kmem.freelist.Nodup := (List.nodup_append.1 hold.apart.nodup).1
  have hvalid : ∀ p ∈ s.kmem.freelist, Valid k p := fun p hp => hold.valid p (hold.free_mem hp)
  intro ip hip pgdir sz entry t hrun arg harg
  obtain ⟨-, -, ⟨n, rfl, himage⟩, -⟩ := (@loadImage_leaves ip k s.locked hnodup hvalid).1 _ _ hrun
  rw [himage.loads.size]
  exact h ip hip arg harg

/-! ### A small program -/

/-- An ELF file with one segment: four bytes, and four more that are zero. -/
def smallFile : File where
  content := [0x7F, 0x45, 0x4C, 0x46] ++ List.replicate 24 0 ++ [52, 0, 0, 0] ++ List.replicate 12 0 ++
    [1, 0] ++ List.replicate 6 0 ++
    [1, 0, 0, 0, 84, 0, 0, 0] ++ List.replicate 8 0 ++ [4, 0, 0, 0, 8, 0, 0, 0] ++ List.replicate 8 0 ++
    [1, 2, 3, 4]
  length_lt := by decide

def smallPath : CString := ⟨[47, 97], by decide⟩

def smallArgs : List CString := [smallPath, ⟨[98, 99, 100], by decide⟩]

/-- A process of one page. -/
def smallState : State := ⟨oneParent, ⟨0x80400000, 4096, fun _ => 0, 0, 0⟩, []⟩

theorem shorter_smallArgs :
    Shorter smallKernel (fun _ => some smallFile) smallPath smallArgs smallState := by
  refine shorter_of_imageSize owns_oneParent fun ip hip => ?_
  rw [← Option.some.inj hip]
  decide +kernel

example : imageSize smallFile = 12288 := by decide +kernel

/-! ### The results -/

/-- Each call of `begin_op` has its `end_op`, and each inode found is given back. -/
structure Balanced (calls : List Call) : Prop where
  ops : calls.count .begin_op = 1 ∧ calls.count .end_op = 1
  refs : calls.count .iunlockput = calls.count (.namei true)

theorem balanced_callsOf (found : Bool) : Balanced (callsOf found) := by
  cases found <;> exact ⟨by decide, by decide⟩

/-- `exec` returns, and if it fails the process is as it was, all pages are free again, and what it has
begun with the file system has been ended. -/
theorem exec_fails_clean (hold : Owns k s.kmem s.proc.pgdir L) (hargs : Shorter k namei path argv s) :
    ∃ r t calls, exec k namei path argv s = .ok r t ∧ (r = 0 ∨ r = -1) ∧ t.calls = s.calls ++ calls ∧
      (r = -1 → Failed s t ∧ Balanced calls) := by
  obtain ⟨r, t, hrun, hcalls, ⟨hr, hfailed⟩ | ⟨hr, -⟩⟩ := (exec_ends hold hargs).returns
  · exact ⟨r, t, _, hrun, .inr hr, hcalls, fun _ => ⟨hfailed, balanced_callsOf _⟩⟩
  · refine ⟨r, t, _, hrun, .inl hr, hcalls, fun hneg => ?_⟩
    rw [hr] at hneg
    exact absurd hneg (by decide)

theorem exec_fails_clean_small : ∃ r t calls,
    exec smallKernel (fun _ => some smallFile) smallPath smallArgs smallState = .ok r t ∧
      (r = 0 ∨ r = -1) ∧ t.calls = smallState.calls ++ calls ∧
      (r = -1 → Failed smallState t ∧ Balanced calls) :=
  exec_fails_clean owns_oneParent shorter_smallArgs

/-- `exec` stops for nothing but a null pointer that `copyout` follows; a new image holds the segments,
and so does the process if `exec` succeeds with arguments shorter than the image. -/
theorem exec_loads (hold : Owns k s.kmem s.proc.pgdir L) :
    (∀ e t, exec k namei path argv s = .error e t → e = .null) ∧
      (∀ ip, namei path = some ip → ∀ pgdir sz entry t,
        loadImage k ip s.locked = .ok (.image pgdir sz entry) t → Loads t.kmem.mem ip pgdir sz) ∧
      (Shorter k namei path argv s → ∀ t, exec k namei path argv s = .ok 0 t →
        ∃ ip, namei path = some ip ∧ Loads t.kmem.mem ip t.proc.pgdir t.proc.sz) := by
  have hnodup : s.kmem.freelist.Nodup := (List.nodup_append.1 hold.apart.nodup).1
  have hvalid : ∀ p ∈ s.kmem.freelist, Valid k p := fun p hp => hold.valid p (hold.free_mem hp)
  refine ⟨?_, fun ip _ pgdir sz entry t hrun => ?_, fun hargs t hrun => ?_⟩
  · have hends : Ends (fun _ _ => True) (fun e => e = .null) (exec k namei path argv s) := by
      refine (exec_runs (S := fun e => e = .null) (Q := fun _ _ _ _ _ => True) hold
        fun ip _ pgdir n entry t _ himage => ?_).post fun _ _ _ => trivial
      exact (pushArgs_anywhere himage.space).post fun r m hr => ⟨hr.1, hr.2, fun _ _ => trivial⟩
    exact hends.2
  · obtain ⟨-, -, ⟨n, rfl, himage⟩, -⟩ := (@loadImage_leaves ip k s.locked hnodup hvalid).1 _ _ hrun
    exact himage.loads
  · obtain ⟨-, ⟨hneg, -⟩ | ⟨-, ip, n, hip, hsz, himage, -⟩⟩ := (exec_ends hold hargs).1 _ _ hrun
    · exact absurd hneg (by decide)
    · refine ⟨ip, hip, ?_⟩
      rw [hsz]
      exact himage.loads

theorem exec_loads_small :
    (∀ e t, exec smallKernel (fun _ => some smallFile) smallPath smallArgs smallState = .error e t →
      e = .null) ∧
    ∀ t, exec smallKernel (fun _ => some smallFile) smallPath smallArgs smallState = .ok 0 t →
      ∃ ip, some smallFile = some ip ∧ Loads t.kmem.mem ip t.proc.pgdir t.proc.sz := by
  obtain ⟨hstops, -, hloads⟩ := @exec_loads smallKernel smallState _ (fun _ => some smallFile) smallPath
    smallArgs owns_oneParent
  exact ⟨hstops, hloads shorter_smallArgs⟩

/-- The arguments can be read back from the stack of the new image, and `exec` fails if there is no
room for them in the stack page. -/
theorem exec_arguments (hold : Owns k s.kmem s.proc.pgdir L) (hargs : Shorter k namei path argv s) :
    ∃ r t, exec k namei path argv s = .ok r t ∧ (r = 0 ∨ r = -1) ∧
      (r = 0 → decode (stackByte t.kmem.mem t.proc.pgdir t.proc.sz) t.proc.esp =
        some (argv.map CString.bytes)) ∧
      (PGSIZE < stackNeed argv → r = -1) := by
  obtain ⟨r, t, hrun, -, ⟨hr, -⟩ | ⟨hr, ip, n, -, hsz, himage, harguments⟩⟩ :=
    (exec_ends hold hargs).returns
  · refine ⟨r, t, hrun, .inr hr, fun hzero => ?_, fun _ => hr⟩
    rw [hr] at hzero
    exact absurd hzero (by decide)
  · refine ⟨r, t, hrun, .inl hr, fun _ => ?_, fun hneed => ?_⟩
    · rw [hsz]
      exact harguments.decode_eq himage.stack himage.size_lt
    · have hsum := harguments.need
      have hlow := harguments.low
      dsimp only [PGSIZE] at *
      omega

theorem exec_arguments_small : ∃ r t,
    exec smallKernel (fun _ => some smallFile) smallPath smallArgs smallState = .ok r t ∧
      (r = 0 → decode (stackByte t.kmem.mem t.proc.pgdir t.proc.sz) t.proc.esp =
        some [[47, 97], [98, 99, 100]]) := by
  obtain ⟨r, t, hrun, -, hdecode, -⟩ := @exec_arguments smallKernel smallState _ (fun _ => some smallFile)
    smallPath smallArgs owns_oneParent shorter_smallArgs
  exact ⟨r, t, hrun, hdecode⟩

end Xv6Container.Exec
