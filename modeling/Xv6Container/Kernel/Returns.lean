import Xv6Container.Kernel.Owners
import Xv6Container.Memory.Needs

/-! What a call of `fork` or `joinContainer` that fails leaves behind. -/

namespace Xv6Container.Kernel

open Lib
open Containers (Sys Env Slot Page Creator Call Pc Tables NCONT)
open Memory (Kmem PageDir hit hit_none dirCount copyPages Takes)

variable {s t u : State} {p q np : Slot} {c : Call} {k n : ℤ} {x : Tables}

/-- The places of a call that makes a process, up to the entry into the list. -/
def Creating : Pc → Bool
  | .setAlloc _ _ | .alloc _ | .kstack _ _ | .resetAlloc _ _ | .copy _ _ | .list _ _ => true
  | _ => false

/-- Only `p` runs, and it has not entered the new process into a list. -/
def Alone (p : Slot) (s : State) (a : Act) : Prop :=
  Creating (s.sys.pc p) ∧ ∃ n, a = .step p n

instance (p : Slot) (s : State) (a : Act) : Decidable (Alone p s a) :=
  match a with
  | .step q n =>
    if h : Creating (s.sys.pc p) ∧ q = p then .isTrue ⟨h.1, n, by rw [h.2]⟩
    else .isFalse fun ⟨hc, _, ha⟩ => h ⟨hc, by cases ha; rfl⟩
  | .sys _ | .growproc _ _ | .exec _ _ | .files _ => .isFalse fun ⟨_, _, ha⟩ => by cases ha

/-- `p` calls `c`, and one of the sections that make a process returns: there is no slot, no
kernel stack, not enough memory or no entry in the list. -/
inductive Fails (s : State) (p : Slot) (c : Call) (t : State) : Prop
  | intro (s' u : State) (n : ℤ) (call : step s (.sys (.call p c)) = .ok s')
      (run : Reach step (Alone p) (· = s') u) (creating : Creating (u.sys.pc p))
      (last : step u (.step p n) = .ok t) (back : t.sys.pc p = .user)

/-- The container whose reserve the kernel stack is taken from, 0 for the free list: `fork` uses
what the variable `allocFor` holds. -/
def reserveOf (s : State) : Call → ℤ
  | .join_container containerID => containerID
  | .leave_container => 0
  | _ => s.sys.t.allocFor

/-- What the call is to leave as it was. -/
structure Unchanged (s t : State) : Prop where
  free : t.kmem.freelist.Perm s.kmem.freelist
  state : t.sys.state = s.sys.state
  process : ∀ c, (t.sys.t.container c).process = (s.sys.t.container c).process
  generatedProcess : ∀ c,
    (t.sys.t.container c).generatedProcess = (s.sys.t.container c).generatedProcess
  used : ∀ c, (t.sys.t.container c).used = (s.sys.t.container c).used

/-- There is no free slot, or the kernel stack is to come from the free list and there are too few
pages for it and a copy of the address space. -/
def Undone (s : State) (p : Slot) (k : ℤ) : Prop :=
  (∀ q, s.sys.state q ≠ .unused) ∨ k = 0 ∧ s.kmem.free < 1 + copyPages (s.sys.core p).sz

/-! ### The sections of the call -/

/-- Nothing has been taken yet. -/
structure Same (s u : State) : Prop where
  kmem : u.kmem = s.kmem
  proc : u.sys.t.proc = s.sys.t.proc
  container : u.sys.t.container = s.sys.t.container

/-- The slot `np` has been taken. -/
structure Begun (s u : State) (np : Slot) : Prop where
  unused : s.sys.state np = .unused
  others : ∀ q, q ≠ np → u.sys.t.proc q = s.sys.t.proc q

/-- So has a kernel stack, and `taken` pages besides. -/
structure Stacked (s u : State) (np : Slot) (k : ℤ) (taken : ℕ) : Prop extends Begun s u np where
  spent : k ≠ 0 → ∃ c, (u.sys.t.container c).used ≠ (s.sys.t.container c).used
  container : k = 0 → u.sys.t.container = s.sys.t.container
  free : k = 0 → s.kmem.free = u.kmem.free + 1 + taken
  count : k = 0 → taken = 0 → ∀ pg,
    hit (u.sys.core np).kstack pg + u.kmem.count pg = s.kmem.count pg

theorem Begun.sz (h : Begun s u np) (hrun : s.sys.state p = .running) :
    (u.sys.core p).sz = (s.sys.core p).sz := by
  have hne : p ≠ np := by
    rintro rfl
    rw [h.unused] at hrun
    cases hrun
  show (u.sys.t.proc p).sz = (s.sys.t.proc p).sz
  rw [h.others p hne]

/-- What holds in the call, by its place. -/
def Phase (s : State) (p : Slot) (k : ℤ) (u : State) : Prop :=
  match u.sys.pc p with
  | .setAlloc c _ => c = k ∧ Same s u
  | .alloc _ => u.sys.t.allocFor = k ∧ Same s u
  | .kstack _ np => u.sys.t.allocFor = k ∧ Begun s u np ∧
    u.sys.t.container = s.sys.t.container ∧ u.kmem = s.kmem
  | .resetAlloc _ np | .copy _ np => Stacked s u np k 0
  | .list _ np => Stacked s u np k (copyPages (s.sys.core p).sz)
  | _ => True

/-- What one section shows: it keeps the phase, or it returns and the claim is settled. -/
def Passes (s : State) (p : Slot) (k : ℤ) (t : State) : Prop :=
  Phase s p k t ∧ (t.sys.pc p = .user → (Unchanged s t ↔ Undone s p k))

theorem Phase.passes (hpc : t.sys.pc p ≠ .user) (h : Phase s p k t) : Passes s p k t :=
  ⟨h, fun hu => absurd hu hpc⟩

theorem passes_of_back (hpc : t.sys.pc p = .user) (h : Unchanged s t ↔ Undone s p k) :
    Passes s p k t := by
  refine ⟨?_, fun _ => h⟩
  rw [Phase, hpc]
  trivial

theorem pc_goto (y : Sys) (p : Slot) (pc : Pc) (x : Tables) : (y.goto p pc x).pc p = pc :=
  Function.update_self ..

theorem pc_back (y : Sys) (p : Slot) (r : ℤ) (x : Tables) : (y.back p r x).pc p = .user :=
  Function.update_self ..

/-- Nothing has changed, and nothing could be done. -/
theorem Same.unchanged (h : Same s u) (hkmem : t.kmem = u.kmem) (htab : t.sys.t = u.sys.t) :
    Unchanged s t := by
  have hcon : t.sys.t.container = s.sys.t.container := by rw [htab, h.container]
  refine ⟨?_, ?_, fun c => by rw [hcon], fun c => by rw [hcon], fun c => by rw [hcon]⟩
  · rw [hkmem, h.kmem]
  · funext q
    rw [Sys.state, htab, h.proc, Sys.state]

theorem calm_passes (h : Phase s p k u) (hc : Creating (u.sys.pc p)) (hplain : u.Plain p)
    (hstep : Containers.step u.sys (.step p (noPages n)) = .ok t.sys)
    (heq : t = { u with sys := t.sys }) : Passes s p k t := by
  have hkmem : t.kmem = u.kmem := by rw [heq]; rfl
  cases hpc : u.sys.pc p with
  | setAlloc c pp =>
    rw [Phase, hpc] at h
    obtain ⟨hck, hsame⟩ := h
    have hsys := Containers.setAlloc_step hpc hstep
    have htpc : t.sys.pc p = .alloc (.join c pp) := by rw [hsys, pc_goto]
    refine Phase.passes (by rw [htpc]; rintro ⟨⟩) ?_
    rw [Phase, htpc]
    refine ⟨by rw [hsys]; exact hck, hkmem.trans hsame.kmem, ?_, ?_⟩
    · rw [hsys]
      exact hsame.proc
    · rw [hsys]
      exact hsame.container
  | alloc cr =>
    rw [Phase, hpc] at h
    obtain ⟨hfor, hsame⟩ := h
    obtain ⟨hnone, hsys⟩ | ⟨np, x, hsome, hsys⟩ := Containers.alloc_step hpc hstep
    · refine passes_of_back (by rw [hsys, pc_back]) ⟨fun _ => .inl fun q => ?_, fun _ => ?_⟩
      · have hq := Tables.allocproc_none hnone q
        rwa [hsame.proc] at hq
      · exact hsame.unchanged hkmem (by rw [hsys]; rfl)
    · obtain ⟨hunused, -, rfl⟩ := Tables.allocproc_some hsome
      have htpc : t.sys.pc p = .kstack cr np := by rw [hsys, pc_goto]
      refine Phase.passes (by rw [htpc]; rintro ⟨⟩) ?_
      rw [Phase, htpc]
      refine ⟨by rw [hsys]; exact hfor, ⟨?_, fun q hq => ?_⟩, ?_, hkmem.trans hsame.kmem⟩
      · rwa [hsame.proc] at hunused
      · rw [hsys, ← hsame.proc]
        exact Function.update_of_ne hq ..
      · rw [hsys, ← hsame.container]
        rfl
  | kstack cr np | copy cr np =>
    rw [State.Plain, hpc] at hplain
    exact hplain.elim
  | resetAlloc cr np =>
    rw [Phase, hpc] at h
    have hsys := Containers.resetAlloc_step hpc hstep
    have htpc : t.sys.pc p = .copy cr np := by rw [hsys, pc_goto]
    refine Phase.passes (by rw [htpc]; rintro ⟨⟩) ?_
    rw [Phase, htpc]
    refine ⟨⟨h.unused, fun q hq => ?_⟩, fun hk => ?_, fun hk => ?_, fun hk => ?_, fun hk h0 pg => ?_⟩
    · rw [hsys]
      exact h.others q hq
    · rw [hsys]
      exact h.spent hk
    · rw [hsys]
      exact h.container hk
    · rw [hkmem]
      exact h.free hk
    · rw [hkmem, hsys]
      exact h.count hk h0 pg
  | list cr np =>
    rw [State.Plain, hpc] at hplain
    obtain ⟨x, -, hsys⟩ := Containers.listed_step hpc hplain hstep
    have htpc : t.sys.pc p = .fields cr np := by rw [hsys, pc_goto]
    refine Phase.passes (by rw [htpc]; rintro ⟨⟩) ?_
    rw [Phase, htpc]
    trivial
  | _ =>
    rw [hpc] at hc
    cases hc

/-- The answer of the allocator for a kernel stack touches one slot. -/
theorem allocKstack_others {y : Tables} {o : Option Page} {b : Bool}
    (h : x.allocKstack np o = .ok (b, y)) :
    (∀ q, q ≠ np → y.proc q = x.proc q) ∧ (b = false → (y.proc np).state = .unused) := by
  have hset : ∀ (z : Tables) (mem : Option Page), z.proc = x.proc → z.setKstack np mem = (b, y) →
      (∀ q, q ≠ np → y.proc q = x.proc q) ∧ (b = false → (y.proc np).state = .unused) := by
    intro z mem hz h
    cases mem with
    | none =>
      obtain ⟨rfl, rfl⟩ := Prod.mk.inj h
      refine ⟨fun q hq => ?_, fun _ => by simp⟩
      rw [← hz]
      exact Function.update_of_ne hq ..
    | some m =>
      obtain ⟨rfl, rfl⟩ := Prod.mk.inj h
      refine ⟨fun q hq => ?_, nofun⟩
      rw [← hz]
      exact Function.update_of_ne hq ..
  unfold Tables.allocKstack at h
  split_ifs at h
  · exact hset x o rfl (Except.ok.inj h)
  · split at h
    · cases h
    next mem z hz =>
      obtain ⟨c, i, -, -, -, rfl⟩ := Tables.conalloc_ok hz
      refine hset _ mem ?_ (Except.ok.inj h)
      rfl

/-- A reserve that has handed out a page shows it. -/
theorem spent_of_taken {y z : Sys} {e : Env} {o : Option Page} (h : Containers.Taken y e o z)
    (h0 : y.t.allocFor ≠ 0) : ∃ c, (z.t.container c).used ≠ (y.t.container c).used := by
  cases h with
  | kalloc hfor _ _ => exact absurd hfor h0
  | conalloc c i _ _ hused _ hstock =>
    refine ⟨c, ?_⟩
    have hc := congrArg Containers.Stock.used (congrFun hstock c)
    rw [Function.update_self] at hc
    have hz : (z.t.container c).used = i.val + 1 := hc
    have hy : (y.t.container c).used = i.val := hused
    rw [hz, hy]
    omega

/-- The slot that was taken is unused again. -/
theorem Begun.undo (h : Begun s u np) (hothers : ∀ q, q ≠ np → t.sys.t.proc q = u.sys.t.proc q)
    (hnp : (t.sys.t.proc np).state = .unused) : t.sys.state = s.sys.state := by
  funext q
  by_cases hq : q = np
  · rw [hq, h.unused]
    exact hnp
  · rw [Sys.state, hothers q hq, h.others q hq, Sys.state]

theorem unchanged_of (hfree : ∀ pg, t.kmem.count pg = s.kmem.count pg)
    (hstate : t.sys.state = s.sys.state) (hcon : t.sys.t.container = s.sys.t.container) :
    Unchanged s t := by
  refine ⟨List.perm_iff_count.2 fun pg => ?_, hstate, fun c => by rw [hcon], fun c => by rw [hcon],
    fun c => by rw [hcon]⟩
  have hpg := hfree pg
  unfold Kmem.count at hpg
  omega

/-- A page of a reserve has been spent, and the slot was there. -/
theorem settled_of_spent (hused : ∃ c, (t.sys.t.container c).used ≠ (s.sys.t.container c).used)
    (hnp : s.sys.state np = .unused) (hk : k ≠ 0) : Unchanged s t ↔ Undone s p k := by
  constructor
  · intro h
    obtain ⟨c, hc⟩ := hused
    exact absurd (h.used c) hc
  · rintro (hno | ⟨h0, -⟩)
    · exact absurd hnp (hno np)
    · exact absurd h0 hk

theorem kstack_passes {cr : Creator} {o : Option Page} {m : Kmem} (h : Phase s p k u)
    (hpc : u.sys.pc p = .kstack cr np)
    (hans : u.sys.t.allocFor = 0 ∧ Memory.kalloc u.kmem = .ok o m ∨
      u.sys.t.allocFor ≠ 0 ∧ o = none ∧ m = u.kmem)
    (hstep : Containers.step u.sys (.step p { noPages n with page := o }) = .ok t.sys)
    (hkmem : t.kmem = m) : Passes s p k t := by
  rw [Phase, hpc] at h
  obtain ⟨hfor, hbegun, hcon, hum⟩ := h
  obtain ⟨page, hnew⟩ := Containers.kstack_new hpc (Containers.running_of_step hstep).2
  have hspent : k ≠ 0 → ∃ c, (t.sys.t.container c).used ≠ (s.sys.t.container c).used := by
    intro hk
    rw [← hcon]
    exact spent_of_taken hnew.taken (by rw [hfor]; exact hk)
  -- the free list answers a call for no container
  have hkalloc : k = 0 → Memory.kalloc s.kmem = .ok o m := by
    intro hk
    obtain ⟨-, hm⟩ | ⟨hne, -⟩ := hans
    · rwa [hum] at hm
    · exact absurd (hfor.trans hk) hne
  have hanswer : ∀ {b : Bool} {x : Tables}, k = 0 → u.sys.t.allocKstack np o = .ok (b, x) →
      b = o.isSome ∧ (x.proc np).kstack = o ∧ x.container = s.sys.t.container := by
    intro b x hk hx
    obtain ⟨-, ⟨-, hb, hstack, hx⟩ | ⟨hne, -⟩⟩ := Tables.allocKstack_ok hx
    · exact ⟨hb, hstack, hx.trans hcon⟩
    · exact absurd (hfor.trans hk) hne
  obtain ⟨x, ⟨hx, hsys⟩ | ⟨hx, hsys⟩⟩ := Containers.allocKstack_step hpc hstep
  · obtain ⟨hothers, hunused⟩ := allocKstack_others hx
    have htab : t.sys.t = x := by rw [hsys]; rfl
    refine passes_of_back (by rw [hsys, pc_back]) ?_
    by_cases hk : k = 0
    · obtain ⟨hb, -, hxcon⟩ := hanswer hk hx
      have htakes : Takes 1 s.kmem o.isSome m := Memory.kalloc_takes.1 _ _ (hkalloc hk)
      rw [← hb] at htakes
      have hnone : o = none := by
        cases o with
        | none => rfl
        | some v => cases hb
      refine ⟨fun _ => .inr ⟨hk, ?_⟩, fun _ => unchanged_of (fun pg => ?_) ?_ (htab ▸ hxcon)⟩
      · have hlt : s.kmem.free < 1 := htakes
        omega
      · have hcount := Memory.kalloc_count.1 _ _ (hkalloc hk) pg
        rw [hnone, hit_none] at hcount
        rw [hkmem]
        omega
      · exact hbegun.undo (fun q hq => htab ▸ hothers q hq) (htab ▸ hunused rfl)
    · exact settled_of_spent (hspent hk) hbegun.unused hk
  · obtain ⟨hothers, -⟩ := allocKstack_others hx
    have htab : t.sys.t = x := by obtain hsys | hsys := hsys <;> rw [hsys] <;> rfl
    have hstacked : Stacked s t np k 0 := by
      refine ⟨⟨hbegun.unused, fun q hq => ?_⟩, hspent, fun hk => ?_, fun hk => ?_, fun hk _ pg => ?_⟩
      · rw [htab, hothers q hq, hbegun.others q hq]
      · exact htab ▸ (hanswer hk hx).2.2
      · have htakes : Takes 1 s.kmem o.isSome m := Memory.kalloc_takes.1 _ _ (hkalloc hk)
        rw [← (hanswer hk hx).1] at htakes
        rw [hkmem]
        exact htakes
      · have hcount := Memory.kalloc_count.1 _ _ (hkalloc hk) pg
        have hstack : (t.sys.core np).kstack = o := by
          show (t.sys.t.proc np).kstack = o
          rw [htab]
          exact (hanswer hk hx).2.1
        rw [hstack, hkmem, hcount]
    obtain hsys | hsys := hsys
    · have htpc : t.sys.pc p = .copy cr np := by rw [hsys, pc_goto]
      refine Phase.passes (by rw [htpc]; exact nofun) ?_
      rw [Phase, htpc]
      exact hstacked
    · have htpc : t.sys.pc p = .resetAlloc cr np := by rw [hsys, pc_goto]
      refine Phase.passes (by rw [htpc]; exact nofun) ?_
      rw [Phase, htpc]
      exact hstacked

theorem copied_passes {cr : Creator} {d d' : PageDir} {m : Kmem} (h : Phase s p k u)
    (hrun : s.sys.state p = .running) (hpc : u.sys.pc p = .copy cr np)
    (hcopy : Memory.copyuvm d (u.sys.core p).sz u.kmem = .ok (some d') m)
    (hstep : Containers.step u.sys (.step p (noPages n)) = .ok t.sys) (hkmem : t.kmem = m) :
    Passes s p k t := by
  rw [Phase, hpc] at h
  have hsys := Containers.copied_step hpc rfl hstep
  have htpc : t.sys.pc p = .list cr np := by rw [hsys, pc_goto]
  refine Phase.passes (by rw [htpc]; exact nofun) ?_
  rw [Phase, htpc]
  have hsz : (u.sys.core p).sz = (s.sys.core p).sz := h.sz hrun
  have htakes : Takes (copyPages (s.sys.core p).sz) u.kmem true m := by
    rw [← hsz]
    exact Memory.copyuvm_takes.1 _ _ hcopy
  refine ⟨⟨h.unused, fun q hq => ?_⟩, fun hk => ?_, fun hk => ?_, fun hk => ?_, fun hk h0 => ?_⟩
  · rw [hsys]
    exact h.others q hq
  · rw [hsys]
    exact h.spent hk
  · rw [hsys]
    exact h.container hk
  · have hfree := h.free hk
    have hu : u.kmem.free = m.free + copyPages (s.sys.core p).sz := htakes
    rw [hkmem]
    omega
  · have hpos : 0 < copyPages (s.sys.core p).sz := Memory.copyPages_pos _
    omega

/-- When the slot is given back the free list decides. -/
theorem settled_of_abandon {r : ℤ} {taken : ℕ} (h : Stacked s u np k taken)
    (hsys : t.sys = u.sys.back p r (u.sys.t.abandon np))
    (hfree : k = 0 → (t.kmem.freelist.Perm s.kmem.freelist ↔
      s.kmem.free < 1 + copyPages (s.sys.core p).sz)) : Passes s p k t := by
  refine passes_of_back (by rw [hsys, pc_back]) ?_
  have hcon : t.sys.t.container = u.sys.t.container := by rw [hsys]; rfl
  by_cases hk : k = 0
  · constructor
    · intro hsame
      exact .inr ⟨hk, (hfree hk).1 hsame.free⟩
    · rintro (hno | ⟨-, hlt⟩)
      · exact absurd h.unused (hno np)
      · have hcon' : t.sys.t.container = s.sys.t.container := hcon.trans (h.container hk)
        refine ⟨(hfree hk).2 hlt, h.undo (fun q hq => ?_) ?_, fun c => by rw [hcon'],
          fun c => by rw [hcon'], fun c => by rw [hcon']⟩
        · rw [hsys]
          exact Function.update_of_ne hq ..
        · rw [hsys]
          show ((u.sys.t.abandon np).proc np).state = .unused
          rw [Tables.abandon, Tables.setProc_self]
  · exact settled_of_spent (hcon ▸ h.spent hk) h.unused hk

theorem notCopied_passes {cr : Creator} {d : PageDir} {m m' : Kmem} (h : Phase s p k u)
    (hrun : s.sys.state p = .running) (hpc : u.sys.pc p = .copy cr np)
    (hcopy : Memory.copyuvm d (u.sys.core p).sz u.kmem = .ok none m)
    (hkfree : Memory.kfree (u.stack np) m = .ok ⟨⟩ m')
    (hstep : Containers.step u.sys (.step p { noPages n with copied := false }) = .ok t.sys)
    (hkmem : t.kmem = m') : Passes s p k t := by
  rw [Phase, hpc] at h
  have hsys := Containers.notCopied_step hpc rfl hstep
  refine settled_of_abandon h hsys fun hk => ⟨fun _ => ?_, fun _ => List.perm_iff_count.2 fun pg => ?_⟩
  · have htakes : Takes (copyPages (s.sys.core p).sz) u.kmem false m := by
      rw [← h.sz hrun]
      exact Memory.copyuvm_takes.1 _ _ hcopy
    have hlt : u.kmem.free < copyPages (s.sys.core p).sz := htakes
    have hfree := h.free hk
    omega
  · have hcount := h.count hk rfl pg
    have hcopied := Memory.copyuvm_count.1 _ _ hcopy pg
    have hfreed : m'.count pg = m.count pg + hit (u.sys.core np).kstack pg := kfree_stack hkfree pg
    have hnone : dirCount none pg = 0 := rfl
    rw [hnone] at hcopied
    rw [hkmem]
    unfold Kmem.count at hcount hcopied hfreed
    omega

theorem insert_full {cr : Creator} {y : Tables} (h : cr.insert x p np = .ok (false, y)) : y = x := by
  have hinsert : ∀ c, x.insertProcess c np = .ok (false, y) → y = x := by
    intro c hc
    obtain ⟨-, hy⟩ | ⟨_, _, hb, -⟩ := Tables.insertProcess_ok hc
    · exact hy
    · cases hb
  cases cr with
  | join c pp => exact hinsert c h
  | fork =>
    simp only [Creator.insert, Tables.forkInsert] at h
    split_ifs at h
    · exact hinsert _ h
    · cases h

theorem kfree_free {v : Page} {m m' : Kmem} (h : Memory.kfree v m = .ok ⟨⟩ m') :
    m'.free = m.free + 1 := by
  simp only [Memory.kfree, run_get_bind] at h
  split_ifs at h
  · cases h
  · cases h
    exact List.length_cons

theorem full_passes {cr : Creator} {m : Kmem} (h : Phase s p k u)
    (hpc : u.sys.pc p = .list cr np) (hfull : cr.insert u.sys.t p np = .ok (false, x))
    (hkfree : Memory.kfree (u.stack np) u.kmem = .ok ⟨⟩ m)
    (hstep : Containers.step u.sys (.step p (noPages n)) = .ok t.sys)
    (hkmem : t.kmem = m) : Passes s p k t := by
  rw [Phase, hpc] at h
  obtain rfl := insert_full hfull
  have hsys := Containers.full_step hpc hfull hstep
  -- the address space of the child is lost
  refine settled_of_abandon h hsys fun hk => ⟨fun hperm => ?_, fun hlt => ?_⟩
  · have hlen : t.kmem.free = s.kmem.free := hperm.length_eq
    have hfree := h.free hk
    have hpos : 0 < copyPages (s.sys.core p).sz := Memory.copyPages_pos _
    have hback := kfree_free hkfree
    rw [hkmem] at hlen
    omega
  · have hfree := h.free hk
    omega

/-- A section keeps the phase, or returns with the outcome. -/
theorem Phase.step (h : Phase s p k u) (hrun : s.sys.state p = .running)
    (hc : Creating (u.sys.pc p)) (ht : step u (.step p n) = .ok t) : Passes s p k t := by
  cases step_move ht with
  | calm b hstep hact hplain heq =>
    obtain hact | ⟨_, _, hact, rfl⟩ := hact
    · cases hact
    · cases hact
      exact calm_passes h hc (hplain p _ rfl) hstep heq
  | kstack _ np cr _ o m hact hpc hans hstep heq =>
    cases hact
    exact kstack_passes h hpc hans hstep (by rw [heq]; rfl)
  | copied _ np cr _ d d' m hact hpc _ hcopy hstep heq =>
    cases hact
    exact copied_passes h hrun hpc hcopy hstep (by rw [heq]; rfl)
  | notCopied _ np cr _ d m m' hact hpc _ hcopy hfree hstep heq =>
    cases hact
    exact notCopied_passes h hrun hpc hcopy hfree hstep (by rw [heq]; rfl)
  | full _ np cr _ m hact hpc hfull hfree hstep heq =>
    cases hact
    obtain ⟨x, hx⟩ := hfull
    exact full_passes h hpc hx hfree hstep (by rw [heq]; rfl)
  | reaped _ _ _ _ _ _ hact hpc | reserve _ _ _ _ hact hpc =>
    cases hact
    rw [hpc] at hc
    cases hc
  | growproc _ _ _ _ _ _ hact | exec _ _ _ _ _ hact | files _ hact => cases hact

/-! ### The whole call -/

theorem call_eq_ok (h : step s (.sys (.call p c)) = .ok t) :
    s.sys.state p = .running ∧ Containers.callStep s.sys p c = .ok t.sys ∧
      t = { s with sys := t.sys } := by
  unfold step at h
  dsimp only at h
  split at h
  · cases h
  next sys hsys =>
    cases h
    simp only [Containers.step] at hsys
    split_ifs at hsys with hp
    exact ⟨hp.1, hsys, rfl⟩

theorem call_phase (h : step s (.sys (.call p c)) = .ok t) : Phase s p (reserveOf s c) t := by
  obtain ⟨-, hcall, heq⟩ := call_eq_ok h
  have hkmem : t.kmem = s.kmem := by rw [heq]; rfl
  have hother : Creating (t.sys.pc p) = false → Phase s p (reserveOf s c) t := by
    intro hno
    unfold Phase
    cases hpc : t.sys.pc p with
    | setAlloc _ _ | alloc _ | kstack _ _ | resetAlloc _ _ | copy _ _ | list _ _ =>
      rw [hpc] at hno
      cases hno
    | _ => trivial
  cases c with
  | fork =>
    have hsys := (Except.ok.inj hcall).symm
    rw [Phase, hsys, pc_goto]
    exact ⟨rfl, hkmem, by rw [hsys]; rfl, by rw [hsys]; rfl⟩
  | join_container _ | leave_container =>
    have hsys := (Except.ok.inj hcall).symm
    rw [Phase, hsys, pc_goto]
    exact ⟨rfl, hkmem, by rw [hsys]; rfl, by rw [hsys]; rfl⟩
  | create_container | wait =>
    have hsys := (Except.ok.inj hcall).symm
    exact hother (by rw [hsys, pc_goto]; rfl)
  | kill _ | scheduler_log_on =>
    have hsys := (Except.ok.inj hcall).symm
    exact hother (by rw [hsys, pc_back]; rfl)
  | containerProcessNum _ =>
    simp only [Containers.callStep] at hcall
    split at hcall
    · cases hcall
    · have hsys := (Except.ok.inj hcall).symm
      exact hother (by rw [hsys, pc_back]; rfl)
  | exit =>
    simp only [Containers.callStep] at hcall
    split_ifs at hcall
    have hsys := (Except.ok.inj hcall).symm
    exact hother (by rw [hsys, pc_goto]; rfl)

/-- A call that fails leaves everything as it was just when there was no slot, or when the kernel
stack was to come from the free list and the memory did not suffice. -/
theorem fails_unchanged (h : Fails s p c t) : Unchanged s t ↔ Undone s p (reserveOf s c) := by
  obtain ⟨s', u, n, hcall, hreach, hc, hlast, hback⟩ := h
  obtain ⟨hrun, -, -⟩ := call_eq_ok hcall
  have hphase : Phase s p (reserveOf s c) u := by
    refine hreach.invariant (I := Phase s p (reserveOf s c)) ?_ ?_
    · rintro _ rfl
      exact call_phase hcall
    · rintro v a w hv ⟨hcv, n, rfl⟩ hw
      exact (hv.step hrun hcv hw).1
  exact (hphase.step hrun hc hlast).2 hback

/-! ### Runs -/

/-- `p` calls `c`, makes `k` sections and returns in the next one; the last state is tested. -/
def failsIn (s : State) (p : Slot) (c : Call) (k : ℕ) (test : State → Bool) : Bool :=
  match step s (.sys (.call p c)) with
  | .error _ => false
  | .ok s' => endsIn step (Alone p) (fun u => Creating (u.sys.pc p) && match step u (.step p 0) with
    | .error _ => false
    | .ok t => decide (t.sys.pc p = .user) && test t) s' (List.replicate k (.step p 0))

theorem Fails.of_failsIn {m : ℕ} {test : State → Bool} (h : failsIn s p c m test = true) :
    ∃ t, Fails s p c t ∧ test t = true := by
  unfold failsIn at h
  split at h
  · cases h
  next s' hs' =>
    have hstart : Reach step (Alone p) (· = s') s' := .start rfl
    obtain ⟨u, hu, hlast⟩ := hstart.of_endsIn _ _ h
    simp only [Bool.and_eq_true] at hlast
    obtain ⟨hc, hlast⟩ := hlast
    split at hlast
    · cases hlast
    next t ht =>
      simp only [Bool.and_eq_true, decide_eq_true_eq] at hlast
      exact ⟨t, ⟨s', u, 0, hs', hu, hc, ht, hlast.1⟩, hlast.2⟩

/-- Memory runs out while `fork` copies the address space of the first process. -/
theorem fork_unchanged : ∃ s t : State, Reach step always Booted s ∧ Fails s 0 .fork t ∧
    t.sys.ret 0 = -1 ∧ Unchanged s t := by
  have hboot : Reach step always Booted smallBoot := .start booted_smallBoot
  obtain ⟨s, hs, ht⟩ := hboot.of_endsIn
    (fun s => decide (s.sys.t.allocFor = 0 ∧ s.kmem.free < 1 + copyPages (s.sys.core 0).sz) &&
      failsIn s 0 .fork 2 fun t => decide (t.sys.ret 0 = -1))
    ((Containers.turns 2).map lift) (by decide +kernel)
  rw [Bool.and_eq_true, decide_eq_true_eq] at ht
  obtain ⟨hlow, hfails⟩ := ht
  obtain ⟨t, ht, hret⟩ := Fails.of_failsIn hfails
  exact ⟨s, t, hs, ht, of_decide_eq_true hret, (fails_unchanged ht).2 (.inr hlow)⟩

/-- The first process makes container 1 and then there is not enough memory for it to join: the
call returns -1, and a page of the reserve counts as used. -/
theorem join_changes : ∃ s t : State, Reach step always Booted s ∧
    Fails s 0 (.join_container 1) t ∧ t.sys.ret 0 = -1 ∧ ¬ Unchanged s t := by
  have hboot : Reach step always Booted smallBoot := .start booted_smallBoot
  obtain ⟨s, hs, ht⟩ := hboot.of_endsIn
    (fun s => decide ((s.sys.t.container 1).used = 0) &&
      failsIn s 0 (.join_container 1) 4 fun t =>
        decide (t.sys.ret 0 = -1 ∧ (t.sys.t.container 1).used = 1))
    ((Containers.turns 2 ++ .call 0 .create_container :: Containers.sections 0 2).map lift)
    (by decide +kernel)
  rw [Bool.and_eq_true, decide_eq_true_eq] at ht
  obtain ⟨hzero, hfails⟩ := ht
  obtain ⟨t, ht, hend⟩ := Fails.of_failsIn hfails
  obtain ⟨hret, hone⟩ := of_decide_eq_true hend
  refine ⟨s, t, hs, ht, hret, fun h => ?_⟩
  have hused := h.used 1
  rw [hzero, hone] at hused
  cases hused

end Xv6Container.Kernel
