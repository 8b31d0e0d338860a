import Xv6Container.Containers.Listing
import Xv6Container.Files.Inodes
import Xv6Container.Files.Pages
import Xv6Container.Kernel.Moves

/-! Who owns a page. The owners of a page are the places that hold it: the free list, the pipes,
the kernel stacks, the address spaces and the part of the reserves that has not been handed out.
No step gives a page a second owner. -/

namespace Xv6Container.Kernel

open Lib
open Containers (Sys Env Slot Page Creator Core Stock NCONT MCONT)
open Memory (Kmem PageDir Program hit hit_none hit_nonneg dirCount)

variable {s t : State} {x y : Sys} {a : Act} {p q np : Slot} {n : ℤ} {pg : Page}

/-! ### Owners -/

/-- The places of a page among the pages of a reserve that have not been handed out. -/
def left (k : Stock) (pg : Page) : ℤ :=
  ∑ i : Fin MCONT, if k.used ≤ i.val then hit (k.startAddr i) pg else 0

def kstacks (x : Sys) (pg : Page) : ℤ := ∑ q, hit (x.core q).kstack pg

def reserves (x : Sys) (pg : Page) : ℤ := ∑ c, left (x.stock c) pg

def spaces (pgdir : Slot → Option PageDir) (pg : Page) : ℤ := ∑ q, dirCount (pgdir q) pg

/-- The owners of a page. -/
def State.owners (s : State) (pg : Page) : ℤ :=
  s.files.held pg + kstacks s.sys pg + spaces s.pgdir pg + reserves s.sys pg

theorem dirCount_nonneg (o : Option PageDir) (pg : Page) : 0 ≤ dirCount o pg := by
  cases o with
  | none => exact le_refl 0
  | some d =>
    refine add_nonneg (add_nonneg (hit_nonneg _ _) (Finset.sum_nonneg fun i _ => ?_))
      (Finset.sum_nonneg fun _ _ => hit_nonneg _ _)
    cases d.user i with
    | none => exact le_refl 0
    | some t => exact add_nonneg (hit_nonneg _ _) (Finset.sum_nonneg fun _ _ => hit_nonneg _ _)

theorem left_nonneg (k : Stock) (pg : Page) : 0 ≤ left k pg := by
  refine Finset.sum_nonneg fun i _ => ?_
  split_ifs
  · exact hit_nonneg _ _
  · exact le_refl 0

theorem kstacks_nonneg (x : Sys) (pg : Page) : 0 ≤ kstacks x pg :=
  Finset.sum_nonneg fun _ _ => hit_nonneg _ _

theorem reserves_nonneg (x : Sys) (pg : Page) : 0 ≤ reserves x pg :=
  Finset.sum_nonneg fun _ _ => left_nonneg _ _

theorem spaces_nonneg (f : Slot → Option PageDir) (pg : Page) : 0 ≤ spaces f pg :=
  Finset.sum_nonneg fun _ _ => dirCount_nonneg _ _

theorem held_nonneg (s : Files.State) (pg : Page) : 0 ≤ s.held pg := by
  refine add_nonneg (Int.natCast_nonneg _) ?_
  split_ifs
  · exact Int.one_nonneg
  · exact le_refl 0

/-! ### Changes of one owner -/

theorem kstacks_congr (h : ∀ q, (y.core q).kstack = (x.core q).kstack) : kstacks y = kstacks x := by
  funext pg
  simp only [kstacks, h]

theorem kstacks_update {v : Core} (h : y.core = Function.update x.core np v) (pg : Page) :
    kstacks y pg = kstacks x pg - hit (x.core np).kstack pg + hit v.kstack pg := by
  unfold kstacks
  rw [h]
  exact sum_update (fun v : Core => hit v.kstack pg) x.core np v

theorem reserves_congr (h : y.stock = x.stock) : reserves y = reserves x := by
  funext pg
  simp only [reserves, h]

theorem reserves_update {c : Fin NCONT} {v : Stock} (h : y.stock = Function.update x.stock c v)
    (pg : Page) : reserves y pg = reserves x pg - left (x.stock c) pg + left v pg := by
  unfold reserves
  rw [h]
  exact sum_update (fun v => left v pg) x.stock c v

theorem spaces_update (f : Slot → Option PageDir) (np : Slot) (o : Option PageDir) (pg : Page) :
    spaces (Function.update f np o) pg = spaces f pg - dirCount (f np) pg + dirCount o pg :=
  sum_update (fun o => dirCount o pg) f np o

/-- The next page of a reserve is handed out. -/
theorem left_next {k : Stock} {i : Fin MCONT} (h : k.used = i.val) :
    left { k with used := i.val + 1 } pg = left k pg - hit (k.startAddr i) pg := by
  have hsum : left k pg = ∑ j : Fin MCONT, ((if (i.val : ℤ) + 1 ≤ j.val then
      hit (k.startAddr j) pg else 0) + if j = i then hit (k.startAddr i) pg else 0) := by
    refine Finset.sum_congr rfl fun j _ => ?_
    rw [h]
    by_cases hji : j = i
    · rw [hji, if_pos (le_refl _), if_pos rfl, if_neg (by omega), zero_add]
    · have hne : j.val ≠ i.val := Fin.val_ne_of_ne hji
      rw [if_neg hji, add_zero]
      by_cases hle : (i.val : ℤ) ≤ j.val
      · rw [if_pos hle, if_pos (by omega)]
      · rw [if_neg hle, if_neg (by omega)]
  rw [hsum, Finset.sum_add_distrib, Finset.sum_ite_eq' Finset.univ i, if_pos (Finset.mem_univ i)]
  exact (add_sub_cancel_right _ _).symm

/-- A reserve holds no more than the pages that went into it. -/
theorem left_le (k : Stock) (pg : Page) : left k pg ≤ ∑ i, hit (k.startAddr i) pg := by
  refine Finset.sum_le_sum fun i _ => ?_
  split_ifs
  · exact le_refl _
  · exact hit_nonneg _ _

/-! ### The allocator -/

/-- A kernel stack that is freed is not `NULL`. -/
theorem kfree_stack {o : Option Page} {m m' : Kmem} (h : Memory.kfree (o.getD 0) m = .ok ⟨⟩ m')
    (pg : Page) : m'.count pg = m.count pg + hit o pg := by
  cases o with
  | none =>
    simp only [Memory.kfree, run_get_bind, Option.getD_none] at h
    rw [if_pos (.inr (.inr (by decide)))] at h
    cases h
  | some v => exact (Memory.kfree_count (v := v)).1 _ _ h pg

theorem kallocs_count {k : ℕ} {m : Kmem} : Ends (fun pages m' => ∀ pg,
    ∑ i, hit (pages i) pg + m'.count pg = m.count pg) (fun _ => True) (kallocs k m) := by
  induction k generalizing m with
  | zero => exact ends_ok.2 fun pg => by simp
  | succ k ih =>
    refine Memory.kalloc_count.bind fun o m₁ h₁ => ?_
    refine ih.bind fun pages m₂ h₂ => ends_ok.2 fun pg => ?_
    rw [Fin.sum_univ_succ, Fin.cons_zero]
    simp only [Fin.cons_succ]
    have hpg := h₁ pg
    have hpg' := h₂ pg
    omega

/-! ### One step -/

/-- Only the free list changes among the files. -/
theorem held_kmem {f g : Files.State} {m : Kmem} (h : g = { f with kmem := m }) :
    g.held pg = f.held pg - f.kmem.count pg + m.count pg := by
  rw [h, Files.State.held, Files.State.held]
  dsimp only
  omega

/-- The kernel stack of a new process has come from the free list or from a reserve. -/
theorem owners_kstack {k : Creator} {o : Option Page} {m : Kmem}
    (hpc : s.sys.pc p = .kstack k np)
    (hans : s.sys.t.allocFor = 0 ∧ Memory.kalloc s.kmem = .ok o m ∨
      s.sys.t.allocFor ≠ 0 ∧ o = none ∧ m = s.kmem)
    (hstep : Containers.step s.sys (.step p { noPages n with page := o }) = .ok y)
    (pg : Page) :
    m.count pg + kstacks y pg + reserves y pg ≤
      s.kmem.count pg + kstacks s.sys pg + reserves s.sys pg := by
  obtain ⟨page, hnew⟩ := Containers.kstack_new hpc (Containers.running_of_step hstep).2
  have hstacks := kstacks_update hnew.core pg
  have hold := hit_nonneg (s.sys.core np).kstack pg
  dsimp only at hstacks
  cases hnew.taken with
  | kalloc hfor hpage hstock =>
    obtain ⟨-, hkalloc⟩ | ⟨hne, -⟩ := hans
    · have hcount := Memory.kalloc_count.1 _ _ hkalloc pg
      rw [reserves_congr hstock]
      dsimp only at hpage
      rw [hpage] at hstacks
      omega
    · exact absurd hfor hne
  | conalloc c i hne hfor hused hpage hstock =>
    obtain ⟨hzero, -⟩ | ⟨-, -, rfl⟩ := hans
    · exact absurd hzero hne
    · have hres := reserves_update hstock pg
      rw [left_next hused] at hres
      rw [hpage] at hstacks
      omega

/-- A slot gives its kernel stack back. -/
theorem kstacks_free {m m' : Kmem} (hcore : y.core = Function.update x.core np
    { x.core np with kstack := none })
    (h : Memory.kfree ((x.core np).kstack.getD 0) m = .ok ⟨⟩ m') (pg : Page) :
    m'.count pg + kstacks y pg = m.count pg + kstacks x pg := by
  have hfreed := kfree_stack h pg
  have hstacks := kstacks_update hcore pg
  rw [hit_none] at hstacks
  omega

theorem core_abandon (p np : Slot) (r : ℤ) {z : Containers.Tables} (h : Containers.Still x.t z) :
    (x.back p r (z.abandon np)).core = Function.update x.core np
      { x.core np with kstack := none } ∧ (x.back p r (z.abandon np)).stock = x.stock := by
  refine ⟨?_, funext h.stock⟩
  have hsame : (fun q => (z.proc q).core) = x.core := funext h.core
  have hcore : (x.back p r (z.abandon np)).core = Function.update (fun q => (z.proc q).core) np
      { (z.proc np).core with kstack := none } :=
    Containers.column_update Containers.Proc.core (p := np) rfl rfl
  rw [hcore, hsame, h.core]
  rfl

/-- No page gets an owner more in a step. -/
theorem owners_le (hm : Move s a t) (hs : ∀ pg, s.owners pg ≤ 1) (pg : Page) :
    t.owners pg ≤ s.owners pg := by
  cases hm with
  | calm b hstep hact hplain heq =>
    obtain ⟨hcore, hstock⟩ := calm_columns hstep hplain
    rw [heq]
    unfold State.owners
    rw [kstacks_congr hcore, reserves_congr hstock]
  | kstack p np k n o m hact hpc hans hstep heq =>
    have hle := owners_kstack hpc hans hstep pg
    have hfiles : t.files = { s.files with kmem := m } := by rw [heq]; rfl
    have hpgdir : t.pgdir = s.pgdir := by rw [heq]; rfl
    unfold State.owners
    rw [held_kmem hfiles, hpgdir]
    unfold State.kmem at hle
    omega
  | copied p np k n d d' m hact hpc hdir hcopy hstep heq =>
    have hcount := Memory.copyuvm_count.1 _ _ hcopy pg
    have hsys := Containers.copied_step hpc rfl hstep
    have hfiles : t.files = { s.files with kmem := m } := by rw [heq]; rfl
    have hpgdir : t.pgdir = Function.update s.pgdir np (some d') := by rw [heq]
    have hold := dirCount_nonneg (s.pgdir np) pg
    unfold State.owners
    rw [held_kmem hfiles, hpgdir, spaces_update, hsys]
    show _ + kstacks s.sys pg + _ + reserves s.sys pg ≤ _
    unfold State.kmem at hcount
    omega
  | notCopied p np k n d m m' hact hpc hdir hcopy hfree hstep heq =>
    have hcount := Memory.copyuvm_count.1 _ _ hcopy pg
    have hsys := Containers.notCopied_step hpc rfl hstep
    obtain ⟨hcore, hstock⟩ := core_abandon p np (-1) (.refl s.sys.t)
    rw [← hsys] at hcore hstock
    have hstacks := kstacks_free hcore hfree pg
    have hfiles : t.files = { s.files with kmem := m' } := by rw [heq]; rfl
    have hpgdir : t.pgdir = Function.update s.pgdir np none := by rw [heq]
    have hold := dirCount_nonneg (s.pgdir np) pg
    have hnone : dirCount none pg = 0 := rfl
    unfold State.owners
    rw [held_kmem hfiles, hpgdir, spaces_update, reserves_congr hstock, hnone]
    rw [hnone] at hcount
    unfold State.kmem at hcount
    omega
  | full p np k n m hact hpc hfull hfree hstep heq =>
    obtain ⟨z, hz⟩ := hfull
    have hsys := Containers.full_step hpc hz hstep
    obtain ⟨hcore, hstock⟩ := core_abandon p np (-2) (.insert hz)
    rw [← hsys] at hcore hstock
    have hstacks := kstacks_free hcore hfree pg
    have hfiles : t.files = { s.files with kmem := m } := by rw [heq]; rfl
    have hpgdir : t.pgdir = s.pgdir := by rw [heq]; rfl
    unfold State.owners
    rw [held_kmem hfiles, hpgdir, reserves_congr hstock]
    unfold State.kmem at hstacks
    omega
  | reaped p q n d m m' hact hpc hscan hdir hstack hfree hstep heq =>
    have hsys := Containers.reap_step hpc hscan hstep
    have hcore : t.sys.core = Function.update s.sys.core q
        { s.sys.core q with kstack := none, parent := none, killed := false } := by
      rw [hsys]
      exact Containers.column_update Containers.Proc.core (p := q) rfl rfl
    have hstacks := kstacks_update hcore pg
    rw [hit_none] at hstacks
    have hfreed : m.count pg = s.kmem.count pg + hit (s.sys.core q).kstack pg := kfree_stack hstack pg
    have hcount := Memory.freevm_count.1 _ _ hfree pg
    have hstock : t.sys.stock = s.sys.stock := by rw [hsys]; rfl
    have hfiles : t.files = { s.files with kmem := m' } := by rw [heq]; rfl
    have hpgdir : t.pgdir = Function.update s.pgdir q none := by rw [heq]
    have hnone : dirCount none pg = 0 := rfl
    have hsome : dirCount (s.pgdir q) pg = d.count pg := by rw [hdir]; rfl
    unfold State.owners
    rw [held_kmem hfiles, hpgdir, spaces_update, reserves_congr hstock, hnone, hsome]
    unfold State.kmem at hfreed
    omega
  | reserve p n pages m hact hpc htake hstep heq =>
    have hcount := kallocs_count.1 _ _ htake pg
    have hfiles : t.files = { s.files with kmem := m } := by rw [heq]; rfl
    have hpgdir : t.pgdir = s.pgdir := by rw [heq]; rfl
    obtain ⟨c, _, hcore, hstock⟩ := reserve_columns hpc hstep
    have hstacks : kstacks t.sys = kstacks s.sys := kstacks_congr fun q => by rw [hcore]
    have hres := reserves_update hstock pg
    have hle := left_le { s.sys.stock c with startAddr := pages } pg
    have hold := left_nonneg (s.sys.stock c) pg
    dsimp only [noPages] at hres hle
    unfold State.owners
    rw [held_kmem hfiles, hpgdir, hres, hstacks]
    unfold State.kmem at hcount
    omega
  | growproc p n d d' o m hact huser hdir hgrow heq =>
    have hcount := Memory.growproc_count.1 _ _ hgrow pg
    have hfiles : t.files = { s.files with kmem := m } := by rw [heq]; rfl
    have hpgdir : t.pgdir = Function.update s.pgdir p (some d') := by rw [heq]
    have hsome : dirCount (s.pgdir p) pg = d.count pg := by rw [hdir]; rfl
    have hnew : dirCount (some d') pg = d'.count pg := rfl
    have hsys : t.sys = resize s.sys p o := by rw [heq]
    unfold State.owners
    rw [held_kmem hfiles, hpgdir, spaces_update, hsys, kstacks_congr (resize_kstack _ _ _),
      reserves_congr (resize_columns _ _ _).2, hsome, hnew]
    unfold State.kmem at hcount
    dsimp only at hcount
    omega
  | exec p prog d o m hact huser hdir hexec heq =>
    have hcount := Memory.exec_count.1 _ _ hexec pg
    have hfiles : t.files = { s.files with kmem := m } := by rw [heq]; rfl
    have hsome : dirCount (s.pgdir p) pg = d.count pg := by rw [hdir]; rfl
    have hsys : t.sys = resize s.sys p (o.map Prod.snd) := by rw [heq]
    have hspaces : spaces t.pgdir pg = spaces s.pgdir pg - d.count pg +
        (o.elim d Prod.fst).count pg := by
      rw [heq]
      cases o with
      | none => exact (sub_add_cancel _ _).symm
      | some x =>
        show spaces (Function.update s.pgdir p (some x.1)) pg = _
        rw [spaces_update, hsome]
        rfl
    unfold State.owners
    rw [held_kmem hfiles, hspaces, hsys, kstacks_congr (resize_kstack _ _ _),
      reserves_congr (resize_columns _ _ _).2]
    unfold State.kmem at hcount
    omega
  | files c hact hmem hstep heq =>
    have hheld : ∀ pg, s.files.held pg ≤ 1 := by
      intro pg
      have hle := hs pg
      have h₁ := kstacks_nonneg s.sys pg
      have h₂ := spaces_nonneg s.pgdir pg
      have h₃ := reserves_nonneg s.sys pg
      unfold State.owners at hle
      omega
    have hfiles := Files.step_held hheld hmem hstep
    rw [heq]
    unfold State.owners
    rw [hfiles]

/-! ### Runs -/

theorem userinit_count {m : Kmem} : Ends (fun x m' => ∀ pg,
    hit (some x.1) pg + x.2.count pg + m'.count pg = m.count pg) (fun _ => True) (userinit m) := by
  refine Memory.kalloc_count.bind fun o m₁ h₁ => ?_
  cases o with
  | none => exact ends_error.2 trivial
  | some kstack =>
    refine Memory.setupkvm_count.bind fun o m₂ h₂ => ?_
    cases o with
    | none => exact ends_error.2 trivial
    | some d =>
      have hinit : Ends (fun d' m' => ∀ pg, d'.count pg + m'.count pg = d.count pg + m₂.count pg)
          (fun _ => True) (inituvm d m₂) := by
        refine Memory.kalloc_count.bind fun o m₃ h₃ => ?_
        cases o with
        | none => exact ends_error.2 trivial
        | some mem =>
          refine Memory.mappages_count.bind fun x m₄ h₄ => ?_
          obtain ⟨d', b⟩ := x
          cases b with
          | false => exact ends_error.2 trivial
          | true =>
            refine ends_ok.2 fun pg => ?_
            have hpg := h₃ pg
            have hpg' := h₄ pg
            rw [if_pos rfl] at hpg'
            dsimp only at hpg'
            omega
      refine hinit.bind fun d' m₃ h₃ => ends_ok.2 fun pg => ?_
      have hpg := h₁ pg
      have hpg' := h₂ pg
      have hpg'' := h₃ pg
      change d.count pg + _ = _ at hpg'
      dsimp only
      omega

/-- The columns of the first process. -/
theorem boot_core {d : PageDir} {m : Kmem} {node : Fs.Inum → Names.Node} {kstack : Page}
    {z : Containers.Tables} (hz : Containers.Tables.userinit kstack = .ok z) :
    (boot d m node z).sys.core = Function.update (fun _ => Containers.Tables.zeroProc.core) 0
      { Containers.Tables.zeroProc.core with sz := 4096, kstack := some kstack } := by
  obtain ⟨z', hz', -, -, -, -, hproc, -⟩ := Containers.Tables.userinit_ok kstack
  cases Except.ok.inj (hz.symm.trans hz')
  exact Containers.column_update Containers.Proc.core hproc rfl

/-- The reserves are empty. -/
theorem boot_startAddr {d : PageDir} {m : Kmem} {node : Fs.Inum → Names.Node} {kstack : Page}
    {z : Containers.Tables} (hz : Containers.Tables.userinit kstack = .ok z) (c : Fin NCONT)
    (i : Fin MCONT) : ((boot d m node z).sys.stock c).startAddr i = none := by
  obtain ⟨z', hz', -, -, -, -, -, hcon⟩ := Containers.Tables.userinit_ok kstack
  cases Except.ok.inj (hz.symm.trans hz')
  show (z.container c).startAddr i = none
  rw [hcon, Function.update_apply]
  split_ifs
  · rfl
  · rfl

theorem Booted.owners_le (h : Booted s) (pg : Page) : s.owners pg ≤ 1 := by
  obtain ⟨kmem, kmem', kstack, d, node, t, hnodup, hinit, -, ht, rfl⟩ := h
  have hcore := @boot_core d kmem' node kstack t ht
  have hcount := userinit_count.1 _ _ hinit pg
  have hstacks : kstacks (boot d kmem' node t).sys pg = hit (some kstack) pg := by
    have hsum := sum_update (fun v : Core => hit v.kstack pg)
      (fun _ : Slot => Containers.Tables.zeroProc.core) 0
      { Containers.Tables.zeroProc.core with sz := 4096, kstack := some kstack }
    have hnone : Containers.Tables.zeroProc.core.kstack = none := rfl
    simp only [hnone, hit_none, Finset.sum_const_zero, sub_self, zero_add] at hsum
    unfold kstacks
    rw [hcore]
    exact hsum
  have hspaces : spaces (boot d kmem' node t).pgdir pg = d.count pg := by
    have hsum := spaces_update (fun _ => none) 0 (some d) pg
    have hnone : spaces (fun _ => none) pg = 0 := Finset.sum_eq_zero fun _ _ => rfl
    rw [hnone] at hsum
    refine hsum.trans ?_
    show 0 - 0 + d.count pg = _
    omega
  have hres : reserves (boot d kmem' node t).sys pg = 0 := by
    refine Finset.sum_eq_zero fun c _ => Finset.sum_eq_zero fun i _ => ?_
    rw [boot_startAddr ht, hit_none, ite_self]
  have hheld : (boot d kmem' node t).files.held pg = kmem'.count pg := add_zero _
  have hone : kmem.count pg ≤ 1 := by
    have hle := List.nodup_iff_count_le_one.1 hnodup pg
    unfold Kmem.count
    omega
  unfold State.owners
  rw [hstacks, hspaces, hres, hheld]
  dsimp only at hcount
  omega

/-- In every run every page has at most one owner. -/
theorem one_owner (hs : Reach step always Booted s) (pg : Page) : s.owners pg ≤ 1 := by
  have hinv : ∀ pg, s.owners pg ≤ 1 := by
    refine hs.invariant (I := fun s => ∀ pg, s.owners pg ≤ 1) (fun s h => h.owners_le) ?_
    intro s a t hs _ ht pg
    exact (owners_le (step_move ht) hs pg).trans (hs pg)
  exact hinv pg

/-! ### A run -/

/-- A free list of `k` pages. -/
def freeKmem (k : ℕ) : Kmem := ⟨(List.range k).map fun i => 0x80400000 + 4096 * i, 0x80100000⟩

theorem nodup_freeKmem (k : ℕ) : (freeKmem k).freelist.Nodup := by
  refine List.Nodup.map (fun i j h => ?_) List.nodup_range
  exact Nat.eq_of_mul_eq_mul_left (by decide) (Nat.add_left_cancel h)

def firstKmem : Kmem := freeKmem 500

/-- The machine after `userinit` has returned. -/
def started (x : Page × PageDir) (m : Kmem) : State :=
  match Containers.Tables.userinit x.1 with
  | .ok t => boot x.2 m Names.boot.node t
  | .error _ => boot x.2 m Names.boot.node Containers.Tables.zero

/-- A machine with 500 pages and an empty root directory. -/
def firstBoot : State :=
  match userinit firstKmem with
  | .ok x m => started x m
  | .error _ m => started (0, ⟨0, fun _ => none, fun _ => none⟩) m

theorem booted_started {x : Page × PageDir} {kmem m : Kmem} (hnodup : kmem.freelist.Nodup)
    (hinit : userinit kmem = .ok x m) : Booted (started x m) := by
  obtain ⟨t, ht, -⟩ := Containers.Tables.userinit_ok x.1
  refine ⟨kmem, m, x.1, x.2, Names.boot.node, t, hnodup, hinit, Files.disk_boot, ht, ?_⟩
  simp only [started, ht]

theorem booted_firstBoot : Booted firstBoot := by
  have hok : (match userinit firstKmem with
    | .ok _ _ => true
    | .error _ _ => false) = true := by decide +kernel
  unfold firstBoot
  cases hinit : userinit firstKmem with
  | ok x m => exact booted_started (nodup_freeKmem 500) hinit
  | error r m =>
    rw [hinit] at hok
    cases hok

/-- A machine with 88 pages. -/
def smallBoot : State :=
  match userinit (freeKmem 88) with
  | .ok x m => started x m
  | .error _ m => started (0, ⟨0, fun _ => none, fun _ => none⟩) m

theorem booted_smallBoot : Booted smallBoot := by
  have hok : (match userinit (freeKmem 88) with
    | .ok _ _ => true
    | .error _ _ => false) = true := by decide +kernel
  unfold smallBoot
  cases hinit : userinit (freeKmem 88) with
  | ok x m => exact booted_started (nodup_freeKmem 88) hinit
  | error r m =>
    rw [hinit] at hok
    cases hok

/-- A run of the tables, with the sections taking their pages from the allocator. -/
def lift : Containers.Act → Act
  | .step p e => .step p e.nullPid
  | a => .sys a

/-- A child joins container 1 and runs on a page of its reserve, and the first process makes a
pipe. -/
theorem one_owner_joined : ∃ s : State, (∀ pg, s.owners pg ≤ 1) ∧ s.sys.containerID 2 = 1 ∧
    (s.sys.core 2).kstack = (s.sys.stock 1).startAddr 0 ∧ s.files.log.length = 1 := by
  have hboot : Reach step always Booted firstBoot := .start booted_firstBoot
  obtain ⟨s, hs, ht⟩ := hboot.of_endsIn
    (fun s => decide (s.sys.containerID 2 = 1 ∧
      (s.sys.core 2).kstack = (s.sys.stock 1).startAddr 0 ∧ s.files.log.length = 1))
    (Containers.joinRun.map lift ++ [.files (.pipe 0)]) (by decide +kernel)
  exact ⟨s, one_owner hs, of_decide_eq_true ht⟩

end Xv6Container.Kernel
