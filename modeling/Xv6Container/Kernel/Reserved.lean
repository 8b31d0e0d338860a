import Mathlib.Data.List.ReduceOption
import Xv6Container.Containers.Parents
import Xv6Container.Kernel.Owners
import Xv6Container.Memory.Needs

/-! The pages of the reserves. A page that `addContainer` has put into `startAddr` of a container
serves as a kernel stack there and nowhere else, as long as no such stack is freed and `allocFor`
names the container of the process that is being made. -/

namespace Xv6Container.Kernel

open Lib
open Containers (Sys Env Slot Page Creator Holders NCONT MCONT)
open Memory (Kmem PageDir Program hit hit_none hit_nonneg dirCount copyPages)

variable {s t : State} {y : Sys} {a : Act} {b : Containers.Act} {p q np x : Slot} {n : ℤ}
  {c c' : Fin NCONT} {pg : Page}

/-! ### Steps of the tables -/

/-- Where a kernel stack comes from. -/
theorem kstack_of_step (h : Containers.step s.sys b = .ok y) (hx : (y.core x).kstack = some pg) :
    (s.sys.core x).kstack = some pg ∨ ∃ p k e, b = .step p e ∧ s.sys.pc p = .kstack k x := by
  have hupdate : ∀ (z : Slot) (v : Containers.Core), y.core = Function.update s.sys.core z v →
      v.kstack = (s.sys.core z).kstack ∨ v.kstack = none → (s.sys.core x).kstack = some pg := by
    intro z v hcore hv
    rw [hcore, Function.update_apply] at hx
    split_ifs at hx with hz
    · obtain hv | hv := hv
      · rw [hz, ← hv, hx]
      · rw [hv] at hx
        cases hx
    · exact hx
  cases Containers.step_move h with
  | same hcore _ | reserve _ _ _ _ _ _ hcore _ => exact .inl (by rwa [hcore] at hx)
  | kill p z pid _ _ hcore _ => exact .inl (hupdate z _ hcore (.inl rfl))
  | sleep p chan _ _ hcore _ => exact .inl (hupdate p _ hcore (.inl rfl))
  | kstack p np k e page hact hpc hcore _ _ =>
    by_cases hz : x = np
    · exact .inr ⟨p, k, e, hact, hz ▸ hpc⟩
    · rw [hcore, Function.update_of_ne hz] at hx
      exact .inl hx
  | abandon p np k e _ _ _ hcore _ _ => exact .inl (hupdate np _ hcore (.inr rfl))
  | fields p np k e _ _ hcore _ => exact .inl (hupdate np _ hcore (.inl rfl))
  | exit p e c _ _ hcore _ =>
    rw [hcore] at hx
    split_ifs at hx
    · exact .inl hx
    · exact .inl hx
  | reap p z e _ _ _ hcore _ => exact .inl (hupdate z _ hcore (.inr rfl))

/-- The container of a slot is written with its name. -/
theorem containerID_of_step (h : Containers.step s.sys b = .ok y) (x : Slot) :
    y.containerID x = s.sys.containerID x ∨
      ∃ p k, s.sys.stage p = .entered k x ∧ y.containerID x = k.target s.sys.t p := by
  cases Containers.step_effect h with
  | quiet hnames _ _ | leave _ hnames _ _ _ _ _ | release _ _ hnames _ _ _
  | enterUnlisted _ _ hnames _ _ _ _ | publish _ _ _ hnames _ _ _ | exit _ hnames _ _ _ _ _ _ =>
    exact .inl (by rw [hnames.containerID])
  | alloc _ _ _ hid _ _ _ _ _ _ _ | enter _ _ _ _ _ hid _ _ _ _ _ _ _ _
  | delist _ _ hid _ _ _ _ _ _ _ | reap _ _ _ hid _ _ _ _ _ _ _ _ => exact .inl (by rw [hid])
  | name p np k _ _ _ hst hid _ _ =>
    by_cases hx : x = np
    · refine .inr ⟨p, k, hx ▸ hst, ?_⟩
      rw [hid, hx, Function.update_self]
    · exact .inl (by rw [hid, Function.update_of_ne hx])

/-- A slot that has a kernel stack and is being filled, with the one who makes the process. -/
def filled : Containers.Pc → Option (Creator × Slot)
  | .resetAlloc k np | .copy k np | .list k np | .fields k np => some (k, np)
  | _ => none

theorem held_of_filled {k : Creator} {pc : Containers.Pc} (h : filled pc = some (k, np)) :
    pc.stage.held = some np := by
  cases pc with
  | resetAlloc _ _ | copy _ _ | list _ _ | fields _ _ =>
    obtain ⟨rfl, rfl⟩ := Prod.mk.inj (Option.some.inj h)
    rfl
  | _ => cases h

theorem filled_before {k : Creator} {x y : Containers.Pc} (h : x.Before y)
    (hy : filled y = some (k, np)) : x = .kstack k np ∨ filled x = some (k, np) := by
  cases y with
  | resetAlloc _ _ =>
    obtain ⟨rfl, rfl⟩ := Prod.mk.inj (Option.some.inj hy)
    exact .inl h
  | copy _ _ =>
    obtain ⟨rfl, rfl⟩ := Prod.mk.inj (Option.some.inj hy)
    obtain h | h := h
    · exact .inl h
    · exact .inr (by rw [h]; rfl)
  | list _ _ | fields _ _ =>
    obtain ⟨rfl, rfl⟩ := Prod.mk.inj (Option.some.inj hy)
    have hx : x = _ := h
    exact .inr (by rw [hx]; rfl)
  | _ => cases hy

/-- Only `addContainer` writes the pages of a reserve. -/
theorem startAddr_of_step (h : Containers.step s.sys b = .ok y)
    (hpc : ∀ p e, b = .step p e → s.sys.pc p ≠ .initContainer) (c : Fin NCONT) :
    (y.stock c).startAddr = (s.sys.stock c).startAddr := by
  cases Containers.step_move h with
  | same _ hstock | kill _ _ _ _ _ _ hstock | sleep _ _ _ _ _ hstock
  | abandon _ _ _ _ _ _ _ _ hstock _ | fields _ _ _ _ _ _ _ hstock
  | exit _ _ _ _ _ _ hstock | reap _ _ _ _ _ _ _ hstock => rw [hstock]
  | kstack _ _ _ _ _ _ _ _ htaken _ =>
    cases htaken with
    | kalloc _ _ hstock => rw [hstock]
    | conalloc d i _ _ _ _ hstock =>
      rw [hstock, Function.update_apply]
      split_ifs with hd
      · rw [hd]
      · rfl
  | reserve p e d hact hreserve _ _ _ => exact absurd hreserve (hpc p e hact)

/-! ### Reserved pages -/

/-- The places of a page that are no kernel stack and no reserve: the free list, the pipes and the
page tables. -/
def State.loose (s : State) (pg : Page) : ℤ := s.files.held pg + spaces s.pgdir pg

/-- The pages of the reserves, whoever has them. -/
structure Kept (s : State) : Prop where
  holders : Holders s.sys
  single : ∀ pg, s.owners pg ≤ 1
  off : ∀ (c : Fin NCONT) pg, pg ∈ s.reserved c.val → s.loose pg = 0
  unique : ∀ (c c' : Fin NCONT) pg, pg ∈ s.reserved c.val → pg ∈ s.reserved c'.val → c = c'
  stocked : ∀ (c : Fin NCONT) i pg, (s.sys.stock c).startAddr i = some pg → pg ∈ s.reserved c.val
  stack : ∀ p (c : Fin NCONT) pg, (s.sys.state p).created → (s.sys.core p).kstack = some pg →
    pg ∈ s.reserved c.val → s.sys.containerID p = c.val
  filling : ∀ q k np (c : Fin NCONT) pg, filled (s.sys.pc q) = some (k, np) →
    (s.sys.core np).kstack = some pg → pg ∈ s.reserved c.val → k.target s.sys.t q = c.val
  named : ∀ q k np (c : Fin NCONT) pg, s.sys.stage q = .named k np →
    (s.sys.core np).kstack = some pg → pg ∈ s.reserved c.val → s.sys.containerID np = c.val

namespace Kept

theorem not_held (h : Kept s) (hx : (s.sys.state x).created) : (s.sys.stage q).held ≠ some x := by
  intro hq
  rw [h.holders.embryo q x hq] at hx
  exact hx

/-- A process that exists keeps its kernel stack and its container. -/
theorem of_created (h : Kept s) (hstep : Containers.step s.sys b = .ok t.sys)
    (hx : (s.sys.state x).created) (hpg : (t.sys.core x).kstack = some pg) :
    (s.sys.core x).kstack = some pg ∧ t.sys.containerID x = s.sys.containerID x := by
  constructor
  · obtain hold | ⟨p, k, e, -, hpc⟩ := kstack_of_step hstep hpg
    · exact hold
    · exact absurd (by rw [Sys.stage, hpc]; rfl) (h.not_held hx)
  · obtain hold | ⟨p, k, hst, -⟩ := containerID_of_step hstep x
    · exact hold
    · exact absurd (by rw [hst]; rfl) (h.not_held hx)

/-- A slot that is being filled gets its kernel stack from its creator only. -/
theorem of_held (h : Kept s) (hstep : Containers.step s.sys b = .ok t.sys)
    (hq : (s.sys.stage q).held = some np) (hpc : ∀ k, s.sys.pc q ≠ .kstack k np)
    (hpg : (t.sys.core np).kstack = some pg) : (s.sys.core np).kstack = some pg := by
  obtain hold | ⟨p, k, e, -, hp⟩ := kstack_of_step hstep hpg
  · exact hold
  · have hpq : p = q := h.holders.unique p q np (by rw [Sys.stage, hp]; rfl) hq
    exact absurd (hpq ▸ hp) (hpc k)

/-- The container that a creator works for does not change. -/
theorem target_eq (h : Kept s) (hstep : Containers.step s.sys b = .ok t.sys) {k : Creator}
    (hq : (s.sys.stage q).held = some np) : k.target t.sys.t q = k.target s.sys.t q := by
  refine Containers.target_congr ?_
  obtain hold | ⟨p, k', hst, -⟩ := containerID_of_step hstep q
  · exact hold
  · have hlive : (s.sys.state q).created := by
      refine Containers.ProcState.live.created (h.holders.live q fun hidle => ?_)
      rw [hidle] at hq
      cases hq
    exact absurd (by rw [hst]; rfl) (h.not_held hlive)

theorem step_sys (h : Kept s) (hstep : Containers.step s.sys b = .ok t.sys)
    (hsingle : ∀ pg, t.owners pg ≤ 1)
    (hoff : ∀ (c : Fin NCONT) pg, pg ∈ t.reserved c.val → t.loose pg = 0)
    (hunique : ∀ (c c' : Fin NCONT) pg, pg ∈ t.reserved c.val → pg ∈ t.reserved c'.val → c = c')
    (hstocked : ∀ (c : Fin NCONT) i pg, (t.sys.stock c).startAddr i = some pg →
      pg ∈ t.reserved c.val)
    (hold : ∀ (c : Fin NCONT) p pg, (t.sys.core p).kstack = some pg → pg ∈ t.reserved c.val →
      pg ∈ s.reserved c.val)
    (htake : ∀ p k np e (c : Fin NCONT) pg, b = .step p e → s.sys.pc p = .kstack k np →
      (t.sys.core np).kstack = some pg → pg ∈ s.reserved c.val → k.target s.sys.t p = c.val) :
    Kept t := by
  have he := Containers.step_effect hstep
  have hh := h.holders.step he
  have hnamed : ∀ q k np (c : Fin NCONT) pg, s.sys.stage q = .named k np →
      (t.sys.core np).kstack = some pg → pg ∈ s.reserved c.val → t.sys.containerID np = c.val := by
    intro q k np c pg hst hpg hc
    have hheld : (s.sys.stage q).held = some np := by rw [hst]; rfl
    have hpg' := h.of_held hstep hheld (fun k' hk => by rw [Sys.stage, hk] at hst; cases hst) hpg
    obtain hid | ⟨p, k', hst', -⟩ := containerID_of_step hstep np
    · rw [hid]
      exact h.named q k np c pg hst hpg' hc
    · have hpq : p = q := h.holders.unique p q np (by rw [hst']; rfl) hheld
      rw [hpq, hst] at hst'
      cases hst'
  refine ⟨hh, hsingle, hoff, hunique, hstocked, ?_, ?_, ?_⟩
  · intro x c pg hx hpg hc
    have hc' := hold c x pg hpg hc
    obtain hx' | ⟨q, k, hst⟩ := Containers.created_of_step he hx
    · obtain ⟨hpg', hid⟩ := h.of_created hstep hx' hpg
      rw [hid]
      exact h.stack x c pg hx' hpg' hc'
    · exact hnamed q k x c pg hst hpg hc'
  · intro q k np c pg hfill hpg hc
    have hc' := hold c np pg hpg hc
    -- the slot had its stack before
    have hfilled : filled (s.sys.pc q) = some (k, np) → k.target t.sys.t q = c.val := by
      intro hq
      have hheld : (s.sys.stage q).held = some np := held_of_filled hq
      have hpg' := h.of_held hstep hheld (fun k' hk => by rw [hk] at hq; cases hq) hpg
      rw [h.target_eq hstep hheld]
      exact h.filling q k np c pg hq hpg' hc'
    by_cases hsame : t.sys.pc q = s.sys.pc q
    · exact hfilled (hsame ▸ hfill)
    · obtain hpc | hq := filled_before (Containers.step_before hstep hsame) hfill
      · have hheld : (s.sys.stage q).held = some np := by rw [Sys.stage, hpc]; rfl
        obtain ⟨e, hact⟩ := step_of_busy hstep hsame (by rw [hpc]; rintro ⟨⟩)
        rw [h.target_eq hstep hheld]
        exact htake q k np e c pg hact hpc hpg hc'
      · exact hfilled hq
  · intro q k np c pg hst hpg hc
    have hc' := hold c np pg hpg hc
    by_cases hsame : t.sys.stage q = s.sys.stage q
    · exact hnamed q k np c pg (hsame ▸ hst) hpg hc'
    · have hpc := Containers.fields_of_named he hst hsame
      obtain ⟨e, rfl⟩ := Containers.step_of_stage hstep hsame
      have hheld : (s.sys.stage q).held = some np := by rw [Sys.stage, hpc]; rfl
      have hpg' := h.of_held hstep hheld (fun k' hk => by rw [hpc] at hk; cases hk) hpg
      have hid : t.sys.containerID np = k.target s.sys.t q := by
        rw [Containers.fields_step hpc hstep]
        show ((s.sys.t.copyFields q np _).proc np).containerID = _
        rw [Containers.Tables.copyFields, Containers.Tables.setProc_self]
      rw [hid]
      exact h.filling q k np c pg (by rw [hpc]; rfl) hpg' hc'

end Kept

/-! ### One step -/

/-- A slot has a reserved page as its kernel stack. -/
def State.OnReserve (s : State) (q : Slot) : Prop :=
  ∃ c : Fin NCONT, ∃ pg ∈ s.reserved c.val, (s.sys.core q).kstack = some pg

instance (s : State) (q : Slot) : Decidable (s.OnReserve q) :=
  inferInstanceAs (Decidable (∃ _, _))

/-- A page that the next section takes from a reserve is for a process of that container. -/
def State.Takes (s : State) (p : Slot) : Containers.Pc → Prop
  | .kstack k _ => s.sys.t.allocFor ≠ 0 → ∀ (c : Fin NCONT) (i : Fin MCONT),
    s.sys.t.allocFor = c.val → (s.sys.stock c).used = i.val →
    ((s.sys.stock c).startAddr i).isSome → k.target s.sys.t p = c.val
  | _ => True

instance (s : State) (p : Slot) (pc : Containers.Pc) : Decidable (s.Takes p pc) :=
  match pc with
  | .kstack k _ => inferInstanceAs (Decidable (s.sys.t.allocFor ≠ 0 → ∀ (c : Fin NCONT)
      (i : Fin MCONT), s.sys.t.allocFor = c.val → (s.sys.stock c).used = i.val →
      ((s.sys.stock c).startAddr i).isSome → k.target s.sys.t p = c.val))
  | .user | .setAlloc _ _ | .alloc _ | .resetAlloc _ _ | .copy _ _ | .list _ _ | .fields _ _
  | .publish _ _ | .delist _ | .exiting _ | .waiting | .initContainer | .createReturn =>
    .isTrue trivial

/-- The slot whose kernel stack the next section of `p` frees: of the child for which there is not
enough memory or no entry in the list, or of the child that `wait` reaps. -/
def State.frees (s : State) (p : Slot) : Option Slot :=
  match s.sys.pc p with
  | .copy _ np => if s.kmem.free < copyPages (s.sys.core p).sz then some np else none
  | .list k np =>
    match k.insert s.sys.t p np with
    | .ok (false, _) => some np
    | _ => none
  | .waiting =>
    match s.sys.t.waitScan p with
    | .reaped q => some q
    | _ => none
  | _ => none

/-- A page is taken from a reserve only for a process of its container, and no process is given up
or reaped whose kernel stack is such a page. -/
def KeepsReserves (s : State) : Act → Prop
  | .step p _ => s.Takes p (s.sys.pc p) ∧ ∀ q ∈ s.frees p, ¬ s.OnReserve q
  | _ => True

instance (s : State) (a : Act) : Decidable (KeepsReserves s a) :=
  match a with
  | .step p _ => inferInstanceAs (Decidable (s.Takes p (s.sys.pc p) ∧
      ∀ q ∈ s.frees p, ¬ s.OnReserve q))
  | .sys _ | .growproc _ _ | .exec _ _ | .files _ => .isTrue trivial

theorem loose_nonneg (s : State) (pg : Page) : 0 ≤ s.loose pg :=
  add_nonneg (held_nonneg _ _) (spaces_nonneg _ _)

theorem loose_le_owners (s : State) (pg : Page) : s.loose pg ≤ s.owners pg := by
  have h₁ := kstacks_nonneg s.sys pg
  have h₂ := reserves_nonneg s.sys pg
  unfold State.loose State.owners
  omega

/-- Only the free list and one address space change. -/
theorem loose_update {m : Kmem} {o : Option PageDir} (hfiles : t.files = { s.files with kmem := m })
    (hdir : t.pgdir = Function.update s.pgdir np o) (pg : Page) : t.loose pg =
      s.loose pg - s.kmem.count pg + m.count pg - dirCount (s.pgdir np) pg + dirCount o pg := by
  unfold State.loose State.kmem
  rw [held_kmem hfiles, hdir, spaces_update]
  omega

theorem loose_kmem {m : Kmem} (hfiles : t.files = { s.files with kmem := m })
    (hdir : t.pgdir = s.pgdir) (pg : Page) :
    t.loose pg = s.loose pg - s.kmem.count pg + m.count pg := by
  unfold State.loose State.kmem
  rw [held_kmem hfiles, hdir]
  omega

/-- A page of a reserve is not the kernel stack that is freed. -/
theorem Kept.hit_freed (hg : KeepsReserves s (.step p n)) (hq : s.frees p = some q)
    (hpg : pg ∈ s.reserved c.val) : hit (s.sys.core q).kstack pg = 0 := by
  refine if_neg fun hstack => ?_
  exact hg.2 q hq ⟨c, pg, hpg, hstack⟩

/-- No page of a reserve gets loose. -/
theorem Kept.loose_step (h : Kept s) (hg : KeepsReserves s a) (hm : Move s a t)
    (hpg : pg ∈ s.reserved c.val) : t.loose pg = 0 := by
  have hzero := h.off c pg hpg
  have hle : t.loose pg ≤ s.loose pg := by
    cases hm with
    | calm b _ _ _ heq =>
      rw [heq]
      exact le_refl _
    | kstack p np k n o m _ _ hans _ heq =>
      rw [loose_kmem (m := m) (by rw [heq]; rfl) (by rw [heq]; rfl)]
      obtain ⟨-, hkalloc⟩ | ⟨-, -, rfl⟩ := hans
      · have hcount := Memory.kalloc_count.1 _ _ hkalloc pg
        have hpos := hit_nonneg o pg
        omega
      · omega
    | copied p np k n d d' m _ _ _ hcopy _ heq =>
      have hcount := Memory.copyuvm_count.1 _ _ hcopy pg
      have hold := dirCount_nonneg (s.pgdir np) pg
      rw [loose_update (m := m) (by rw [heq]; rfl) (by rw [heq])]
      omega
    | notCopied p np k n d m m' hact hpc _ hcopy hfree _ heq =>
      subst hact
      have hcount := Memory.copyuvm_count.1 _ _ hcopy pg
      have hold := dirCount_nonneg (s.pgdir np) pg
      have hnone : dirCount none pg = 0 := rfl
      have hshort : s.kmem.free < copyPages (s.sys.core p).sz := Memory.copyuvm_takes.1 _ _ hcopy
      have hhit := hit_freed (q := np) hg (by simp only [State.frees, hpc, if_pos hshort]) hpg
      have hfreed : m'.count pg = m.count pg + hit (s.sys.core np).kstack pg := kfree_stack hfree pg
      rw [loose_update (m := m') (by rw [heq]; rfl) (by rw [heq])]
      omega
    | full p np k n m hact hpc hfull hfree _ heq =>
      subst hact
      obtain ⟨x, hx⟩ := hfull
      have hhit := hit_freed (q := np) hg (by simp only [State.frees, hpc, hx]) hpg
      have hfreed : m.count pg = s.kmem.count pg + hit (s.sys.core np).kstack pg :=
        kfree_stack hfree pg
      rw [loose_kmem (m := m) (by rw [heq]; rfl) (by rw [heq]; rfl)]
      omega
    | reaped p q n d m m' hact hpc hscan hdir hstack hfree _ heq =>
      subst hact
      have hhit := hit_freed (q := q) hg (by simp only [State.frees, hpc, hscan]) hpg
      have hfreed : m.count pg = s.kmem.count pg + hit (s.sys.core q).kstack pg :=
        kfree_stack hstack pg
      have hcount := Memory.freevm_count.1 _ _ hfree pg
      have hnone : dirCount none pg = 0 := rfl
      have hsome : dirCount (s.pgdir q) pg = d.count pg := by rw [hdir]; rfl
      rw [loose_update (m := m') (by rw [heq]; rfl) (by rw [heq])]
      omega
    | reserve p n pages m _ _ htake _ heq =>
      have hcount := kallocs_count.1 _ _ htake pg
      have hpos : 0 ≤ ∑ i, hit (pages i) pg := Finset.sum_nonneg fun _ _ => hit_nonneg _ _
      rw [loose_kmem (m := m) (by rw [heq]; rfl) (by rw [heq]; rfl)]
      omega
    | growproc p n d d' o m _ _ hdir hgrow heq =>
      have hcount := Memory.growproc_count.1 _ _ hgrow pg
      have hsome : dirCount (s.pgdir p) pg = d.count pg := by rw [hdir]; rfl
      have hnew : dirCount (some d') pg = d'.count pg := rfl
      rw [loose_update (m := m) (by rw [heq]; rfl) (by rw [heq])]
      dsimp only at hcount
      omega
    | exec p prog d o m _ _ hdir hexec heq =>
      have hcount := Memory.exec_count.1 _ _ hexec pg
      have hsome : dirCount (s.pgdir p) pg = d.count pg := by rw [hdir]; rfl
      cases o with
      | none =>
        have hcount : d.count pg + m.count pg = d.count pg + s.kmem.count pg := hcount
        rw [loose_kmem (m := m) (by rw [heq]; rfl) (by rw [heq]; rfl)]
        omega
      | some x =>
        have hnew : dirCount (some x.1) pg = x.1.count pg := rfl
        have hcount : x.1.count pg + m.count pg = d.count pg + s.kmem.count pg := hcount
        have hdir' : t.pgdir = Function.update s.pgdir p (some x.1) := by rw [heq]; rfl
        rw [loose_update (m := m) (by rw [heq]; rfl) hdir']
        omega
    | files f _ hmem hstep heq =>
      have hheld : ∀ pg, s.files.held pg ≤ 1 := by
        intro pg
        have h₁ := loose_le_owners s pg
        have h₂ := spaces_nonneg s.pgdir pg
        have h₃ := h.single pg
        unfold State.loose at h₁
        omega
      have hfiles := Files.step_held hheld hmem hstep
      unfold State.loose
      rw [hfiles, heq]
  have hpos := loose_nonneg t pg
  omega

/-- A page that comes from the free list was in no reserve and no kernel stack. -/
theorem Kept.of_free (h : Kept s) (hpg : 1 ≤ s.kmem.count pg) :
    (∀ c : Fin NCONT, pg ∉ s.reserved c.val) ∧ ∀ p, (s.sys.core p).kstack ≠ some pg := by
  have hloose : 1 ≤ s.loose pg := by
    have h₁ := spaces_nonneg s.pgdir pg
    have h₂ : s.kmem.count pg ≤ s.files.held pg := by
      unfold State.kmem Files.State.held
      split_ifs
      · omega
      · omega
    unfold State.loose
    omega
  constructor
  · intro c hc
    have := h.off c pg hc
    omega
  · intro p hp
    have hone : 1 ≤ kstacks s.sys pg := by
      have hle := Finset.single_le_sum (f := fun q => hit (s.sys.core q).kstack pg)
        (fun q _ => hit_nonneg _ _) (Finset.mem_univ p)
      have hhit : hit (s.sys.core p).kstack pg = 1 := if_pos hp
      unfold kstacks
      rw [← hhit]
      exact hle
    have h₁ := h.single pg
    have h₂ := reserves_nonneg s.sys pg
    unfold State.owners at h₁
    unfold State.loose at hloose
    omega

theorem Kept.single_step (h : Kept s) (hm : Move s a t) (pg : Page) : t.owners pg ≤ 1 :=
  (owners_le hm h.single pg).trans (h.single pg)

/-- A step that leaves the reserves as they are. -/
theorem Kept.section (h : Kept s) (hg : KeepsReserves s a) (hm : Move s a t)
    (hstep : Containers.step s.sys b = .ok t.sys) (hres : t.reserved = s.reserved)
    (hpc : ∀ p e, b = .step p e → s.sys.pc p ≠ .initContainer)
    (htake : ∀ p k np e (c : Fin NCONT) pg, b = .step p e → s.sys.pc p = .kstack k np →
      (t.sys.core np).kstack = some pg → pg ∈ s.reserved c.val → k.target s.sys.t p = c.val) :
    Kept t := by
  refine h.step_sys hstep (h.single_step hm) (fun c pg hpg => ?_) ?_ (fun c i pg hpg => ?_)
    (fun c p pg _ hpg => ?_) htake
  · rw [hres] at hpg
    exact h.loose_step hg hm hpg
  · rw [hres]
    exact h.unique
  · rw [startAddr_of_step hstep hpc] at hpg
    rw [hres]
    exact h.stocked c i pg hpg
  · rwa [hres] at hpg

/-- A step that touches no call of the tables. -/
theorem Kept.own (h : Kept s) (hg : KeepsReserves s a) (hm : Move s a t)
    (hres : t.reserved = s.reserved) (hpc : t.sys.pc = s.sys.pc)
    (hstate : t.sys.state = s.sys.state) (hid : t.sys.containerID = s.sys.containerID)
    (hstack : ∀ q, (t.sys.core q).kstack = (s.sys.core q).kstack)
    (hstock : t.sys.stock = s.sys.stock) : Kept t := by
  have hstage : t.sys.stage = s.sys.stage := by
    funext q
    rw [Sys.stage, hpc, Sys.stage]
  constructor
  case holders => exact h.holders.congr hpc hstate
  case single => exact h.single_step hm
  case off =>
    intro c pg hpg
    rw [hres] at hpg
    exact h.loose_step hg hm hpg
  case unique =>
    rw [hres]
    exact h.unique
  case stocked =>
    rw [hres, hstock]
    exact h.stocked
  case stack =>
    intro p c pg hp hpg hc
    rw [hstate] at hp
    rw [hstack] at hpg
    rw [hres] at hc
    rw [hid]
    exact h.stack p c pg hp hpg hc
  case filling =>
    intro q k np c pg hq hpg hc
    rw [hpc] at hq
    rw [hstack] at hpg
    rw [hres] at hc
    rw [Containers.target_congr (congrFun hid q)]
    exact h.filling q k np c pg hq hpg hc
  case named =>
    intro q k np c pg hq hpg hc
    rw [hstage] at hq
    rw [hstack] at hpg
    rw [hres] at hc
    rw [hid]
    exact h.named q k np c pg hq hpg hc

theorem resize_containerID (x : Sys) (p : Slot) (o : Option ℕ) :
    (resize x p o).containerID = x.containerID := by
  cases o with
  | none => rfl
  | some sz =>
    funext q
    show ((x.t.setProc p fun q => { q with sz := sz }).proc q).containerID = (x.t.proc q).containerID
    rw [Containers.Tables.setProc_proc]
    split_ifs with hq
    · rw [hq]
    · rfl

/-- The pages that `addContainer` takes are in no other reserve and nobody uses them. -/
theorem Kept.reserve {pages : Fin MCONT → Option Page} {m : Kmem} (h : Kept s)
    (hg : KeepsReserves s (.step p n)) (hm : Move s (.step p n) t)
    (hpc : s.sys.pc p = .initContainer) (htake : kallocs MCONT s.kmem = .ok pages m)
    (hstep : Containers.step s.sys (.step p { noPages n with pages := pages }) = .ok t.sys)
    (heq : t = { s.withKmem m with
      sys := t.sys
      reserved := Function.update s.reserved (s.sys.t.containerNum - 1)
        (s.reserved (s.sys.t.containerNum - 1) ++ (List.ofFn pages).reduceOption) }) : Kept t := by
  obtain ⟨c₀, hc₀, hcore, hstock⟩ := reserve_columns hpc hstep
  have hres : ∀ (c : Fin NCONT) pg, pg ∈ t.reserved c.val ↔
      pg ∈ s.reserved c.val ∨ c = c₀ ∧ ∃ i, pages i = some pg := by
    intro c pg
    rw [heq, hc₀]
    dsimp only
    by_cases hc : c = c₀
    · rw [hc, Function.update_self, List.mem_append, List.reduceOption_mem_iff, List.mem_ofFn]
      simp only [true_and]
    · have hne : (c.val : ℤ) ≠ c₀.val := fun h => hc (Fin.ext (Int.ofNat_inj.1 h))
      rw [Function.update_of_ne hne]
      simp only [hc, false_and, or_false]
  have hcount : ∀ pg, ∑ i, hit (pages i) pg + m.count pg = s.kmem.count pg :=
    kallocs_count.1 _ _ htake
  have hnew : ∀ i pg, pages i = some pg → 1 ≤ ∑ i, hit (pages i) pg := by
    intro i pg hi
    have hle := Finset.single_le_sum (f := fun i => hit (pages i) pg)
      (fun i _ => hit_nonneg _ _) (Finset.mem_univ i)
    have hhit : hit (pages i) pg = 1 := if_pos hi
    omega
  have hfree : ∀ i pg, pages i = some pg → 1 ≤ s.kmem.count pg := by
    intro i pg hi
    have h₁ := hnew i pg hi
    have h₂ := hcount pg
    have h₃ : 0 ≤ m.count pg := Int.natCast_nonneg _
    omega
  refine h.step_sys hstep (h.single_step hm) (fun c pg hpg => ?_) (fun c c' pg hpg hpg' => ?_)
    (fun c i pg hpg => ?_) (fun c p pg hpg hc => ?_) ?_
  · obtain hold | ⟨-, i, hi⟩ := (hres c pg).1 hpg
    · exact h.loose_step hg hm hold
    · have h₁ := hnew i pg hi
      have h₂ := hcount pg
      have h₃ := loose_le_owners s pg
      have h₄ := h.single pg
      have h₅ := loose_nonneg t pg
      have hloose : t.loose pg = s.loose pg - s.kmem.count pg + m.count pg :=
        loose_kmem (by rw [heq]; rfl) (by rw [heq]; rfl) pg
      omega
  · obtain hold | ⟨rfl, i, hi⟩ := (hres c pg).1 hpg
    · obtain hold' | ⟨-, i, hi⟩ := (hres c' pg).1 hpg'
      · exact h.unique c c' pg hold hold'
      · exact absurd hold ((h.of_free (hfree i pg hi)).1 c)
    · obtain hold' | ⟨hc', -⟩ := (hres c' pg).1 hpg'
      · exact absurd hold' ((h.of_free (hfree i pg hi)).1 c')
      · exact hc'.symm
  · refine (hres c pg).2 ?_
    rw [hstock, Function.update_apply] at hpg
    split_ifs at hpg with hc
    · exact .inr ⟨hc, i, hpg⟩
    · exact .inl (h.stocked c i pg hpg)
  · obtain hold | ⟨-, i, hi⟩ := (hres c pg).1 hc
    · exact hold
    · rw [hcore] at hpg
      exact absurd hpg ((h.of_free (hfree i pg hi)).2 p)
  · rintro _ k np e c pg ⟨⟩ hk
    cases hpc.symm.trans hk

/-- A kernel stack that is a reserved page has come from the reserve that `allocFor` names. -/
theorem Kept.target_of_kstack {k : Creator} {o : Option Page} {m : Kmem} (h : Kept s)
    (hg : KeepsReserves s (.step p n)) (hpc : s.sys.pc p = .kstack k np)
    (hans : s.sys.t.allocFor = 0 ∧ Memory.kalloc s.kmem = .ok o m ∨
      s.sys.t.allocFor ≠ 0 ∧ o = none ∧ m = s.kmem)
    (hstep : Containers.step s.sys (.step p { noPages n with page := o }) = .ok y)
    (hpg : (y.core np).kstack = some pg) (hc : pg ∈ s.reserved c.val) :
    k.target s.sys.t p = c.val := by
  obtain ⟨page, hnew⟩ := Containers.kstack_new hpc (Containers.running_of_step hstep).2
  have hpage : page = some pg := by
    rw [hnew.core, Function.update_self] at hpg
    exact hpg
  cases hnew.taken with
  | kalloc hfor hpage' _ =>
    obtain ⟨-, hkalloc⟩ | ⟨hne, -⟩ := hans
    · have hcount := Memory.kalloc_count.1 _ _ hkalloc pg
      have ho : o = some pg := hpage'.symm.trans hpage
      have hhit : hit o pg = 1 := if_pos ho
      have hpos : 0 ≤ m.count pg := Int.natCast_nonneg _
      exact absurd hc ((h.of_free (by omega)).1 c)
    · exact absurd hfor hne
  | conalloc d i hne hfor hused hpage' _ =>
    have hstart : (s.sys.stock d).startAddr i = some pg := hpage'.symm.trans hpage
    obtain rfl := h.unique c d pg hc (h.stocked d i pg hstart)
    have htakes := hg.1
    rw [hpc] at htakes
    exact htakes hne c i hfor hused (by rw [hstart]; rfl)

theorem Kept.step (h : Kept s) (hg : KeepsReserves s a) (ht : step s a = .ok t) : Kept t := by
  have hm := step_move ht
  -- a section at a place where no kernel stack is taken and no reserve is made
  have hsection : ∀ {p e} {pc : Containers.Pc}, s.sys.pc p = pc → pc ≠ .initContainer →
      (∀ k np, pc ≠ .kstack k np) → t.reserved = s.reserved →
      Containers.step s.sys (.step p e) = .ok t.sys → Kept t := by
    intro p e pc hpc hinit hkstack hres hstep
    refine h.section hg hm hstep hres ?_ ?_
    · rintro _ _ ⟨⟩
      rw [hpc]
      exact hinit
    · rintro _ k np e c pg ⟨⟩ hk
      exact absurd (hpc.symm.trans hk) (hkstack k np)
  cases step_move ht with
  | calm b hstep _ hplain heq =>
    refine h.section hg hm hstep (by rw [heq]) (fun p e hact hpc => ?_)
      fun p k np e c pg hact hpc => ?_
    · have := hplain p e hact
      rw [State.Plain, hpc] at this
      exact this
    · have := hplain p e hact
      rw [State.Plain, hpc] at this
      exact this.elim
  | kstack p np k n o m hact hpc hans hstep heq =>
    subst hact
    refine h.section hg hm hstep (by rw [heq]; rfl) ?_ ?_
    · rintro _ _ ⟨⟩
      rw [hpc]
      rintro ⟨⟩
    · rintro _ k' x e c pg ⟨⟩ hk hpg hc
      cases hpc.symm.trans hk
      exact h.target_of_kstack hg hpc hans hstep hpg hc
  | copied p np k n d d' m _ hpc _ _ hstep heq =>
    exact hsection hpc (by rintro ⟨⟩) (by rintro _ _ ⟨⟩) (by rw [heq]; rfl) hstep
  | notCopied p np k n d m m' _ hpc _ _ _ hstep heq =>
    exact hsection hpc (by rintro ⟨⟩) (by rintro _ _ ⟨⟩) (by rw [heq]; rfl) hstep
  | full p np k n m _ hpc _ _ hstep heq =>
    exact hsection hpc (by rintro ⟨⟩) (by rintro _ _ ⟨⟩) (by rw [heq]; rfl) hstep
  | reaped p q n d m m' _ hpc _ _ _ _ hstep heq =>
    exact hsection hpc (by rintro ⟨⟩) (by rintro _ _ ⟨⟩) (by rw [heq]; rfl) hstep
  | reserve p n pages m hact hpc htake hstep heq =>
    subst hact
    exact h.reserve hg hm hpc htake hstep heq
  | growproc p n d d' o m _ _ _ _ heq =>
    have hsys : t.sys = resize s.sys p o := by rw [heq]
    exact h.own hg hm (by rw [heq]; rfl) (by rw [hsys, resize_pc]) (by rw [hsys, resize_state])
      (by rw [hsys, resize_containerID]) (by rw [hsys]; exact resize_kstack _ _ _)
      (by rw [hsys]; exact (resize_columns _ _ _).2)
  | exec p prog d o m _ _ _ _ heq =>
    have hsys : t.sys = resize s.sys p (o.map Prod.snd) := by rw [heq]
    exact h.own hg hm (by rw [heq]; rfl) (by rw [hsys, resize_pc]) (by rw [hsys, resize_state])
      (by rw [hsys, resize_containerID]) (by rw [hsys]; exact resize_kstack _ _ _)
      (by rw [hsys]; exact (resize_columns _ _ _).2)
  | files f _ _ _ heq =>
    exact h.own hg hm (by rw [heq]) (by rw [heq]) (by rw [heq]) (by rw [heq])
      (fun q => by rw [heq]) (by rw [heq])

/-! ### Runs -/

theorem Booted.kept (h : Booted s) : Kept s := by
  have hsingle := h.owners_le
  obtain ⟨kmem, kmem', kstack, d, node, t, -, -, -, ht, rfl⟩ := h
  have hboot : Containers.Booted (Containers.boot t) := ⟨kstack, t, ht, rfl⟩
  refine ⟨hboot.holders, hsingle, nofun, nofun, fun c i pg hpg => ?_, nofun, nofun, nofun⟩
  rw [boot_startAddr ht] at hpg
  cases hpg

/-- A reserved page is neither free nor the buffer of a pipe nor in a page table, and who has it as
a kernel stack is in the container or is being made for it. -/
structure ReservesOk (s : State) : Prop where
  free : ∀ (c : Fin NCONT) pg, pg ∈ s.reserved c.val → pg ∉ s.kmem.freelist
  pipe : ∀ (c : Fin NCONT) pg, pg ∈ s.reserved c.val → s.files.pipes pg = none
  table : ∀ (c : Fin NCONT) pg p d, pg ∈ s.reserved c.val → s.pgdir p = some d → d.count pg = 0
  stack : ∀ (c : Fin NCONT) pg p, pg ∈ s.reserved c.val → (s.sys.core p).kstack = some pg →
    (s.sys.state p).created → s.sys.containerID p = c.val
  filling : ∀ (c : Fin NCONT) pg q k np, pg ∈ s.reserved c.val →
    (s.sys.core np).kstack = some pg → filled (s.sys.pc q) = some (k, np) →
    k.target s.sys.t q = c.val

theorem Kept.reservesOk (h : Kept s) : ReservesOk s := by
  have hparts : ∀ (c : Fin NCONT) pg, pg ∈ s.reserved c.val →
      s.files.held pg = 0 ∧ spaces s.pgdir pg = 0 := by
    intro c pg hc
    have h₁ := h.off c pg hc
    have h₂ := held_nonneg s.files pg
    have h₃ := spaces_nonneg s.pgdir pg
    unfold State.loose at h₁
    omega
  refine ⟨fun c pg hc hfree => ?_, fun c pg hc => ?_, fun c pg p d hc hd => ?_,
    fun c pg p hc hpg hp => h.stack p c pg hp hpg hc,
    fun c pg q k np hc hpg hq => h.filling q k np c pg hq hpg hc⟩
  · have hpos : 1 ≤ s.kmem.count pg := by
      have := List.count_pos_iff.2 hfree
      unfold Kmem.count
      omega
    exact (h.of_free hpos).1 c hc
  · have hheld := (hparts c pg hc).1
    have hcount : 0 ≤ s.files.kmem.count pg := Int.natCast_nonneg _
    unfold Files.State.held at hheld
    split_ifs at hheld with hpipe
    · omega
    · exact Option.not_isSome_iff_eq_none.1 hpipe
  · have hle := Finset.single_le_sum (f := fun q => dirCount (s.pgdir q) pg)
      (fun q _ => dirCount_nonneg _ _) (Finset.mem_univ p)
    have hspaces := (hparts c pg hc).2
    have hpos := dirCount_nonneg (s.pgdir p) pg
    have hd' : dirCount (s.pgdir p) pg = d.count pg := by rw [hd]; rfl
    unfold spaces at hspaces
    omega

/-- As long as no kernel stack of a reserve is freed and every page taken from a reserve is for a
process of its container, the reserved pages stay with their containers. -/
theorem reservesOk_of_keepsReserves (hs : Reach step KeepsReserves Booted s) : ReservesOk s := by
  have h : Kept s := hs.invariant (fun _ => Booted.kept) fun _ _ _ h hg ht => h.step hg ht
  exact h.reservesOk

/-! ### A run -/

/-- A child joins container 1, and the process that takes its place there calls `fork`. -/
theorem reservesOk_joined : ∃ s : State, ReservesOk s ∧ s.sys.containerID 2 = 1 ∧
    (s.sys.core 2).kstack = (s.sys.stock 1).startAddr 0 ∧ (s.reserved 1).length = 10 ∧
    s.sys.state 3 = .runnable := by
  have hboot : Reach step KeepsReserves Booted firstBoot := .start booted_firstBoot
  obtain ⟨s, hs, ht⟩ := hboot.of_endsIn
    (fun s => decide (s.sys.containerID 2 = 1 ∧
      (s.sys.core 2).kstack = (s.sys.stock 1).startAddr 0 ∧ (s.reserved 1).length = 10 ∧
      s.sys.state 3 = .runnable))
    ((Containers.joinRun ++ .call 2 .fork :: Containers.sections 2 6).map lift) (by decide +kernel)
  exact ⟨s, reservesOk_of_keepsReserves hs, of_decide_eq_true ht⟩

/-- The first process makes container 1 and then there is not enough memory for it to join: the
kernel stack of the child, a page of the reserve, goes to the free list. -/
theorem join_frees_reserved : ∃ s : State, Reach step always Booted s ∧ ¬ ReservesOk s := by
  have hboot : Reach step always Booted smallBoot := .start booted_smallBoot
  obtain ⟨s, hs, ht⟩ := hboot.of_endsIn
    (fun s => decide (∃ pg ∈ s.reserved 1, pg ∈ s.kmem.freelist))
    ((Containers.turns 2 ++ .call 0 .create_container :: Containers.sections 0 2 ++
      .call 0 (.join_container 1) :: Containers.sections 0 5).map lift) (by decide +kernel)
  obtain ⟨pg, hpg, hfree⟩ := of_decide_eq_true ht
  exact ⟨s, hs, fun h => h.free 1 pg hpg hfree⟩

end Xv6Container.Kernel
