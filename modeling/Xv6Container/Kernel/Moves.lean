import Xv6Container.Containers.Slots
import Xv6Container.Kernel.System

/-! What one step of the kernel does to pages and address spaces. Every step is one of ten moves;
the invariants about memory are proved from these and never open a section again. -/

namespace Xv6Container.Kernel

open Lib
open Containers (Sys Env Slot Page Creator NCONT MCONT)
open Memory (Kmem PageDir Program)

variable {α : Type} {s t u : State} {a : Act} {p q np : Slot} {n : ℤ}

def State.withKmem (s : State) (m : Kmem) : State := { s with files := { s.files with kmem := m } }

/-- The next section of `p` takes no page and gives none back. -/
def State.Plain (s : State) (p : Slot) : Prop :=
  match s.sys.pc p with
  | .kstack _ _ | .copy _ _ | .initContainer => False
  | .list k np => ∀ x, k.insert s.sys.t p np ≠ .ok (false, x)
  | .waiting => ∀ q, s.sys.t.waitScan p ≠ .reaped q
  | _ => True

/-- The kernel stack of a slot as an address. -/
def State.stack (s : State) (p : Slot) : Page := (s.sys.core p).kstack.getD 0

/-- The size of a process, unless it stays. -/
def resize (x : Sys) (p : Slot) (o : Option ℕ) : Sys :=
  o.elim x fun sz => { x with t := x.t.setProc p fun q => { q with sz := sz } }

inductive Move (s : State) (a : Act) (t : State) : Prop
  /-- No page moves. -/
  | calm (b : Containers.Act) (step : Containers.step s.sys b = .ok t.sys)
      (act : a = .sys b ∨ ∃ p n, a = .step p n ∧ b = .step p (noPages n))
      (plain : ∀ p e, b = .step p e → s.Plain p)
      (eq : t = { s with sys := t.sys })
  | kstack (p np : Slot) (k : Creator) (n : ℤ) (o : Option Page) (m : Kmem) (act : a = .step p n)
      (pc : s.sys.pc p = .kstack k np)
      (answer : s.sys.t.allocFor = 0 ∧ Memory.kalloc s.kmem = .ok o m ∨
        s.sys.t.allocFor ≠ 0 ∧ o = none ∧ m = s.kmem)
      (step : Containers.step s.sys (.step p { noPages n with page := o }) = .ok t.sys)
      (eq : t = { s.withKmem m with sys := t.sys })
  | copied (p np : Slot) (k : Creator) (n : ℤ) (d d' : PageDir) (m : Kmem) (act : a = .step p n)
      (pc : s.sys.pc p = .copy k np) (dir : s.pgdir p = some d)
      (copy : Memory.copyuvm d (s.sys.core p).sz s.kmem = .ok (some d') m)
      (step : Containers.step s.sys (.step p (noPages n)) = .ok t.sys)
      (eq : t = { s.withKmem m with
        sys := t.sys, pgdir := Function.update s.pgdir np (some d') })
  | notCopied (p np : Slot) (k : Creator) (n : ℤ) (d : PageDir) (m m' : Kmem) (act : a = .step p n)
      (pc : s.sys.pc p = .copy k np) (dir : s.pgdir p = some d)
      (copy : Memory.copyuvm d (s.sys.core p).sz s.kmem = .ok none m)
      (free : Memory.kfree (s.stack np) m = .ok ⟨⟩ m')
      (step : Containers.step s.sys (.step p { noPages n with copied := false }) = .ok t.sys)
      (eq : t = { s.withKmem m' with sys := t.sys, pgdir := Function.update s.pgdir np none })
  | full (p np : Slot) (k : Creator) (n : ℤ) (m : Kmem) (act : a = .step p n)
      (pc : s.sys.pc p = .list k np) (full : ∃ x, k.insert s.sys.t p np = .ok (false, x))
      (free : Memory.kfree (s.stack np) s.kmem = .ok ⟨⟩ m)
      (step : Containers.step s.sys (.step p (noPages n)) = .ok t.sys)
      (eq : t = { s.withKmem m with sys := t.sys })
  | reaped (p q : Slot) (n : ℤ) (d : PageDir) (m m' : Kmem) (act : a = .step p n)
      (pc : s.sys.pc p = .waiting) (scan : s.sys.t.waitScan p = .reaped q)
      (dir : s.pgdir q = some d) (stack : Memory.kfree (s.stack q) s.kmem = .ok ⟨⟩ m)
      (free : Memory.freevm d m = .ok ⟨⟩ m')
      (step : Containers.step s.sys (.step p (noPages n)) = .ok t.sys)
      (eq : t = { s.withKmem m' with sys := t.sys, pgdir := Function.update s.pgdir q none })
  | reserve (p : Slot) (n : ℤ) (pages : Fin MCONT → Option Page) (m : Kmem) (act : a = .step p n)
      (pc : s.sys.pc p = .initContainer) (take : kallocs MCONT s.kmem = .ok pages m)
      (step : Containers.step s.sys (.step p { noPages n with pages := pages }) = .ok t.sys)
      (eq : t = { s.withKmem m with
        sys := t.sys
        reserved := Function.update s.reserved (s.sys.t.containerNum - 1)
          (s.reserved (s.sys.t.containerNum - 1) ++ (List.ofFn pages).reduceOption) })
  | growproc (p : Slot) (n : ℤ) (d d' : PageDir) (o : Option ℕ) (m : Kmem)
      (act : a = .growproc p n) (user : s.inUser p) (dir : s.pgdir p = some d)
      (grow : Memory.growproc d (s.sys.core p).sz n s.kmem = .ok (d', o) m)
      (eq : t = { s.withKmem m with
        sys := resize s.sys p o, pgdir := Function.update s.pgdir p (some d') })
  | exec (p : Slot) (prog : Program) (d : PageDir) (o : Option (PageDir × ℕ)) (m : Kmem)
      (act : a = .exec p prog) (user : s.inUser p) (dir : s.pgdir p = some d)
      (exec : Memory.exec d prog s.kmem = .ok o m)
      (eq : t = { s.withKmem m with
        sys := resize s.sys p (o.map Prod.snd)
        pgdir := o.elim s.pgdir fun x => Function.update s.pgdir p (some x.1) })
  | files (c : Files.Call) (act : a = .files c) (memory : ∀ l, c ≠ .memory l)
      (step : Files.step s.files c = .ok t.files) (eq : t = { s with files := t.files })

/-! ### Programs that return -/

theorem onMemory_eq_ok {x : Memory.Run α} {r : α} (h : onMemory x s = .ok r t) :
    ∃ m, x s.kmem = .ok r m ∧ t = s.withKmem m := by
  unfold onMemory at h
  cases hx : x s.kmem with
  | ok b m =>
    rw [hx] at h
    cases h
    exact ⟨m, rfl, rfl⟩
  | error r m =>
    rw [hx] at h
    cases h

theorem advance_eq_ok {e : Env} (h : advance p e s = .ok ⟨⟩ t) :
    Containers.step s.sys (.step p e) = .ok t.sys ∧ t = { s with sys := t.sys } := by
  simp only [advance, run_get_bind] at h
  cases hstep : Containers.step s.sys (.step p e) with
  | error r =>
    rw [hstep] at h
    cases h
  | ok sys =>
    rw [hstep] at h
    cases h
    exact ⟨rfl, rfl⟩

theorem finish_eq_ok {r : EStateM.Result Stop State α} (h : finish r = .ok t) :
    ∃ b, r = .ok b t := by
  cases r with
  | ok b u =>
    cases h
    exact ⟨b, rfl⟩
  | error r u => cases h

theorem freeKstack_eq_ok (h : freeKstack p s = .ok ⟨⟩ t) :
    ∃ m, Memory.kfree (s.stack p) s.kmem = .ok ⟨⟩ m ∧ t = s.withKmem m := onMemory_eq_ok h

theorem freePgdir_eq_ok (h : freePgdir p s = .ok ⟨⟩ t) :
    ∃ d m, s.pgdir p = some d ∧ Memory.freevm d s.kmem = .ok ⟨⟩ m ∧
      t = { s.withKmem m with pgdir := Function.update s.pgdir p none } := by
  simp only [freePgdir, run_get_bind] at h
  cases hd : s.pgdir p with
  | none =>
    rw [hd] at h
    cases h
  | some d =>
    rw [hd] at h
    obtain ⟨_, u, hu, h⟩ := bind_eq_ok h
    obtain ⟨m, hm, rfl⟩ := onMemory_eq_ok hu
    cases h
    exact ⟨d, m, rfl, hm, rfl⟩

/-! ### Sections -/

theorem section_move (h : sectionStep p n s = .ok ⟨⟩ t) : Move s (.step p n) t := by
  have hcalm : s.Plain p → advance p (noPages n) s = .ok ⟨⟩ t → Move s (.step p n) t := by
    intro hplain h
    obtain ⟨hstep, heq⟩ := advance_eq_ok h
    refine .calm _ hstep (.inr ⟨p, n, rfl, rfl⟩) ?_ heq
    rintro _ e ⟨⟩
    exact hplain
  simp only [sectionStep, run_get_bind] at h
  cases hpc : s.sys.pc p with
  | kstack k np =>
    simp only [hpc] at h
    split_ifs at h with hfor
    · obtain ⟨o, u, hu, h⟩ := bind_eq_ok h
      obtain ⟨m, hm, rfl⟩ := onMemory_eq_ok hu
      obtain ⟨hstep, heq⟩ := advance_eq_ok h
      exact .kstack p np k n o m rfl hpc (.inl ⟨hfor, hm⟩) hstep heq
    · obtain ⟨hstep, heq⟩ := advance_eq_ok h
      exact .kstack p np k n none s.kmem rfl hpc (.inr ⟨hfor, rfl, rfl⟩) hstep heq
  | copy k np =>
    simp only [hpc] at h
    cases hd : s.pgdir p with
    | none =>
      rw [hd] at h
      cases h
    | some d =>
      rw [hd] at h
      obtain ⟨o, u, hu, h⟩ := bind_eq_ok h
      obtain ⟨m, hm, rfl⟩ := onMemory_eq_ok hu
      cases o with
      | some d' =>
        obtain ⟨hstep, heq⟩ := advance_eq_ok h
        exact .copied p np k n d d' m rfl hpc hd hm hstep heq
      | none =>
        obtain ⟨_, _, ⟨⟩, h⟩ := bind_eq_ok h
        obtain ⟨_, u, hu, h⟩ := bind_eq_ok h
        obtain ⟨m', hm', rfl⟩ := freeKstack_eq_ok hu
        obtain ⟨hstep, heq⟩ := advance_eq_ok h
        exact .notCopied p np k n d m m' rfl hpc hd hm hm' hstep heq
  | list k np =>
    simp only [hpc] at h
    cases hins : k.insert s.sys.t p np with
    | error r =>
      rw [hins] at h
      refine hcalm ?_ h
      simp only [State.Plain, hpc, hins]
      exact nofun
    | ok x =>
      obtain ⟨b, x⟩ := x
      rw [hins] at h
      cases b with
      | true =>
        refine hcalm ?_ h
        simp only [State.Plain, hpc, hins]
        exact nofun
      | false =>
        obtain ⟨_, u, hu, h⟩ := bind_eq_ok h
        obtain ⟨m, hm, rfl⟩ := freeKstack_eq_ok hu
        obtain ⟨hstep, heq⟩ := advance_eq_ok h
        exact .full p np k n m rfl hpc ⟨x, hins⟩ hm hstep heq
  | waiting =>
    simp only [hpc] at h
    cases hscan : s.sys.t.waitScan p with
    | noKids | sleep =>
      rw [hscan] at h
      refine hcalm ?_ h
      simp only [State.Plain, hpc, hscan]
      exact nofun
    | reaped q =>
      rw [hscan] at h
      obtain ⟨_, u, hu, h⟩ := bind_eq_ok h
      obtain ⟨m, hm, rfl⟩ := freeKstack_eq_ok hu
      obtain ⟨_, v, hv, h⟩ := bind_eq_ok h
      obtain ⟨d, m', hd, hm', rfl⟩ := freePgdir_eq_ok hv
      obtain ⟨hstep, heq⟩ := advance_eq_ok h
      exact .reaped p q n d m m' rfl hpc hscan hd hm hm' hstep heq
  | initContainer =>
    simp only [hpc] at h
    obtain ⟨pages, u, hu, h⟩ := bind_eq_ok h
    obtain ⟨m, hm, rfl⟩ := onMemory_eq_ok hu
    obtain ⟨hstep, heq⟩ := advance_eq_ok h
    exact .reserve p n pages m rfl hpc hm hstep heq
  | _ =>
    simp only [hpc] at h
    refine hcalm ?_ h
    simp only [State.Plain, hpc]

theorem growproc_move {r : ℤ} (huser : s.inUser p) (h : growproc p n s = .ok r t) :
    Move s (.growproc p n) t := by
  simp only [growproc, run_get_bind] at h
  cases hd : s.pgdir p with
  | none =>
    rw [hd] at h
    cases h
  | some d =>
    rw [hd] at h
    obtain ⟨⟨d', o⟩, u, hu, h⟩ := bind_eq_ok h
    obtain ⟨m, hm, rfl⟩ := onMemory_eq_ok hu
    cases o with
    | none =>
      cases h
      exact .growproc p n d d' none m rfl huser hd hm rfl
    | some sz =>
      cases h
      exact .growproc p n d d' (some sz) m rfl huser hd hm rfl

theorem exec_move {r : ℤ} {prog : Program} (huser : s.inUser p) (h : exec p prog s = .ok r t) :
    Move s (.exec p prog) t := by
  simp only [exec, run_get_bind] at h
  cases hd : s.pgdir p with
  | none =>
    rw [hd] at h
    cases h
  | some d =>
    rw [hd] at h
    obtain ⟨o, u, hu, h⟩ := bind_eq_ok h
    obtain ⟨m, hm, rfl⟩ := onMemory_eq_ok hu
    cases o with
    | none =>
      cases h
      exact .exec p prog d none m rfl huser hd hm rfl
    | some x =>
      cases h
      exact .exec p prog d (some x) m rfl huser hd hm rfl

theorem step_move (h : step s a = .ok t) : Move s a t := by
  cases a with
  | step p n =>
    unfold step at h
    dsimp only at h
    split_ifs at h
    obtain ⟨_, h⟩ := finish_eq_ok h
    exact section_move h
  | growproc p n =>
    unfold step at h
    dsimp only at h
    split_ifs at h with huser
    obtain ⟨_, h⟩ := finish_eq_ok h
    exact growproc_move huser h
  | exec p prog =>
    unfold step at h
    dsimp only at h
    split_ifs at h with huser
    obtain ⟨_, h⟩ := finish_eq_ok h
    exact exec_move huser h
  | sys b =>
    cases b with
    | step p e => cases h
    | _ =>
      unfold step at h
      dsimp only at h
      split at h
      · cases h
      next sys hsys =>
        cases h
        exact .calm _ hsys (.inl rfl) nofun rfl
  | files c =>
    cases c with
    | memory l => cases h
    | _ =>
      unfold step at h
      dsimp only at h
      split at h
      · cases h
      next files hfiles =>
        cases h
        exact .files _ rfl nofun hfiles rfl

/-! ### The tables -/

/-- A column of the slots in which one entry has got an equal one. -/
theorem column_same {β : Type} {f g : Slot → Containers.Core} {v : Containers.Core}
    (φ : Containers.Core → β) (h : g = Function.update f p v) (hv : φ v = φ (f p)) (q : Slot) :
    φ (g q) = φ (f q) := by
  rw [h, Function.update_apply]
  split_ifs with hq
  · rw [hv, hq]
  · rfl

/-- Where no page moves the kernel stacks and the reserves stay. -/
theorem calm_columns {b : Containers.Act} {y : Sys} (hb : Containers.step s.sys b = .ok y)
    (hplain : ∀ p e, b = .step p e → s.Plain p) :
    (∀ q, (y.core q).kstack = (s.sys.core q).kstack) ∧ y.stock = s.sys.stock := by
  cases Containers.step_move hb with
  | same hcore hstock => exact ⟨fun q => by rw [hcore], hstock⟩
  | kill p q pid _ _ hcore hstock => exact ⟨column_same _ hcore rfl, hstock⟩
  | sleep p chan _ _ hcore hstock => exact ⟨column_same _ hcore rfl, hstock⟩
  | fields p np k e _ _ hcore hstock => exact ⟨column_same _ hcore rfl, hstock⟩
  | exit p e b _ _ hcore hstock =>
    refine ⟨fun q => ?_, hstock⟩
    rw [hcore]
    split_ifs
    · rfl
    · rfl
  | kstack p np k e page hact hpc _ _ _ =>
    have := hplain p e hact
    rw [State.Plain, hpc] at this
    exact this.elim
  | reserve p e c hact hpc _ _ _ =>
    have := hplain p e hact
    rw [State.Plain, hpc] at this
    exact this.elim
  | reap p q e hact hpc hscan _ _ =>
    have := hplain p e hact
    rw [State.Plain, hpc] at this
    exact absurd hscan (this q)
  | abandon p np k e hact hpc _ _ _ hback =>
    have hp := hplain p e hact
    subst hact
    obtain hpc | hpc := hpc
    · rw [State.Plain, hpc] at hp
      exact hp.elim
    · rw [State.Plain, hpc] at hp
      obtain ⟨x, -, rfl⟩ := Containers.listed_step hpc hp hb
      have huser : (Function.update s.sys.pc p (.fields k np)) p = .user := by
        rw [← Function.update_self p Containers.Pc.user s.sys.pc, ← hback]
        rfl
      rw [Function.update_self] at huser
      cases huser

/-- A process inside a call goes on in its own sections. -/
theorem step_of_busy {b : Containers.Act} {y : Sys} (h : Containers.step s.sys b = .ok y)
    (hq : y.pc q ≠ s.sys.pc q) (hbusy : s.sys.pc q ≠ .user) : ∃ e, b = .step q e := by
  obtain ⟨c, rfl, -⟩ | hstep := Containers.step_pc h hq
  · simp only [Containers.step] at h
    split_ifs at h with hp
    exact absurd hp.2 hbusy
  · exact hstep

/-- The section of `addContainer` writes one reserve. -/
theorem reserve_columns {e : Env} {y : Sys} (hpc : s.sys.pc p = .initContainer)
    (hy : Containers.step s.sys (.step p e) = .ok y) :
    ∃ c : Fin NCONT, s.sys.t.containerNum - 1 = c.val ∧ y.core = s.sys.core ∧
      y.stock = Function.update s.sys.stock c { s.sys.stock c with startAddr := e.pages } := by
  obtain ⟨x, hx, rfl⟩ := Containers.reserve_step hpc hy
  obtain ⟨c, hc, rfl⟩ := Containers.Tables.addContainer_ok hx
  refine ⟨c, hc, rfl, ?_⟩
  funext d
  rw [Function.update_apply]
  simp only [Containers.Sys.stock, Containers.Sys.goto, Containers.Tables.setContainer_container]
  split_ifs
  · rfl
  · rfl

/-- A new size writes nothing else. -/
theorem resize_columns (x : Sys) (p : Slot) (o : Option ℕ) :
    (resize x p o).core = (o.elim x.core fun sz =>
      Function.update x.core p { x.core p with sz := sz }) ∧ (resize x p o).stock = x.stock := by
  cases o with
  | none => exact ⟨rfl, rfl⟩
  | some sz => exact ⟨Containers.column_update Containers.Proc.core (p := p) rfl rfl, rfl⟩

theorem resize_kstack (x : Sys) (p : Slot) (o : Option ℕ) (q : Slot) :
    ((resize x p o).core q).kstack = (x.core q).kstack := by
  rw [(resize_columns x p o).1]
  cases o with
  | none => rfl
  | some sz => exact column_same (f := x.core) (p := p) (v := { x.core p with sz := sz }) _ rfl rfl q

theorem resize_pc (x : Sys) (p : Slot) (o : Option ℕ) : (resize x p o).pc = x.pc := by
  cases o <;> rfl

theorem resize_state (x : Sys) (p : Slot) (o : Option ℕ) : (resize x p o).state = x.state := by
  cases o with
  | none => rfl
  | some sz =>
    funext q
    show ((x.t.setProc p fun q => { q with sz := sz }).proc q).state = (x.t.proc q).state
    rw [Containers.Tables.setProc_proc]
    split_ifs with hq
    · rw [hq]
    · rfl

end Xv6Container.Kernel
