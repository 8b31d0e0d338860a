import Xv6Container.Containers.Reserve

/-! What one step does to the fields of a slot that few sections write: the size, the kernel
stack, the parent, `chan` and `killed`, and to the reserves of the containers. The states and names
are in the effects; the invariants about parents, kills and pages are proved from both. -/

namespace Xv6Container.Containers

variable {s t : Sys} {a : Act}

/-! ### Views of a state -/

/-- The fields of a slot that outlive a switch. -/
structure Core where
  sz : ℕ
  kstack : Option Page
  parent : Option Slot
  chan : Option Chan
  killed : Bool

def Proc.core (q : Proc) : Core := ⟨q.sz, q.kstack, q.parent, q.chan, q.killed⟩

/-- The reserve of a container and how many of its pages have been handed out. -/
structure Stock where
  startAddr : Fin MCONT → Option Page
  used : ℤ

def Container.stock (k : Container) : Stock := ⟨k.startAddr, k.used⟩

namespace Sys

def core (s : Sys) (p : Slot) : Core := (s.t.proc p).core
def stock (s : Sys) (c : Fin NCONT) : Stock := (s.t.container c).stock

end Sys

/-- Tables that agree on these fields. -/
structure Still (x y : Tables) : Prop where
  core : ∀ p, (y.proc p).core = (x.proc p).core
  stock : ∀ c, (y.container c).stock = (x.container c).stock
  initproc : y.initproc = x.initproc

namespace Still

variable {x y z : Tables}

theorem refl (x : Tables) : Still x x := ⟨fun _ => rfl, fun _ => rfl, rfl⟩

theorem setProc (x : Tables) (p : Slot) (f : Proc → Proc)
    (h : (f (x.proc p)).core = (x.proc p).core) : Still x (x.setProc p f) where
  core q := by
    rw [Tables.setProc_proc]
    split_ifs with hq
    · rw [hq, h]
    · rfl
  stock _ := rfl
  initproc := rfl

theorem setContainer (x : Tables) (c : Fin NCONT) (g : Container → Container)
    (h : (g (x.container c)).stock = (x.container c).stock) : Still x (x.setContainer c g) where
  core _ := rfl
  stock d := by
    rw [Tables.setContainer_container]
    split_ifs with hd
    · rw [hd, h]
    · rfl
  initproc := rfl

theorem wakeup1 (x : Tables) (chan : Chan) : Still x (x.wakeup1 chan) where
  core p := by
    simp only [Tables.wakeup1]
    split_ifs <;> rfl
  stock _ := rfl
  initproc := rfl

theorem wakeupParent (x : Tables) (cur : Slot) : Still x (x.wakeupParent cur) := by
  unfold Tables.wakeupParent
  split
  · exact refl x
  · exact wakeup1 x _

theorem pick {u u' : Cpu} (h : Containers.pick x u = .ok (y, u')) : Still x y := by
  unfold Containers.pick at h
  split at h
  · split at h
    · cases h
    · split at h
      · cases h
        exact refl x
      · simp only [Except.ok.injEq, Prod.mk.injEq] at h
        rw [← h.1]
        split_ifs
        · exact setContainer x _ _ rfl
        · exact refl x
  · cases h
    exact refl x

theorem scan (x : Tables) (u : Cpu) (next : ℕ) : Still x (Containers.scan x u next).1 := by
  unfold Containers.scan
  split
  · exact refl x
  next p _ => exact setProc x p (fun q => { q with state := .running }) rfl

theorem check {u u' : Cpu} (h : Containers.check x u = .ok (y, u')) : Still x y := by
  unfold Containers.check at h
  dsimp only at h
  split at h
  · split at h
    · cases h
    · split at h
      · cases h
        exact setContainer x _ _ rfl
      · cases h
        exact refl x
  · cases h
    exact refl x

theorem endRound {u u' : Cpu} (h : Containers.endRound x u = .ok (y, u')) : Still x y := by
  unfold Containers.endRound at h
  dsimp only at h
  split at h
  · split at h
    · cases h
      refine ⟨fun _ => rfl, fun c => ?_, rfl⟩
      dsimp only
      split_ifs <;> rfl
    · cases h
  · cases h
    exact refl x

theorem schedStep {u u' : Cpu} (h : Containers.schedStep x u = .ok (y, u')) : Still x y := by
  unfold Containers.schedStep at h
  split_ifs at h
  split at h
  · exact pick h
  next next _ =>
    have := scan x u next
    rw [Except.ok.inj h] at this
    exact this
  · exact check h
  · exact endRound h

theorem insert {k : Creator} {p np : Slot} {b : Bool} (h : k.insert x p np = .ok (b, y)) :
    Still x y := by
  have hinsert : ∀ c, x.insertProcess c np = .ok (b, y) → Still x y := by
    intro c hc
    obtain ⟨-, rfl⟩ | ⟨d, i, -, -, -, rfl⟩ := Tables.insertProcess_ok hc
    · exact refl _
    · exact setContainer x d _ rfl
  cases k with
  | join c pp => exact hinsert c h
  | fork =>
    simp only [Creator.insert, Tables.forkInsert] at h
    split_ifs at h
    · exact hinsert _ h
    · cases h
      exact refl x

theorem removeProcess {p : Slot} {pp n : ℤ} (h : x.removeProcess p pp n = .ok y) : Still x y := by
  obtain rfl | ⟨c, i, -, -, rfl⟩ := Tables.removeProcess_ok h
  · exact refl _
  · exact setContainer x c _ rfl

end Still

/-! ### The move of a step -/

/-- Where the kernel stack of a new process comes from. -/
inductive Taken (s : Sys) (e : Env) (page : Option Page) (t : Sys) : Prop
  | kalloc (allocFor : s.t.allocFor = 0) (page : page = e.page) (stock : t.stock = s.stock)
  | conalloc (c : Fin NCONT) (i : Fin MCONT) (joining : s.t.allocFor ≠ 0)
      (allocFor : s.t.allocFor = c.val) (used : (s.stock c).used = i.val)
      (page : page = (s.stock c).startAddr i)
      (stock : t.stock = Function.update s.stock c { s.stock c with used := i.val + 1 })

/-- What a step writes. -/
inductive SlotMove (s : Sys) (a : Act) (t : Sys) : Prop
  | same (core : t.core = s.core) (stock : t.stock = s.stock)
  | kill (p q : Slot) (pid : ℤ) (act : a = .call p (.kill pid))
      (found : Fin.find? (fun x => (s.t.proc x).pid == pid) = some q)
      (core : t.core = Function.update s.core q { s.core q with killed := true })
      (stock : t.stock = s.stock)
  | sleep (p : Slot) (chan : Chan) (running : s.state p = .running)
      (act : a = .sleep p chan ∨ s.pc p = .waiting ∧ chan = .proc p)
      (core : t.core = Function.update s.core p { s.core p with chan := some chan })
      (stock : t.stock = s.stock)
  | kstack (p np : Slot) (k : Creator) (e : Env) (page : Option Page) (act : a = .step p e)
      (pc : s.pc p = .kstack k np)
      (core : t.core = Function.update s.core np { s.core np with kstack := page })
      (taken : Taken s e page t)
      (next : ∃ pc, t.pc = Function.update s.pc p pc ∧
        (page = none ∧ pc = .user ∨ ∃ m, page = some m ∧ pc.stage = .fresh np ∧
          (pc = .copy k np ∨ pc = .resetAlloc k np)))
  | abandon (p np : Slot) (k : Creator) (e : Env) (act : a = .step p e)
      (pc : s.pc p = .copy k np ∨ s.pc p = .list k np) (fresh : s.stage p = .fresh np)
      (core : t.core = Function.update s.core np { s.core np with kstack := none })
      (stock : t.stock = s.stock) (back : t.pc = Function.update s.pc p .user)
  | fields (p np : Slot) (k : Creator) (e : Env) (act : a = .step p e) (pc : s.pc p = .fields k np)
      (core : t.core = Function.update s.core np
        { s.core np with sz := (s.core p).sz, parent := some p })
      (stock : t.stock = s.stock)
  | exit (p : Slot) (e : Env) (b : Bool) (act : a = .step p e) (pc : s.pc p = .exiting b)
      (core : ∀ q, t.core q = if (s.core q).parent = some p then
        { s.core q with parent := some s.t.initproc } else s.core q)
      (stock : t.stock = s.stock)
  | reap (p q : Slot) (e : Env) (act : a = .step p e) (pc : s.pc p = .waiting)
      (reaped : s.t.waitScan p = .reaped q)
      (core : t.core = Function.update s.core q
        { s.core q with kstack := none, parent := none, killed := false })
      (stock : t.stock = s.stock)
  | reserve (p : Slot) (e : Env) (c : Fin NCONT) (act : a = .step p e)
      (pc : s.pc p = .initContainer) (last : s.t.containerNum - 1 = c.val) (core : t.core = s.core)
      (stock : t.stock = Function.update s.stock c { s.stock c with startAddr := e.pages })

/-- Tables in which nothing of this has changed. -/
theorem Still.move {x : Tables} (h : Still s.t x) (ht : t.t = x) : SlotMove s a t := by
  subst ht
  exact .same (funext h.core) (funext h.stock)

/-- The record that `kill` leaves. -/
def Proc.kill (q : Proc) : Proc :=
  { q with killed := true, state := if q.state = .sleeping then .runnable else q.state }

theorem Tables.kill_none {x : Tables} {pid : ℤ}
    (h : Fin.find? (fun p => (x.proc p).pid == pid) = none) : x.kill pid = (-1, x) := by
  unfold Tables.kill
  rw [h]

theorem Tables.kill_some {x : Tables} {pid : ℤ} {q : Slot}
    (h : Fin.find? (fun p => (x.proc p).pid == pid) = some q) :
    x.kill pid = (0, x.setProc q Proc.kill) := by
  unfold Tables.kill
  rw [h]
  rfl

theorem kill_move {p : Slot} {pid : ℤ} :
    SlotMove s (.call p (.kill pid)) (s.back p (s.t.kill pid).1 (s.t.kill pid).2) := by
  cases hfind : Fin.find? (fun x => (s.t.proc x).pid == pid) with
  | none =>
    rw [Tables.kill_none hfind]
    exact .same rfl rfl
  | some q =>
    rw [Tables.kill_some hfind]
    exact .kill p q pid rfl hfind (column_update Proc.core (p := q) rfl rfl) rfl

/-- The section that gets a kernel stack: where it comes from, and where the creator goes on. -/
structure NewStack (s : Sys) (p np : Slot) (k : Creator) (e : Env) (page : Option Page) (t : Sys) :
    Prop where
  core : t.core = Function.update s.core np { s.core np with kstack := page }
  taken : Taken s e page t
  next : ∃ pc, t.pc = Function.update s.pc p pc ∧
    (page = none ∧ pc = .user ∨ ∃ m, page = some m ∧ pc.stage = .fresh np ∧
      (pc = .copy k np ∨ pc = .resetAlloc k np))

theorem allocKstack_new {p np : Slot} {k : Creator} {e : Env} {b : Bool} {x : Tables}
    (h : s.t.allocKstack np e.page = .ok (b, x))
    (ht : t.t = x) (hb : if b then t.pc = Function.update s.pc p (.copy k np) ∨
      t.pc = Function.update s.pc p (.resetAlloc k np) else t.pc = Function.update s.pc p .user) :
    ∃ page, NewStack s p np k e page t := by
  subst ht
  -- the tables before the stack is stored
  obtain ⟨y, mem, hset, hproc, htaken⟩ : ∃ (y : Tables) (mem : Option Page),
      y.setKstack np mem = (b, t.t) ∧ y.proc = s.t.proc ∧
        (y.container = t.t.container → Taken s e mem t) := by
    unfold Tables.allocKstack at h
    split_ifs at h with h0
    · refine ⟨s.t, e.page, Except.ok.inj h, rfl, fun hcon => ?_⟩
      refine .kalloc h0 rfl ?_
      funext c
      simp only [Sys.stock, hcon]
    · split at h
      · cases h
      next mem y hcon =>
        obtain ⟨c, i, hc, hi, hmem, rfl⟩ := Tables.conalloc_ok hcon
        refine ⟨_, mem, Except.ok.inj h, rfl, fun hcon' => ?_⟩
        refine .conalloc c i h0 hc hi hmem ?_
        funext d
        simp only [Sys.stock, ← hcon', Tables.setContainer_container, Function.update_apply]
        split_ifs with hd
        · rfl
        · rfl
  cases mem with
  | none =>
    obtain ⟨rfl, ht⟩ := Prod.mk.inj hset
    refine ⟨none, ?_, htaken (by rw [← ht]; rfl), .user, hb, .inl ⟨rfl, rfl⟩⟩
    have hset : t.t.proc =
        Function.update s.t.proc np { s.t.proc np with kstack := none, state := .unused } := by
      rw [← ht, ← hproc]
      rfl
    exact column_update Proc.core hset rfl
  | some m =>
    obtain ⟨rfl, ht⟩ := Prod.mk.inj hset
    have hnext : ∃ pc, t.pc = Function.update s.pc p pc ∧ pc.stage = .fresh np ∧
        (pc = .copy k np ∨ pc = .resetAlloc k np) := by
      obtain hpc' | hpc' := hb
      · exact ⟨_, hpc', rfl, .inl rfl⟩
      · exact ⟨_, hpc', rfl, .inr rfl⟩
    obtain ⟨pc, heq, hpc'⟩ := hnext
    refine ⟨some m, ?_, htaken (by rw [← ht]; rfl), pc, heq, .inr ⟨m, rfl, hpc'⟩⟩
    have hset : t.t.proc =
        Function.update s.t.proc np { s.t.proc np with kstack := some m } := by
      rw [← ht, ← hproc]
      rfl
    exact column_update Proc.core hset rfl

theorem kstack_new {p np : Slot} {k : Creator} {e : Env} (hpc : s.pc p = .kstack k np)
    (h : sectionStep s p e = .ok t) : ∃ page, NewStack s p np k e page t := by
  simp only [sectionStep, hpc] at h
  split at h
  · cases h
  next x hx => cases h; exact allocKstack_new hx rfl rfl
  next x hx =>
    split at h
    · cases h; exact allocKstack_new hx rfl (.inl rfl)
    · cases h; exact allocKstack_new hx rfl (.inr rfl)

theorem abandon_move {p np : Slot} {k : Creator} {e : Env} {r : ℤ} {x : Tables}
    (hpc : s.pc p = .copy k np ∨ s.pc p = .list k np) (hx : Still s.t x) :
    SlotMove s (.step p e) (s.back p r (x.abandon np)) := by
  have hfresh : s.stage p = .fresh np := by
    obtain hpc | hpc := hpc <;> simp only [Sys.stage, hpc, Pc.stage]
  have hsame : (fun q => (x.proc q).core) = s.core := funext hx.core
  refine .abandon p np k e rfl hpc hfresh ?_ (funext hx.stock) rfl
  have hcore : (s.back p r (x.abandon np)).core = Function.update (fun q => (x.proc q).core) np
      { (x.proc np).core with kstack := none } := column_update Proc.core (p := np) rfl rfl
  rw [hcore, hsame, hx.core]
  rfl

theorem Tables.exitLocked_core (x : Tables) (p q : Slot) : ((x.exitLocked p).proc q).core =
    if (x.proc q).parent = some p then { (x.proc q).core with parent := some x.initproc }
    else (x.proc q).core := by
  have hparent := Still.wakeupParent x p
  have hwake := Still.wakeup1 ((x.wakeupParent p).reparent p) (.proc x.initproc)
  have hrep : ((x.exitLocked p).proc q).core =
      (((x.wakeupParent p).reparent p).proc q).core := by
    unfold Tables.exitLocked
    rw [(Still.setProc _ p (fun q => { q with state := .zombie }) rfl).core q]
    split_ifs
    · exact hwake.core q
    · rfl
  have hq := hparent.core q
  have hold : ((x.wakeupParent p).proc q).parent = (x.proc q).parent := congrArg Core.parent hq
  rw [hrep]
  simp only [Tables.reparent, hold]
  split_ifs
  · rw [hparent.initproc, ← hq]
    rfl
  · exact hq

theorem Tables.exitLocked_stock (x : Tables) (p : Slot) (c : Fin NCONT) :
    ((x.exitLocked p).container c).stock = (x.container c).stock := by
  have hparent := Still.wakeupParent x p
  unfold Tables.exitLocked
  rw [Tables.setProc_container]
  split_ifs
  · exact hparent.stock c
  · exact hparent.stock c

theorem section_move {p : Slot} {e : Env} (hrun : s.state p = .running)
    (h : sectionStep s p e = .ok t) : SlotMove s (.step p e) t := by
  unfold sectionStep at h
  split at h
  next => cases h
  next c pp hpc => cases h; exact .same rfl rfl
  next k hpc =>
    split at h
    next => cases h
    next => cases h; exact .same rfl rfl
    next np x hx =>
      cases h
      obtain ⟨-, -, rfl⟩ := Tables.allocproc_some hx
      have hset := Still.setProc s.t np (fun q => { q with state := .embryo, pid := s.t.nextpid })
        rfl
      exact .same (funext hset.core) (funext hset.stock)
  next k np hpc =>
    have hsec : sectionStep s p e = .ok t := by
      unfold sectionStep
      rw [hpc]
      exact h
    obtain ⟨page, hnew⟩ := kstack_new hpc hsec
    exact .kstack p np k e page rfl hpc hnew.core hnew.taken hnew.next
  next k np hpc => cases h; exact .same rfl rfl
  next k np hpc =>
    split_ifs at h
    · cases h; exact .same rfl rfl
    · cases h; exact abandon_move (.inl hpc) (.refl s.t)
  next k np hpc =>
    split at h
    next => cases h
    next x hx => cases h; exact abandon_move (.inr hpc) (.insert hx)
    next x hx => cases h; exact (Still.insert hx).move rfl
  next k np hpc =>
    cases h
    exact .fields p np k e rfl hpc (column_update Proc.core (p := np) rfl rfl) rfl
  next k np hpc =>
    have hset := Still.setProc s.t np (fun q => { q with state := .runnable }) rfl
    split at h
    · cases h; exact hset.move rfl
    · cases h; exact hset.move rfl
  next pp hpc =>
    split at h
    next => cases h
    next x hx =>
      split_ifs at h
      cases h
      exact (Still.removeProcess hx).move rfl
  next b hpc =>
    cases h
    exact .exit p e b rfl hpc (s.t.exitLocked_core p) (funext (s.t.exitLocked_stock p))
  next hpc =>
    split at h
    next q hq =>
      cases h
      exact .reap p q e rfl hpc hq (column_update Proc.core (p := q) rfl rfl) rfl
    next => cases h; exact .same rfl rfl
    next =>
      cases h
      exact .sleep p (.proc p) hrun (.inr ⟨hpc, rfl⟩) (column_update Proc.core (p := p) rfl rfl) rfl
  next hpc =>
    split at h
    next => cases h
    next x hx =>
      cases h
      obtain ⟨c, hc, rfl⟩ := Tables.addContainer_ok hx
      refine .reserve p e c rfl hpc hc rfl ?_
      funext d
      simp only [Sys.stock, Sys.goto, Tables.setContainer_container, Function.update_apply]
      split_ifs
      · rfl
      · rfl
  next hpc => cases h; exact .same rfl rfl

theorem step_move (h : step s a = .ok t) : SlotMove s a t := by
  cases a with
  | call p c =>
    simp only [step] at h
    split_ifs at h with hp
    cases c with
    | kill pid => cases h; exact kill_move
    | containerProcessNum c =>
      simp only [callStep] at h
      split at h
      · cases h
      · cases h; exact .same rfl rfl
    | exit =>
      simp only [callStep] at h
      split_ifs at h
      cases h
      exact .same rfl rfl
    | _ => cases h; exact .same rfl rfl
  | step p e =>
    simp only [step] at h
    split_ifs at h with hrun
    exact section_move hrun h
  | yield p =>
    simp only [step] at h
    split_ifs at h
    cases h
    exact (Still.setProc s.t p (fun q => { q with state := .runnable }) rfl).move rfl
  | sleep p chan =>
    simp only [step] at h
    split_ifs at h with hp
    cases h
    exact .sleep p chan hp.1 (.inl rfl) (column_update Proc.core (p := p) rfl rfl) rfl
  | wakeup chan => cases h; exact (Still.wakeup1 s.t chan).move rfl
  | sched n =>
    simp only [step] at h
    split at h
    · cases h
    next x u hx => cases h; exact (Still.schedStep hx).move rfl

/-! ### Who acts -/

/-- A section moves nobody but its own process. -/
theorem section_pc {p q : Slot} {e : Env} (h : sectionStep s p e = .ok t) (hq : q ≠ p) :
    t.pc q = s.pc q := by
  unfold sectionStep at h
  split at h
  case h_1 => cases h
  case h_2 | h_5 | h_8 | h_11 | h_14 => cases h; exact Function.update_of_ne hq ..
  case h_6 => split_ifs at h <;> cases h <;> exact Function.update_of_ne hq ..
  case h_10 =>
    split at h
    · cases h
    · split_ifs at h
      cases h
      exact Function.update_of_ne hq ..
  case h_4 =>
    split at h
    · cases h
    · cases h; exact Function.update_of_ne hq ..
    · split at h <;> cases h <;> exact Function.update_of_ne hq ..
  case h_13 =>
    split at h
    · cases h
    · cases h; exact Function.update_of_ne hq ..
  case h_9 | h_12 => split at h <;> cases h <;> exact Function.update_of_ne hq ..
  case h_3 | h_7 =>
    split at h
    · cases h
    · cases h; exact Function.update_of_ne hq ..
    · cases h; exact Function.update_of_ne hq ..

theorem call_pc {p q : Slot} {c : Call} (h : callStep s p c = .ok t) (hq : q ≠ p) :
    t.pc q = s.pc q := by
  cases c with
  | containerProcessNum c =>
    simp only [callStep] at h
    split at h
    · cases h
    · cases h
      exact Function.update_of_ne hq ..
  | exit =>
    simp only [callStep] at h
    split_ifs at h
    cases h
    exact Function.update_of_ne hq ..
  | _ => cases h; exact Function.update_of_ne hq ..

theorem call_stage {p : Slot} {c : Call} (hpc : s.pc p = .user) (h : callStep s p c = .ok t) :
    t.stage = s.stage := by
  have hidle : s.stage p = .idle := by simp only [Sys.stage, hpc, Pc.stage]
  cases c with
  | containerProcessNum c =>
    simp only [callStep] at h
    split at h
    · cases h
    · cases h
      exact stage_back_idle hidle
  | exit =>
    simp only [callStep] at h
    split_ifs at h
    cases h
    exact stage_goto_same hidle.symm
  | kill pid | scheduler_log_on => cases h; exact stage_back_idle hidle
  | _ => cases h; exact stage_goto_same hidle.symm

/-- The place of a process changes in its own calls and sections. -/
theorem step_pc {q : Slot} (ht : step s a = .ok t) (hq : t.pc q ≠ s.pc q) :
    (∃ c, a = .call q c ∧ callStep s q c = .ok t) ∨ ∃ e, a = .step q e := by
  cases a with
  | call p c =>
    simp only [step] at ht
    split_ifs at ht
    by_cases hqp : q = p
    · subst hqp
      exact .inl ⟨c, rfl, ht⟩
    · exact absurd (call_pc ht hqp) hq
  | step p e =>
    simp only [step] at ht
    split_ifs at ht
    by_cases hqp : q = p
    · subst hqp
      exact .inr ⟨e, rfl⟩
    · exact absurd (section_pc ht hqp) hq
  | yield p =>
    simp only [step] at ht
    split_ifs at ht
    cases ht
    exact absurd rfl hq
  | sleep p chan =>
    simp only [step] at ht
    split_ifs at ht
    cases ht
    exact absurd rfl hq
  | wakeup chan =>
    cases ht
    exact absurd rfl hq
  | sched n =>
    simp only [step] at ht
    split at ht
    · cases ht
    · cases ht
      exact absurd rfl hq

/-- A process that holds a slot lets go of it or passes on only in its own sections. -/
theorem step_of_stage {q : Slot} (ht : step s a = .ok t) (hq : t.stage q ≠ s.stage q) :
    ∃ e, a = .step q e := by
  have hpc : t.pc q ≠ s.pc q := by
    intro hpc
    rw [Sys.stage, hpc] at hq
    exact hq rfl
  obtain ⟨c, rfl, hc⟩ | hstep := step_pc ht hpc
  · simp only [step] at ht
    split_ifs at ht with hp
    exact absurd (congrFun (call_stage hp.2 hc) q) hq
  · exact hstep

/-- Where a process has been before it fills a slot at a place. -/
def Pc.Before (x : Pc) : Pc → Prop
  | .kstack k _ => x = .alloc k
  | .resetAlloc k np => x = .kstack k np
  | .copy k np => x = .kstack k np ∨ x = .resetAlloc k np
  | .list k np => x = .copy k np
  | .fields k np => x = .list k np
  | .publish k np => x = .fields k np
  | _ => True

theorem section_before {p : Slot} {e : Env} (h : sectionStep s p e = .ok t) :
    (s.pc p).Before (t.pc p) := by
  have hpc : ∀ {pc : Pc}, t.pc = Function.update s.pc p pc → (s.pc p).Before pc →
      (s.pc p).Before (t.pc p) := by
    intro pc heq hbefore
    rw [heq, Function.update_self]
    exact hbefore
  unfold sectionStep at h
  split at h
  next => cases h
  next c pp _ => cases h; exact hpc rfl trivial
  next k hk =>
    split at h
    · cases h
    · cases h; exact hpc rfl trivial
    · cases h; exact hpc rfl hk
  next k np hk =>
    split at h
    · cases h
    · cases h; exact hpc rfl trivial
    · split at h
      · cases h; exact hpc rfl (.inl hk)
      · cases h; exact hpc rfl hk
  next k np hk => cases h; exact hpc rfl (.inr hk)
  next k np hk =>
    split_ifs at h
    · cases h; exact hpc rfl hk
    · cases h; exact hpc rfl trivial
  next k np hk =>
    split at h
    · cases h
    · cases h; exact hpc rfl trivial
    · cases h; exact hpc rfl hk
  next k np hk => cases h; exact hpc rfl hk
  next k np hk =>
    split at h
    · cases h; exact hpc rfl trivial
    · cases h; exact hpc rfl trivial
  next pp _ =>
    split at h
    · cases h
    · split_ifs at h
      cases h
      exact hpc rfl trivial
  next b _ => cases h; exact hpc rfl trivial
  next =>
    split at h
    · cases h; exact hpc rfl trivial
    · cases h; exact hpc rfl trivial
    · cases h; exact hpc rfl trivial
  next =>
    split at h
    · cases h
    · cases h; exact hpc rfl trivial
  next => cases h; exact hpc rfl trivial

theorem call_before {p : Slot} {c : Call} (h : callStep s p c = .ok t) :
    (s.pc p).Before (t.pc p) := by
  have hpc : ∀ {pc : Pc}, t.pc = Function.update s.pc p pc → (s.pc p).Before pc →
      (s.pc p).Before (t.pc p) := by
    intro pc heq hbefore
    rw [heq, Function.update_self]
    exact hbefore
  cases c with
  | containerProcessNum c =>
    simp only [callStep] at h
    split at h
    · cases h
    · cases h; exact hpc rfl trivial
  | exit =>
    simp only [callStep] at h
    split_ifs at h
    cases h
    exact hpc rfl trivial
  | _ => cases h; exact hpc rfl trivial

theorem step_before {q : Slot} (ht : step s a = .ok t) (hq : t.pc q ≠ s.pc q) :
    (s.pc q).Before (t.pc q) := by
  obtain ⟨c, -, hc⟩ | ⟨e, rfl⟩ := step_pc ht hq
  · exact call_before hc
  · simp only [step] at ht
    split_ifs at ht
    exact section_before ht

/-! ### The first process -/

theorem Tables.exitLocked_initproc (x : Tables) (p : Slot) :
    (x.exitLocked p).initproc = x.initproc := by
  have hparent := (Still.wakeupParent x p).initproc
  unfold Tables.exitLocked
  rw [Tables.setProc_initproc]
  split_ifs
  · exact hparent
  · exact hparent

theorem Tables.allocKstack_initproc {x y : Tables} {np : Slot} {page : Option Page} {b : Bool}
    (h : x.allocKstack np page = .ok (b, y)) : y.initproc = x.initproc := by
  have hset : ∀ (z : Tables) (mem : Option Page), z.setKstack np mem = (b, y) →
      y.initproc = z.initproc := by
    intro z mem hz
    cases mem with
    | none =>
      obtain ⟨-, rfl⟩ := Prod.mk.inj hz
      rfl
    | some m =>
      obtain ⟨-, rfl⟩ := Prod.mk.inj hz
      rfl
  unfold Tables.allocKstack at h
  split_ifs at h
  · exact hset x page (Except.ok.inj h)
  · split at h
    · cases h
    next mem z hz =>
      obtain ⟨c, i, -, -, -, rfl⟩ := Tables.conalloc_ok hz
      have hinit := hset _ mem (Except.ok.inj h)
      exact hinit

theorem section_initproc {p : Slot} {e : Env} (h : sectionStep s p e = .ok t) :
    t.t.initproc = s.t.initproc := by
  unfold sectionStep at h
  split at h
  next => cases h
  next => cases h; rfl
  next =>
    split at h
    next => cases h
    next => cases h; rfl
    next x hx =>
      cases h
      obtain ⟨-, -, rfl⟩ := Tables.allocproc_some hx
      rfl
  next =>
    split at h
    next => cases h
    next x hx => cases h; exact Tables.allocKstack_initproc hx
    next x hx => split at h <;> cases h <;> exact Tables.allocKstack_initproc hx
  next => cases h; rfl
  next => split_ifs at h <;> cases h <;> rfl
  next =>
    split at h
    next => cases h
    next x hx => cases h; exact (Still.insert hx).initproc
    next x hx => cases h; exact (Still.insert hx).initproc
  next => cases h; rfl
  next => split at h <;> cases h <;> rfl
  next =>
    split at h
    next => cases h
    next x hx =>
      split_ifs at h
      cases h
      exact (Still.removeProcess hx).initproc
  next => cases h; exact Tables.exitLocked_initproc s.t p
  next => split at h <;> cases h <;> rfl
  next =>
    split at h
    next => cases h
    next x hx =>
      cases h
      obtain ⟨c, -, rfl⟩ := Tables.addContainer_ok hx
      rfl
  next => cases h; rfl

theorem step_initproc (h : step s a = .ok t) : t.t.initproc = s.t.initproc := by
  cases a with
  | call p c =>
    simp only [step] at h
    split_ifs at h with hp
    cases c with
    | kill pid =>
      cases h
      cases hfind : Fin.find? (fun x => (s.t.proc x).pid == pid) with
      | none => rw [Tables.kill_none hfind]; rfl
      | some q => rw [Tables.kill_some hfind]; rfl
    | containerProcessNum c =>
      simp only [callStep] at h
      split at h
      · cases h
      · cases h; rfl
    | exit =>
      simp only [callStep] at h
      split_ifs at h
      cases h
      rfl
    | _ => cases h; rfl
  | step p e =>
    simp only [step] at h
    split_ifs at h
    exact section_initproc h
  | yield p =>
    simp only [step] at h
    split_ifs at h
    cases h
    rfl
  | sleep p chan =>
    simp only [step] at h
    split_ifs at h
    cases h
    rfl
  | wakeup chan => cases h; rfl
  | sched n =>
    simp only [step] at h
    split at h
    · cases h
    next x u hx => cases h; exact (Still.schedStep hx).initproc

/-! ### Steps from known places -/

section Known
variable {p : Slot} {e : Env}

theorem running_of_step (ht : step s (.step p e) = .ok t) :
    s.state p = .running ∧ sectionStep s p e = .ok t := by
  simp only [step] at ht
  split_ifs at ht with hrun
  exact ⟨hrun, ht⟩

theorem reap_step {q : Slot} (hpc : s.pc p = .waiting) (hq : s.t.waitScan p = .reaped q)
    (ht : step s (.step p e) = .ok t) : t = s.back p (s.t.proc q).pid (s.t.reap q) := by
  have hsec := (running_of_step ht).2
  simp only [sectionStep, hpc, hq] at hsec
  exact (Except.ok.inj hsec).symm

theorem wait_step (hpc : s.pc p = .waiting) (hq : s.t.waitScan p = .sleep)
    (ht : step s (.step p e) = .ok t) :
    t = (s.goto p .waiting (s.t.sleepOn p (.proc p))).offCpu p := by
  have hsec := (running_of_step ht).2
  simp only [sectionStep, hpc, hq] at hsec
  exact (Except.ok.inj hsec).symm

theorem fields_step {k : Creator} {np : Slot} (hpc : s.pc p = .fields k np)
    (ht : step s (.step p e) = .ok t) :
    t = s.goto p (.publish k np) (s.t.copyFields p np (k.target s.t p)) := by
  have hsec := (running_of_step ht).2
  simp only [sectionStep, hpc] at hsec
  exact (Except.ok.inj hsec).symm

theorem setAlloc_step {c pp : ℤ} (hpc : s.pc p = .setAlloc c pp) (ht : step s (.step p e) = .ok t) :
    t = s.goto p (.alloc (.join c pp)) { s.t with allocFor := c } := by
  have hsec := (running_of_step ht).2
  simp only [sectionStep, hpc] at hsec
  exact (Except.ok.inj hsec).symm

theorem alloc_step {k : Creator} (hpc : s.pc p = .alloc k) (ht : step s (.step p e) = .ok t) :
    s.t.allocproc = .ok none ∧ t = s.back p (-1) s.t ∨
      ∃ np x, s.t.allocproc = .ok (some (np, x)) ∧ t = s.goto p (.kstack k np) x := by
  have hsec := (running_of_step ht).2
  simp only [sectionStep, hpc] at hsec
  split at hsec
  · cases hsec
  next hx => exact .inl ⟨hx, (Except.ok.inj hsec).symm⟩
  next np x hx => exact .inr ⟨np, x, hx, (Except.ok.inj hsec).symm⟩

theorem allocKstack_step {k : Creator} {np : Slot} (hpc : s.pc p = .kstack k np)
    (ht : step s (.step p e) = .ok t) :
    ∃ x, s.t.allocKstack np e.page = .ok (false, x) ∧ t = s.back p (-1) x ∨
      s.t.allocKstack np e.page = .ok (true, x) ∧
        (t = s.goto p (.copy k np) x ∨ t = s.goto p (.resetAlloc k np) x) := by
  have hsec := (running_of_step ht).2
  simp only [sectionStep, hpc] at hsec
  split at hsec
  · cases hsec
  next x hx => exact ⟨x, .inl ⟨hx, (Except.ok.inj hsec).symm⟩⟩
  next x hx =>
    refine ⟨x, .inr ⟨hx, ?_⟩⟩
    split at hsec
    · exact .inl (Except.ok.inj hsec).symm
    · exact .inr (Except.ok.inj hsec).symm

theorem resetAlloc_step {k : Creator} {np : Slot} (hpc : s.pc p = .resetAlloc k np)
    (ht : step s (.step p e) = .ok t) : t = s.goto p (.copy k np) { s.t with allocFor := 0 } := by
  have hsec := (running_of_step ht).2
  simp only [sectionStep, hpc] at hsec
  exact (Except.ok.inj hsec).symm

theorem copied_step {k : Creator} {np : Slot} (hpc : s.pc p = .copy k np) (he : e.copied = true)
    (ht : step s (.step p e) = .ok t) : t = s.goto p (.list k np) s.t := by
  have hsec := (running_of_step ht).2
  simp only [sectionStep, hpc, if_pos he] at hsec
  exact (Except.ok.inj hsec).symm

theorem notCopied_step {k : Creator} {np : Slot} (hpc : s.pc p = .copy k np)
    (he : e.copied = false) (ht : step s (.step p e) = .ok t) :
    t = s.back p (-1) (s.t.abandon np) := by
  have hsec := (running_of_step ht).2
  simp only [sectionStep, hpc, he, Bool.false_eq_true, if_false] at hsec
  exact (Except.ok.inj hsec).symm

theorem full_step {k : Creator} {np : Slot} {x : Tables} (hpc : s.pc p = .list k np)
    (hx : k.insert s.t p np = .ok (false, x)) (ht : step s (.step p e) = .ok t) :
    t = s.back p (-2) (x.abandon np) := by
  have hsec := (running_of_step ht).2
  simp only [sectionStep, hpc, hx] at hsec
  exact (Except.ok.inj hsec).symm

theorem listed_step {k : Creator} {np : Slot} (hpc : s.pc p = .list k np)
    (hfull : ∀ x, k.insert s.t p np ≠ .ok (false, x)) (ht : step s (.step p e) = .ok t) :
    ∃ x, k.insert s.t p np = .ok (true, x) ∧ t = s.goto p (.fields k np) x := by
  have hsec := (running_of_step ht).2
  simp only [sectionStep, hpc] at hsec
  split at hsec
  · cases hsec
  next x hx => exact absurd hx (hfull x)
  next x hx => exact ⟨x, hx, (Except.ok.inj hsec).symm⟩

theorem reserve_step (hpc : s.pc p = .initContainer) (ht : step s (.step p e) = .ok t) :
    ∃ x, s.t.addContainer e.pages = .ok x ∧ t = s.goto p .createReturn x := by
  have hsec := (running_of_step ht).2
  simp only [sectionStep, hpc] at hsec
  split at hsec
  · cases hsec
  next x hx => exact ⟨x, hx, (Except.ok.inj hsec).symm⟩

theorem exit_step {b : Bool} (hpc : s.pc p = .exiting b) (ht : step s (.step p e) = .ok t) :
    t = (s.back p 0 (s.t.exitLocked p)).offCpu p := by
  have hsec := (running_of_step ht).2
  simp only [sectionStep, hpc] at hsec
  exact (Except.ok.inj hsec).symm

end Known

end Xv6Container.Containers
