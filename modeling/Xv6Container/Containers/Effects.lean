import Xv6Container.Containers.System

/-! What one step of the system can do to the container lists and to the names and
states of the processes. Every step falls into one of eleven effects; the invariants
about the lists are proved from these and never open a section again. -/

namespace Xv6Container.Containers

/-! ### Views of a state -/

/-- The part a process plays in the creation of another one: it holds a slot that is
not yet listed, listed but not yet named, or named but not yet RUNNABLE; `tail` is the
`exit` that ends `joinContainer`. -/
inductive Stage where
  | idle
  | fresh (np : Slot)
  | entered (k : Creator) (np : Slot)
  | named (k : Creator) (np : Slot)
  | tail
  deriving DecidableEq

def Pc.stage : Pc → Stage
  | .kstack _ np | .resetAlloc _ np | .copy _ np | .list _ np => .fresh np
  | .fields k np => .entered k np
  | .publish k np => .named k np
  | .exiting true => .tail
  | _ => .idle

/-- The slot a process is filling. -/
def Stage.held : Stage → Option Slot
  | .fresh np | .entered _ np | .named _ np => some np
  | .idle | .tail => none

def ProcState.live : ProcState → Prop
  | .running | .runnable | .sleeping => True
  | _ => False

namespace Sys

def list (s : Sys) (c : Fin NCONT) (i : Fin PROCESS_COUNT) : Option Slot :=
  (s.t.container c).process i
def state (s : Sys) (p : Slot) : ProcState := (s.t.proc p).state
def pid (s : Sys) (p : Slot) : ℤ := (s.t.proc p).pid
def containerID (s : Sys) (p : Slot) : ℤ := (s.t.proc p).containerID
def stage (s : Sys) (p : Slot) : Stage := (s.pc p).stage

end Sys

/-- A process can be woken and scheduled without acting itself. -/
def Moves (a b : ProcState) : Prop :=
  a = b ∨ (a = .sleeping ∧ (b = .runnable ∨ b = .running)) ∨ (a = .runnable ∧ b = .running)

theorem Moves.refl (a : ProcState) : Moves a a := .inl rfl

theorem Moves.trans {a b c : ProcState} (h : Moves a b) (h' : Moves b c) : Moves a c := by
  rcases h with rfl | ⟨rfl, rfl | rfl⟩ | ⟨rfl, rfl⟩
  · exact h'
  all_goals rcases h' with rfl | ⟨h, _⟩ | ⟨h, rfl⟩ <;> simp_all [Moves]

theorem Moves.live {a b : ProcState} (h : Moves a b) : a.live ↔ b.live := by
  rcases h with rfl | ⟨rfl, rfl | rfl⟩ | ⟨rfl, rfl⟩ <;> simp [ProcState.live]

theorem Moves.eq_of_not_live {a b : ProcState} (h : Moves a b) (ha : ¬ a.live) : b = a := by
  rcases h with rfl | ⟨rfl, -⟩ | ⟨rfl, -⟩
  · rfl
  · exact absurd trivial ha
  · exact absurd trivial ha

theorem Moves.running {b : ProcState} (h : Moves .running b) : b = .running := by
  rcases h with rfl | ⟨h, -⟩ | ⟨h, -⟩
  · rfl
  · cases h
  · cases h

/-- Names and lists that a step leaves alone. -/
structure SameNames (s t : Sys) : Prop where
  list : t.list = s.list
  containerID : t.containerID = s.containerID
  pid : t.pid = s.pid
  nextpid : t.t.nextpid = s.t.nextpid

/-- The effects of a step from `s` to `t`. -/
inductive Effect (s : Sys) (a : Act) (t : Sys) : Prop
  /-- Nothing but wakeups and switches to processes. -/
  | quiet (names : SameNames s t) (stage : t.stage = s.stage)
      (state : ∀ p, Moves (s.state p) (t.state p))
  /-- A running process is preempted or goes to sleep. -/
  | leave (p : Slot) (names : SameNames s t) (stage : t.stage = s.stage)
      (running : s.state p = .running) (left : t.state p = .runnable ∨ t.state p = .sleeping)
      (others : ∀ q, q ≠ p → t.state q = s.state q)
      (act : a = .yield p ∨ (∃ chan, a = .sleep p chan) ∨ s.stage p = .idle)
  | alloc (p np : Slot) (list : t.list = s.list) (containerID : t.containerID = s.containerID)
      (idle : s.stage p = .idle) (running : s.state p = .running)
      (unused : s.state np = .unused)
      (pid : t.pid = Function.update s.pid np s.t.nextpid)
      (nextpid : t.t.nextpid = s.t.nextpid + 1)
      (stage : t.stage = Function.update s.stage p (.fresh np))
      (state : t.state = Function.update s.state np .embryo)
  | release (p np : Slot) (names : SameNames s t) (fresh : s.stage p = .fresh np)
      (stage : t.stage = Function.update s.stage p .idle)
      (state : t.state = Function.update s.state np .unused)
  /-- The child of a process in container 0 is not listed by `fork`. -/
  | enterUnlisted (p np : Slot) (names : SameNames s t) (fresh : s.stage p = .fresh np)
      (target : s.containerID p = 0)
      (stage : t.stage = Function.update s.stage p (.entered .fork np))
      (state : t.state = s.state)
  | enter (p np : Slot) (k : Creator) (c : Fin NCONT) (i : Fin PROCESS_COUNT)
      (containerID : t.containerID = s.containerID) (pid : t.pid = s.pid)
      (nextpid : t.t.nextpid = s.t.nextpid) (fresh : s.stage p = .fresh np)
      (target : k.target s.t p = c.val) (free : s.list c i = none)
      (list : t.list = Function.update s.list c (Function.update (s.list c) i (some np)))
      (stage : t.stage = Function.update s.stage p (.entered k np))
      (state : t.state = s.state)
  | name (p np : Slot) (k : Creator) (list : t.list = s.list) (pid : t.pid = s.pid)
      (nextpid : t.t.nextpid = s.t.nextpid) (entered : s.stage p = .entered k np)
      (containerID : t.containerID = Function.update s.containerID np (k.target s.t p))
      (stage : t.stage = Function.update s.stage p (.named k np))
      (state : t.state = s.state)
  | publish (p np : Slot) (k : Creator) (names : SameNames s t) (named : s.stage p = .named k np)
      (stage : t.stage = Function.update s.stage p .idle)
      (state : t.state = Function.update s.state np .runnable)
  | delist (p : Slot) (pp : ℤ) (containerID : t.containerID = s.containerID)
      (pid : t.pid = s.pid) (nextpid : t.t.nextpid = s.t.nextpid) (pc : s.pc p = .delist pp)
      (running : s.state p = .running)
      (list : ∀ c i, t.list c i = s.list c i ∨
        (t.list c i = none ∧ ∀ q, s.list c i = some q → s.pid q = pp))
      (stage : t.stage = Function.update s.stage p .tail)
      (state : t.state = s.state)
  | exit (p : Slot) (names : SameNames s t) (running : s.state p = .running)
      (exiting : s.stage p = .idle ∨ s.stage p = .tail) (user : t.pc p = .user)
      (stage : t.stage = Function.update s.stage p .idle)
      (zombie : t.state p = .zombie)
      (others : ∀ q, q ≠ p → Moves (s.state q) (t.state q))
  | reap (p q : Slot) (list : t.list = s.list) (containerID : t.containerID = s.containerID)
      (nextpid : t.t.nextpid = s.t.nextpid)
      (act : ∃ e, a = .step p e) (pc : s.pc p = .waiting) (reaped : s.t.waitScan p = .reaped q)
      (zombie : s.state q = .zombie)
      (pid : t.pid = Function.update s.pid q 0)
      (stage : t.stage = s.stage)
      (state : t.state = Function.update s.state q .unused)

/-! ### Tables that differ by wakeups and switches only -/

structure Calm (t t' : Tables) : Prop where
  process : ∀ c, (t'.container c).process = (t.container c).process
  containerID : ∀ p, (t'.proc p).containerID = (t.proc p).containerID
  pid : ∀ p, (t'.proc p).pid = (t.proc p).pid
  nextpid : t'.nextpid = t.nextpid
  state : ∀ p, Moves (t.proc p).state (t'.proc p).state
  allocFor : t'.allocFor = t.allocFor
  containerNum : t'.containerNum = t.containerNum
  used : ∀ c, (t.container c).used ≤ (t'.container c).used

namespace Calm

variable {t t' t'' : Tables}

theorem refl (t : Tables) : Calm t t :=
  ⟨fun _ => rfl, fun _ => rfl, fun _ => rfl, rfl, fun _ => .refl _, rfl, rfl, fun _ => le_rfl⟩

theorem trans (h : Calm t t') (h' : Calm t' t'') : Calm t t'' where
  process c := (h'.process c).trans (h.process c)
  containerID p := (h'.containerID p).trans (h.containerID p)
  pid p := (h'.pid p).trans (h.pid p)
  nextpid := h'.nextpid.trans h.nextpid
  state p := (h.state p).trans (h'.state p)
  allocFor := h'.allocFor.trans h.allocFor
  containerNum := h'.containerNum.trans h.containerNum
  used c := (h.used c).trans (h'.used c)

/-- A change of one slot that keeps its names. -/
theorem setProc (t : Tables) (p : Slot) (f : Proc → Proc)
    (hc : (f (t.proc p)).containerID = (t.proc p).containerID)
    (hp : (f (t.proc p)).pid = (t.proc p).pid)
    (hs : Moves (t.proc p).state (f (t.proc p)).state) : Calm t (t.setProc p f) where
  process _ := rfl
  containerID q := by
    by_cases hq : q = p
    · subst hq; rw [Tables.setProc_self, hc]
    · rw [Tables.setProc_of_ne _ _ _ _ hq]
  pid q := by
    by_cases hq : q = p
    · subst hq; rw [Tables.setProc_self, hp]
    · rw [Tables.setProc_of_ne _ _ _ _ hq]
  nextpid := rfl
  state q := by
    by_cases hq : q = p
    · subst hq; rw [Tables.setProc_self]; exact hs
    · rw [Tables.setProc_of_ne _ _ _ _ hq]; exact .refl _
  allocFor := rfl
  containerNum := rfl
  used _ := le_rfl

/-- A change of one container that keeps its list. -/
theorem setContainer (t : Tables) (c : Fin NCONT) (g : Container → Container)
    (h : (g (t.container c)).process = (t.container c).process)
    (hused : (t.container c).used ≤ (g (t.container c)).used) :
    Calm t (t.setContainer c g) where
  process d := by
    rw [Tables.setContainer_container]
    split_ifs with hd
    · rw [hd, h]
    · rfl
  containerID _ := rfl
  pid _ := rfl
  nextpid := rfl
  state _ := .refl _
  allocFor := rfl
  containerNum := rfl
  used d := by
    rw [Tables.setContainer_container]
    split_ifs with hd
    · rw [hd]; exact hused
    · exact le_rfl

theorem wakeup1 (t : Tables) (chan : Chan) : Calm t (t.wakeup1 chan) where
  process _ := rfl
  containerID p := by simp only [Tables.wakeup1]; split_ifs <;> rfl
  pid p := by simp only [Tables.wakeup1]; split_ifs <;> rfl
  nextpid := rfl
  state p := by
    simp only [Tables.wakeup1]
    split_ifs with h
    · exact .inr (.inl ⟨h.1, .inl rfl⟩)
    · exact .refl _
  allocFor := rfl
  containerNum := rfl
  used _ := le_rfl

theorem wakeupParent (t : Tables) (cur : Slot) : Calm t (t.wakeupParent cur) := by
  unfold Tables.wakeupParent
  split
  · exact refl t
  · exact wakeup1 t _

theorem reparent (t : Tables) (cur : Slot) : Calm t (t.reparent cur) where
  process _ := rfl
  containerID p := by simp only [Tables.reparent]; split_ifs <;> rfl
  pid p := by simp only [Tables.reparent]; split_ifs <;> rfl
  nextpid := rfl
  state p := by simp only [Tables.reparent]; split_ifs <;> exact .refl _
  allocFor := rfl
  containerNum := rfl
  used _ := le_rfl

theorem kill (t : Tables) (pid : ℤ) : Calm t (t.kill pid).2 := by
  unfold Tables.kill
  split
  · exact refl t
  · dsimp only
    apply setProc
    · rfl
    · rfl
    · dsimp only
      split_ifs with h
      · exact .inr (.inl ⟨h, .inl rfl⟩)
      · exact .refl _

/-- `exit` before it turns the caller into a zombie. -/
theorem exitLocked (t : Tables) (cur : Slot) :
    ∃ t₃, Calm t t₃ ∧ t.exitLocked cur = t₃.setProc cur fun q => { q with state := .zombie } := by
  refine ⟨_, ?_, rfl⟩
  have h := (wakeupParent t cur).trans (reparent _ cur)
  split_ifs
  · exact h.trans (wakeup1 _ _)
  · exact h

theorem conalloc {c pid : ℤ} {mem : Option Page} (h : t.conalloc c pid = .ok (mem, t')) :
    Calm t t' := by
  obtain ⟨k, i, -, hi, -, rfl⟩ := Tables.conalloc_ok h
  refine setContainer t k _ rfl ?_
  dsimp only
  omega

theorem pick {u u' : Cpu} (h : Containers.pick t u = .ok (t', u')) : Calm t t' := by
  unfold Containers.pick at h
  split at h
  · split at h
    · cases h
    · split at h
      · cases h; exact refl t
      · simp only [Except.ok.injEq, Prod.mk.injEq] at h
        rw [← h.1]
        split_ifs
        · exact setContainer t _ _ rfl le_rfl
        · exact refl t
  · cases h; exact refl t

theorem scan (t : Tables) (u : Cpu) (next : ℕ) : Calm t (Containers.scan t u next).1 := by
  unfold Containers.scan
  split
  · exact refl t
  next p hp =>
    have hr := (Fin.find?_eq_some_iff.mp hp).1
    simp only [eligible, Bool.and_eq_true, beq_iff_eq] at hr
    dsimp only
    apply setProc
    · rfl
    · rfl
    · exact .inr (.inr ⟨hr.2.2, rfl⟩)

theorem check {u u' : Cpu} (h : Containers.check t u = .ok (t', u')) : Calm t t' := by
  unfold Containers.check at h
  dsimp only at h
  split at h
  · split at h
    · cases h
    · split at h
      · cases h; exact setContainer t _ _ rfl le_rfl
      · cases h; exact refl t
  · cases h; exact refl t

theorem endRound {u u' : Cpu} (h : Containers.endRound t u = .ok (t', u')) : Calm t t' := by
  unfold Containers.endRound at h
  dsimp only at h
  split at h
  · split at h
    · cases h
      refine ⟨fun c => ?_, fun _ => rfl, fun _ => rfl, rfl, fun _ => .refl _, rfl, rfl, fun c => ?_⟩
      · dsimp only
        split_ifs <;> rfl
      · dsimp only
        split_ifs <;> exact le_rfl
    · cases h
  · cases h; exact refl t

/-- The scheduler wakes nobody and renames nobody. -/
theorem schedStep {u u' : Cpu} (h : Containers.schedStep t u = .ok (t', u')) : Calm t t' := by
  unfold Containers.schedStep at h
  split_ifs at h
  split at h
  · exact pick h
  next next _ =>
    have := scan t u next
    rw [Except.ok.inj h] at this
    exact this
  · exact check h
  · exact endRound h

end Calm

/-! ### The effect of a step -/

section Step
variable {s u : Sys} {a : Act} {p np : Slot} {t : Tables} {pc : Pc} {r : ℤ}

theorem stage_goto : (s.goto p pc t).stage = Function.update s.stage p pc.stage := by
  funext q
  simp only [Sys.stage, Sys.goto, Function.update_apply]
  split_ifs <;> rfl

theorem stage_back : (s.back p r t).stage = Function.update s.stage p .idle := by
  funext q
  simp only [Sys.stage, Sys.back, Function.update_apply]
  split_ifs <;> rfl

theorem stage_goto_same (h : pc.stage = s.stage p) : (s.goto p pc t).stage = s.stage := by
  rw [stage_goto, h, Function.update_eq_self]

theorem stage_back_idle (h : s.stage p = .idle) : (s.back p r t).stage = s.stage := by
  rw [stage_back, ← h, Function.update_eq_self]

theorem SameNames.of_calm (h : Calm s.t u.t) : SameNames s u where
  list := by funext c i; exact congrFun (h.process c) i
  containerID := funext h.containerID
  pid := funext h.pid
  nextpid := h.nextpid

/-- A step that keeps the stages and leaves the tables calm. -/
theorem Effect.of_calm (h : Calm s.t u.t) (hs : u.stage = s.stage) : Effect s a u :=
  .quiet (.of_calm h) hs h.state

/-- A step that sets one of the other globals. -/
theorem Effect.of_globals (hproc : u.t.proc = s.t.proc) (hcon : u.t.container = s.t.container)
    (hnext : u.t.nextpid = s.t.nextpid) (hs : u.stage = s.stage) : Effect s a u := by
  refine .quiet ⟨?_, ?_, ?_, hnext⟩ hs fun q => ?_
  · funext c i; simp only [Sys.list, hcon]
  · funext q; simp only [Sys.containerID, hproc]
  · funext q; simp only [Sys.pid, hproc]
  · rw [Sys.state, Sys.state, hproc]
    exact .refl _

/-- A column of the process table after a change of one slot. -/
theorem column_update {β : Type} (φ : Proc → β) {f g : Slot → Proc} {x : Proc} {v : β}
    (h : g = Function.update f p x) (hx : φ x = v) :
    (fun q => φ (g q)) = Function.update (fun q => φ (f q)) p v := by
  funext q
  rw [h, Function.update_apply, Function.update_apply]
  split_ifs
  · exact hx
  · rfl

theorem column_same {β : Type} (φ : Proc → β) {f g : Slot → Proc} {x : Proc}
    (h : g = Function.update f p x) (hx : φ x = φ (f p)) :
    (fun q => φ (g q)) = fun q => φ (f q) := by
  rw [column_update φ h hx]
  exact Function.update_eq_self p fun q => φ (f q)

theorem call_effect {c : Call} (hpc : s.pc p = .user) (h : callStep s p c = .ok u) :
    Effect s a u := by
  have hidle : s.stage p = .idle := by simp only [Sys.stage, hpc, Pc.stage]
  cases c with
  | fork => cases h; exact .of_calm (.refl _) (stage_goto_same hidle.symm)
  | join_container c => cases h; exact .of_calm (.refl _) (stage_goto_same hidle.symm)
  | leave_container => cases h; exact .of_calm (.refl _) (stage_goto_same hidle.symm)
  | create_container =>
    cases h
    exact .of_globals rfl rfl rfl (stage_goto_same hidle.symm)
  | containerProcessNum c =>
    simp only [callStep] at h
    split at h
    · cases h
    · cases h; exact .of_calm (.refl _) (stage_back_idle hidle)
  | exit =>
    simp only [callStep] at h
    split_ifs at h
    cases h
    exact .of_calm (.refl _) (stage_goto_same hidle.symm)
  | wait => cases h; exact .of_calm (.refl _) (stage_goto_same hidle.symm)
  | kill pid => cases h; exact .of_calm (.kill _ _) (stage_back_idle hidle)
  | scheduler_log_on =>
    cases h
    exact .of_globals rfl rfl rfl (stage_back_idle hidle)

/-- A new process gives its slot back; the reserve it took from may have changed. -/
theorem release_effect (hfresh : s.stage p = .fresh np) (hproc : t.proc = s.t.proc)
    (hlist : ∀ c, (t.container c).process = (s.t.container c).process)
    (hnext : t.nextpid = s.t.nextpid) : Effect s a (s.back p r (t.abandon np)) := by
  have hset : (t.abandon np).proc =
      Function.update s.t.proc np { s.t.proc np with kstack := none, state := .unused } := by
    rw [← hproc]; rfl
  refine .release p np ⟨?_, ?_, ?_, hnext⟩ hfresh stage_back ?_
  · funext c i; exact congrFun (hlist c) i
  · exact column_same Proc.containerID hset rfl
  · exact column_same Proc.pid hset rfl
  · exact column_update Proc.state hset rfl

theorem alloc_effect {k : Creator} (hpc : s.pc p = .alloc k) (hrun : s.state p = .running)
    (h : s.t.allocproc = .ok (some (np, t))) : Effect s a (s.goto p (.kstack k np) t) := by
  have hidle : s.stage p = .idle := by simp only [Sys.stage, hpc, Pc.stage]
  obtain ⟨hunused, -, rfl⟩ := Tables.allocproc_some h
  refine .alloc p np rfl ?_ hidle hrun hunused ?_ rfl stage_goto ?_
  · exact column_same Proc.containerID (p := np) rfl rfl
  · exact column_update Proc.pid rfl rfl
  · exact column_update Proc.state rfl rfl

/-- A kernel stack is found, or the slot is given back. -/
theorem kstack_effect {k : Creator} {page : Option Page} {b : Bool} (hpc : s.pc p = .kstack k np)
    (h : s.t.allocKstack np page = .ok (b, t)) :
    (b = false ∧ Effect s a (s.back p r t)) ∨ (b = true ∧ Calm s.t t) := by
  have hfresh : s.stage p = .fresh np := by simp only [Sys.stage, hpc, Pc.stage]
  -- the tables before the stack is stored differ from `s.t` in one reserve at most
  obtain ⟨t', mem, hset, hproc, hcalm⟩ : ∃ (t' : Tables) (mem : Option Page),
      t'.setKstack np mem = (b, t) ∧ t'.proc = s.t.proc ∧ Calm s.t t' := by
    unfold Tables.allocKstack at h
    split_ifs at h
    · exact ⟨s.t, page, Except.ok.inj h, rfl, .refl _⟩
    · split at h
      · cases h
      next mem t' hc =>
        obtain ⟨c, i, -, -, -, ht'⟩ := Tables.conalloc_ok hc
        exact ⟨t', mem, Except.ok.inj h, by rw [ht']; rfl, .conalloc hc⟩
  cases mem with
  | none =>
    simp only [Tables.setKstack, Prod.mk.injEq] at hset
    obtain ⟨rfl, rfl⟩ := hset
    exact .inl ⟨rfl, release_effect hfresh hproc hcalm.process hcalm.nextpid⟩
  | some m =>
    simp only [Tables.setKstack, Prod.mk.injEq] at hset
    obtain ⟨rfl, rfl⟩ := hset
    refine .inr ⟨rfl, hcalm.trans ?_⟩
    apply Calm.setProc
    · rfl
    · rfl
    · exact .refl _

theorem enter_effect {k : Creator} {b : Bool} (hpc : s.pc p = .list k np)
    (h : k.insert s.t p np = .ok (b, t)) :
    (b = false ∧ Effect s a (s.back p r (t.abandon np))) ∨
      (b = true ∧ Effect s a (s.goto p (.fields k np) t)) := by
  have hfresh : s.stage p = .fresh np := by simp only [Sys.stage, hpc, Pc.stage]
  have hinsert : ∀ c, k.target s.t p = c → s.t.insertProcess c np = .ok (b, t) →
      (b = false ∧ Effect s a (s.back p r (t.abandon np))) ∨
        (b = true ∧ Effect s a (s.goto p (.fields k np) t)) := by
    intro c hc hi
    obtain ⟨rfl, rfl⟩ | ⟨d, i, rfl, rfl, hfree, rfl⟩ := Tables.insertProcess_ok hi
    · exact .inl ⟨rfl, release_effect hfresh rfl (fun _ => rfl) rfl⟩
    · refine .inr ⟨rfl, .enter p np k d i rfl rfl rfl hfresh hc hfree ?_ stage_goto rfl⟩
      funext e
      by_cases he : e = d
      · subst he
        simp only [Function.update_self]
        funext j
        simp only [Sys.list, Sys.goto, Tables.setContainer_self]
        rfl
      · funext j
        simp only [Function.update_of_ne he, Sys.list, Sys.goto, Tables.setContainer_container,
          if_neg he]
  cases k with
  | join c pp => exact hinsert c rfl h
  | fork =>
    simp only [Creator.insert, Tables.forkInsert] at h
    split_ifs at h with hc
    · exact hinsert _ rfl h
    · obtain ⟨rfl, rfl⟩ := Prod.mk.inj (Except.ok.inj h)
      exact .inr ⟨rfl, .enterUnlisted p np ⟨rfl, rfl, rfl, rfl⟩ hfresh (not_not.mp hc) stage_goto
        rfl⟩

theorem delist_effect {pp n : ℤ} (hpc : s.pc p = .delist pp) (hrun : s.state p = .running)
    (h : s.t.removeProcess p pp n = .ok t) : Effect s a (s.goto p (.exiting true) t) := by
  obtain rfl | ⟨c, i, -, hpid, rfl⟩ := Tables.removeProcess_ok h
  · exact .delist p pp rfl rfl rfl hpc hrun (fun _ _ => .inl rfl) stage_goto rfl
  · refine .delist p pp rfl rfl rfl hpc hrun (fun d j => ?_) stage_goto rfl
    by_cases hd : d = c ∧ j = i
    · obtain ⟨rfl, rfl⟩ := hd
      right
      refine ⟨by simp [Sys.list, Sys.goto], fun q hq => ?_⟩
      simp only [Sys.list] at hq
      rw [hq] at hpid
      exact hpid
    · left
      simp only [Sys.list, Sys.goto, Tables.setContainer_container]
      split_ifs with he
      · subst he
        have hj : j ≠ i := fun hj => hd ⟨rfl, hj⟩
        simp [hj]
      · rfl

theorem exit_effect {b : Bool} (hpc : s.pc p = .exiting b) (hrun : s.state p = .running) :
    Effect s a ((s.back p 0 (s.t.exitLocked p)).offCpu p) := by
  obtain ⟨t₃, hcalm, hexit⟩ := Calm.exitLocked s.t p
  have hzombie : ∀ q, ((s.t.exitLocked p).proc q) =
      if q = p then { t₃.proc p with state := .zombie } else t₃.proc q := by
    intro q
    rw [hexit, Tables.setProc_proc]
  refine .exit p ⟨?_, ?_, ?_, ?_⟩ hrun ?_ (Function.update_self p _ _)
    (stage_back (t := s.t.exitLocked p) (r := 0)) ?_ ?_
  · funext c i
    simp only [Sys.list, Sys.offCpu, Sys.back, hexit, Tables.setProc_container, hcalm.process]
  · funext q
    have := hcalm.containerID q
    simp only [Sys.containerID, Sys.offCpu, Sys.back, hzombie]
    split_ifs with hq
    · subst hq; exact this
    · exact this
  · funext q
    have := hcalm.pid q
    simp only [Sys.pid, Sys.offCpu, Sys.back, hzombie]
    split_ifs with hq
    · subst hq; exact this
    · exact this
  · simp only [Sys.offCpu, Sys.back, hexit, Tables.setProc_nextpid, hcalm.nextpid]
  · cases b <;> simp [Sys.stage, hpc, Pc.stage]
  · simp only [Sys.state, Sys.offCpu, Sys.back, hzombie, if_true]
  · intro q hq
    simp only [Sys.state, Sys.offCpu, Sys.back, hzombie, if_neg hq]
    exact hcalm.state q

theorem reap_effect {q : Slot} {e : Env} (hpc : s.pc p = .waiting)
    (h : s.t.waitScan p = .reaped q) : Effect s (.step p e) (s.back p r (s.t.reap q)) := by
  have hidle : s.stage p = .idle := by simp only [Sys.stage, hpc, Pc.stage]
  refine .reap p q rfl ?_ rfl ⟨e, rfl⟩ hpc h (Tables.waitScan_reaped h).2 ?_
    (stage_back_idle hidle) ?_
  · exact column_same Proc.containerID (p := q) rfl rfl
  · exact column_update Proc.pid rfl rfl
  · exact column_update Proc.state rfl rfl

/-- A running process leaves its CPU. -/
theorem leave_effect {x : Proc} (hrun : s.state p = .running)
    (hproc : u.t.proc = Function.update s.t.proc p x) (hcon : u.t.container = s.t.container)
    (hnext : u.t.nextpid = s.t.nextpid) (hid : x.containerID = s.containerID p)
    (hpid : x.pid = s.pid p) (hleft : x.state = .runnable ∨ x.state = .sleeping)
    (hstage : u.stage = s.stage)
    (hact : a = .yield p ∨ (∃ chan, a = .sleep p chan) ∨ s.stage p = .idle) :
    Effect s a u := by
  have hstate : u.state = Function.update s.state p x.state := column_update Proc.state hproc rfl
  refine .leave p ⟨?_, ?_, ?_, hnext⟩ hstage hrun ?_ (fun q hq => ?_) hact
  · funext c i; simp only [Sys.list, hcon]
  · exact column_same Proc.containerID hproc hid
  · exact column_same Proc.pid hproc hpid
  · rw [hstate, Function.update_self]; exact hleft
  · rw [hstate, Function.update_of_ne hq]

theorem section_effect {e : Env} (hrun : s.state p = .running)
    (h : sectionStep s p e = .ok u) : Effect s (.step p e) u := by
  unfold sectionStep at h
  split at h
  next => cases h
  next c pp hpc =>
    cases h
    refine .of_globals rfl rfl rfl (stage_goto_same ?_)
    simp only [Sys.stage, hpc, Pc.stage]
  next k hpc =>
    split at h
    next => cases h
    next =>
      cases h
      exact .of_calm (.refl _) (stage_back_idle (by simp only [Sys.stage, hpc, Pc.stage]))
    next np t ha => cases h; exact alloc_effect hpc hrun ha
  next k np hpc =>
    split at h
    next => cases h
    next t ha =>
      cases h
      obtain ⟨-, he⟩ | ⟨hb, -⟩ := kstack_effect (a := .step p e) (r := -1) hpc ha
      · exact he
      · cases hb
    next t ha =>
      obtain ⟨hb, -⟩ | ⟨-, hc⟩ := kstack_effect (a := .step p e) (r := -1) hpc ha
      · cases hb
      · split at h <;> cases h <;>
          exact .of_calm hc (stage_goto_same (by simp only [Sys.stage, hpc, Pc.stage]))
  next k np hpc =>
    cases h
    refine .of_globals rfl rfl rfl (stage_goto_same ?_)
    simp only [Sys.stage, hpc, Pc.stage]
  next k np hpc =>
    split at h
    · cases h
      exact .of_calm (.refl _) (stage_goto_same (by simp only [Sys.stage, hpc, Pc.stage]))
    · cases h
      exact release_effect (by simp only [Sys.stage, hpc, Pc.stage]) rfl (fun _ => rfl) rfl
  next k np hpc =>
    split at h
    next => cases h
    next t hi =>
      cases h
      obtain ⟨-, he⟩ | ⟨hb, -⟩ := enter_effect (a := .step p e) (r := -2) hpc hi
      · exact he
      · cases hb
    next t hi =>
      cases h
      obtain ⟨hb, -⟩ | ⟨-, he⟩ := enter_effect (a := .step p e) (r := -2) hpc hi
      · cases hb
      · exact he
  next k np hpc =>
    cases h
    refine .name p np k rfl ?_ rfl (by simp only [Sys.stage, hpc, Pc.stage]) ?_ stage_goto ?_
    · exact column_same Proc.pid (p := np) rfl rfl
    · exact column_update Proc.containerID rfl rfl
    · exact column_same Proc.state (p := np) rfl rfl
  next k np hpc =>
    have hstage : s.stage p = .named k np := by simp only [Sys.stage, hpc, Pc.stage]
    have hid := column_same Proc.containerID (p := np) (g := (s.t.setRunnable np).proc) rfl rfl
    have hpid := column_same Proc.pid (p := np) (g := (s.t.setRunnable np).proc) rfl rfl
    split at h
    · cases h
      exact .publish p np .fork ⟨rfl, hid, hpid, rfl⟩ hstage stage_back
        (column_update Proc.state rfl rfl)
    · cases h
      exact .publish p np _ ⟨rfl, hid, hpid, rfl⟩ hstage stage_goto
        (column_update Proc.state rfl rfl)
  next pp hpc =>
    split at h
    next => cases h
    next t hr =>
      split_ifs at h
      cases h
      exact delist_effect hpc hrun hr
  next b hpc => cases h; exact exit_effect hpc hrun
  next hpc =>
    split at h
    next c hw => cases h; exact reap_effect hpc hw
    next =>
      cases h
      exact .of_calm (.refl _) (stage_back_idle (by simp only [Sys.stage, hpc, Pc.stage]))
    next =>
      cases h
      have hidle : s.stage p = .idle := by simp only [Sys.stage, hpc, Pc.stage]
      exact leave_effect hrun rfl rfl rfl rfl rfl (.inr rfl)
        (stage_goto_same (t := s.t.sleepOn p (.proc p)) hidle.symm) (.inr (.inr hidle))
  next hpc =>
    split at h
    next => cases h
    next t ha =>
      cases h
      obtain ⟨c, -, rfl⟩ := Tables.addContainer_ok ha
      have hcalm := Calm.setContainer s.t c
        (fun x => { x with generatedProcess := 0, startAddr := e.pages }) rfl le_rfl
      exact .of_calm hcalm (stage_goto_same (by simp only [Sys.stage, hpc, Pc.stage]))
  next hpc =>
    cases h
    exact .of_calm (.refl _) (stage_back_idle (by simp only [Sys.stage, hpc, Pc.stage]))

/-- Every step has one of the effects. -/
theorem step_effect (h : step s a = .ok u) : Effect s a u := by
  cases a with
  | call p c =>
    simp only [step] at h
    split_ifs at h with hp
    exact call_effect hp.2 h
  | step p e =>
    simp only [step] at h
    split_ifs at h with hp
    exact section_effect hp h
  | yield p =>
    simp only [step] at h
    split_ifs at h with hp
    cases h
    exact leave_effect hp rfl rfl rfl rfl rfl (.inl rfl) rfl (.inl rfl)
  | sleep p chan =>
    simp only [step] at h
    split_ifs at h with hp
    cases h
    exact leave_effect hp.1 rfl rfl rfl rfl rfl (.inr rfl) rfl (.inr (.inl ⟨chan, rfl⟩))
  | wakeup chan =>
    cases h
    exact .of_calm (.wakeup1 _ _) rfl
  | sched n =>
    simp only [step] at h
    split at h
    next => cases h
    next t v hs => cases h; exact .of_calm (.schedStep hs) rfl

end Step

end Xv6Container.Containers
