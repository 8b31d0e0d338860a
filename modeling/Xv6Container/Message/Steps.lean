import Xv6Container.Message.System

/-! What one step of the message system can do. `StateMove` lists the ways in which the
state of a slot changes, with who wakes a sleeping process; `PcMove` lists how the acting
process moves through its call, with what it does to pids, queues and `request[]` on the
way. Every invariant of the system is proved from these two lists. -/

namespace Xv6Container.Message

variable {s t : Sys} {a : Act}

/-! ### Wakeups -/

/-- The action wakes `r`, if it is asleep: `kill`, the two wakeups of `exit`, the wakeup of
`sending`, or one elsewhere in the kernel. -/
def wakes (s : Sys) (a : Act) (r : Slot) : Prop :=
  match a with
  | .call _ (.kill pid) => s.t.pidToProcid pid = some r
  | .step p _ =>
    match s.pc p with
    | .exiting => (∃ q, (s.t.proc p).parent = some q ∧ s.chan r = some (.proc q)) ∨
      (s.t.wakeupParent p).hasZombieChild p = true ∧ s.chan r = some (.proc s.t.initproc)
    | .sendWake i => s.chan r = some (.proc i)
    | _ => False
  | .wakeup addr => s.chan r = some (.other addr)
  | _ => False

/-- The slot a process inside `fork` is filling. -/
def Pc.holds : Pc → Option Slot
  | .forkStack np | .forkCopy np | .forkFields np | .forkPublish np => some np
  | _ => none

/-- The process has called `sleep` in `recv` and has not looked at its queue again. -/
def Pc.again : Pc → Bool
  | .recvAgain _ => true
  | _ => false

/-- How the state of slot `q` changes in a step. -/
inductive StateMove (s : Sys) (a : Act) (t : Sys) (q : Slot) : Prop
  | same (eq : t.state q = s.state q)
  | woken (old : s.state q = .sleeping) (new : t.state q = .runnable) (source : wakes s a q)
  | chosen (old : s.state q = .runnable) (new : t.state q = .running)
  | left (old : s.state q = .running) (new : t.state q ≠ .unused ∧ t.state q ≠ .embryo)
      (asleep : t.state q = .sleeping → (t.pc q).again = false ∨ ∃ i, s.pc q = .recvSleep i)
  | allocated (old : s.state q = .unused) (new : t.state q = .embryo)
      (pid : t.pid q = s.t.nextpid)
  | released (p : Slot) (held : (s.pc p).holds = some q) (pc : t.pc p = .user)
      (new : t.state q = .unused ∨ t.state q = .runnable)
  | reaped (old : s.state q = .zombie) (new : t.state q = .unused)

/-! ### Sections on the process table -/

section Sections
variable {x y : Table} {p q np : Slot} {st : ProcState} {chan : Chan}

/-- Pids stay as they are. -/
structure SamePids (x y : Table) : Prop where
  pid : ∀ p, (y.proc p).pid = (x.proc p).pid
  nextpid : y.nextpid = x.nextpid

theorem SamePids.refl (x : Table) : SamePids x x := ⟨fun _ => rfl, rfl⟩

theorem SamePids.trans {z : Table} (h : SamePids x y) (h' : SamePids y z) : SamePids x z :=
  ⟨fun p => (h'.pid p).trans (h.pid p), h'.nextpid.trans h.nextpid⟩

theorem SamePids.setProc (x : Table) (p : Slot) (f : Proc → Proc)
    (h : (f (x.proc p)).pid = (x.proc p).pid) : SamePids x (x.setProc p f) := by
  refine ⟨fun q => ?_, rfl⟩
  simp only [Table.setProc, Function.update_apply]
  split_ifs with hq
  · rw [hq, h]
  · rfl

theorem SamePids.setState (x : Table) (p : Slot) (st : ProcState) : SamePids x (x.setState p st) :=
  .setProc x p _ rfl

theorem SamePids.setParent (x : Table) (p parent : Slot) : SamePids x (x.setParent p parent) :=
  .setProc x p _ rfl

theorem SamePids.sleepOn (x : Table) (p : Slot) (chan : Chan) : SamePids x (x.sleepOn p chan) :=
  .setProc x p _ rfl

theorem SamePids.wakeup1 (x : Table) (chan : Chan) : SamePids x (x.wakeup1 chan) := by
  refine ⟨fun q => ?_, rfl⟩
  simp only [Table.wakeup1]
  split_ifs <;> rfl

theorem SamePids.exitLocked (x : Table) (p : Slot) : SamePids x (x.exitLocked p) := by
  have hparent : SamePids x (x.wakeupParent p) := by
    unfold Table.wakeupParent
    split
    · exact .refl x
    · exact .wakeup1 x _
  have hreparent : SamePids (x.wakeupParent p) ((x.wakeupParent p).reparent p) := by
    refine ⟨fun q => ?_, rfl⟩
    simp only [Table.reparent]
    split_ifs <;> rfl
  unfold Table.exitLocked
  refine SamePids.trans ?_ (.setProc _ p _ rfl)
  split_ifs
  · exact (hparent.trans hreparent).trans (.wakeup1 _ _)
  · exact hparent.trans hreparent

theorem SamePids.kill (x : Table) (pid : ℤ) : SamePids x (x.kill pid).2 := by
  unfold Table.kill
  split
  · exact .refl x
  · dsimp only
    exact .setProc x _ _ rfl

theorem Table.setProc_state (f : Proc → Proc) :
    ((x.setProc p f).proc q).state = if q = p then (f (x.proc p)).state else (x.proc q).state := by
  simp only [Table.setProc, Function.update_apply]
  split_ifs <;> rfl

/-- A slot is asleep at a channel that is woken, or it keeps its state. -/
theorem Table.wakeup1_state (x : Table) (chan : Chan) (q : Slot) :
    ((x.wakeup1 chan).proc q).state = (x.proc q).state ∨
      (x.proc q).state = .sleeping ∧ ((x.wakeup1 chan).proc q).state = .runnable ∧
        (x.proc q).chan = some chan := by
  simp only [Table.wakeup1]
  split_ifs with h
  · exact .inr ⟨h.1, rfl, h.2⟩
  · exact .inl rfl

theorem Table.wakeup1_chan (x : Table) (chan : Chan) (q : Slot) :
    ((x.wakeup1 chan).proc q).chan = (x.proc q).chan := by
  simp only [Table.wakeup1]
  split_ifs <;> rfl

/-- `exit` wakes at the parent's slot and at the first process's slot only. -/
theorem Table.exitLocked_state (x : Table) (p q : Slot) (hq : q ≠ p) :
    ((x.exitLocked p).proc q).state = (x.proc q).state ∨
      (x.proc q).state = .sleeping ∧ ((x.exitLocked p).proc q).state = .runnable ∧
        ((∃ r, (x.proc p).parent = some r ∧ (x.proc q).chan = some (.proc r)) ∨
          (x.wakeupParent p).hasZombieChild p = true ∧
            (x.proc q).chan = some (.proc x.initproc)) := by
  have hparent : (((x.wakeupParent p).proc q).state = (x.proc q).state ∨
      (x.proc q).state = .sleeping ∧ ((x.wakeupParent p).proc q).state = .runnable ∧
        ∃ r, (x.proc p).parent = some r ∧ (x.proc q).chan = some (.proc r)) ∧
      ((x.wakeupParent p).proc q).chan = (x.proc q).chan := by
    unfold Table.wakeupParent
    split
    · exact ⟨.inl rfl, rfl⟩
    next r hr =>
      refine ⟨?_, x.wakeup1_chan _ q⟩
      rcases x.wakeup1_state (.proc r) q with h | ⟨h1, h2, h3⟩
      · exact .inl h
      · exact .inr ⟨h1, h2, r, hr, h3⟩
  have hre : ((((x.wakeupParent p).reparent p).proc q).state = ((x.wakeupParent p).proc q).state) ∧
      (((x.wakeupParent p).reparent p).proc q).chan = ((x.wakeupParent p).proc q).chan := by
    simp only [Table.reparent]
    split_ifs <;> exact ⟨rfl, rfl⟩
  have hlast : ((x.exitLocked p).proc q).state =
      ((if (x.wakeupParent p).hasZombieChild p then
        ((x.wakeupParent p).reparent p).wakeup1 (.proc x.initproc)
        else (x.wakeupParent p).reparent p).proc q).state := by
    simp only [Table.exitLocked, Table.setState, Table.setProc_state, if_neg hq]
  rw [hlast]
  split_ifs with hz
  · rcases ((x.wakeupParent p).reparent p).wakeup1_state (.proc x.initproc) q with h | ⟨h1, h2, h3⟩
    · rw [h, hre.1]
      rcases hparent.1 with h' | ⟨h1', h2', h3'⟩
      · exact .inl h'
      · exact .inr ⟨h1', h2', .inl h3'⟩
    · rw [hre.1] at h1
      rw [hre.2, hparent.2] at h3
      rcases hparent.1 with h' | ⟨h1', h2', -⟩
      · exact .inr ⟨h'.symm.trans h1, h2, .inr ⟨hz, h3⟩⟩
      · rw [h2'] at h1
        cases h1
  · rw [hre.1]
    rcases hparent.1 with h' | ⟨h1', h2', h3'⟩
    · exact .inl h'
    · exact .inr ⟨h1', h2', .inl h3'⟩

theorem Table.exitLocked_self (x : Table) (p : Slot) : ((x.exitLocked p).proc p).state = .zombie := by
  simp [Table.exitLocked, Table.setState, Table.setProc_state]

theorem Table.kill_state (x : Table) (pid : ℤ) (q : Slot) :
    ((x.kill pid).2.proc q).state = (x.proc q).state ∨
      (x.proc q).state = .sleeping ∧ ((x.kill pid).2.proc q).state = .runnable ∧
        x.pidToProcid pid = some q := by
  unfold Table.kill
  split
  · exact .inl rfl
  next r hr =>
    simp only [Table.setProc_state]
    split_ifs with hq hs
    · subst hq
      exact .inr ⟨hs, rfl, hr⟩
    · exact .inl (by rw [hq])
    · exact .inl rfl

theorem Table.allocproc_some (h : x.allocproc = .ok (some (np, y))) :
    (x.proc np).state = .unused ∧
      y = { x.setProc np (fun q => { q with state := .embryo, pid := x.nextpid }) with
        nextpid := x.nextpid + 1 } := by
  unfold Table.allocproc at h
  split at h
  · cases h
  next p hp =>
    split_ifs at h
    simp only [Except.ok.injEq, Option.some.injEq, Prod.mk.injEq] at h
    obtain ⟨rfl, rfl⟩ := h
    have := (Fin.find?_eq_some_iff.mp hp).1
    exact ⟨by simpa using this, rfl⟩

theorem Table.waitScan_reaped (h : x.waitScan p = .reaped q) : (x.proc q).state = .zombie := by
  unfold Table.waitScan at h
  split at h
  next r hr =>
    cases h
    have := (Fin.find?_eq_some_iff.mp hr).1
    rw [Bool.and_eq_true] at this
    simpa using this.2
  · split_ifs at h

theorem Table.pidToProcid_some {pid : ℤ} (h : x.pidToProcid pid = some q) :
    (x.proc q).pid = pid := by
  have := (Fin.find?_eq_some_iff.mp h).1
  simpa using this

end Sections

/-! ### States -/

section States
variable {p q : Slot}

/-- One slot gets a new state. -/
theorem StateMove.of_setProc (p : Slot) (f : Proc → Proc) (ht : t.t = s.t.setProc p f)
    (h : q = p → StateMove s a t q) : StateMove s a t q := by
  by_cases hq : q = p
  · exact h hq
  · refine .same ?_
    simp only [Sys.state, ht, Table.setProc_state, if_neg hq]

theorem call_state {c : Call} (h : callStep s p c = .ok t) (q : Slot) :
    StateMove s (.call p c) t q := by
  cases c with
  | fork | wait | send | recv => cases h; exact .same rfl
  | exit =>
    simp only [callStep] at h
    split_ifs at h
    cases h
    exact .same rfl
  | kill pid =>
    cases h
    rcases s.t.kill_state pid q with h | ⟨h1, h2, h3⟩
    · exact .same h
    · exact .woken h1 h2 h3

theorem dequeue_table {u : Sys} {i : Slot} (h : s.dequeue p i = some u) : u.t = s.t := by
  unfold Sys.dequeue at h
  split at h <;> cases h
  rfl

theorem section_state {e : Env} (hrun : s.state p = .running) (h : sectionStep s p e = .ok t)
    (q : Slot) : StateMove s (.step p e) t q := by
  unfold sectionStep at h
  split at h
  next => cases h
  next hpc =>
    split at h
    next => cases h
    next => cases h; exact .same rfl
    next np x hx =>
      cases h
      obtain ⟨hunused, rfl⟩ := Table.allocproc_some hx
      by_cases hq : q = np
      · subst hq
        refine .allocated hunused ?_ ?_
        · simp [Sys.state, Sys.goto, Sys.withTable, Table.setProc_state]
        · simp [Sys.pid, Sys.goto, Sys.withTable, Table.setProc]
      · refine .same ?_
        simp [Sys.state, Sys.goto, Sys.withTable, Table.setProc_state, hq]
  next np hpc =>
    split_ifs at h <;> cases h
    · exact .same rfl
    · refine .of_setProc np (fun r => { r with state := .unused }) rfl fun hq => ?_
      exact .released p (by rw [hpc, hq]; rfl) (by simp [Sys.back])
        (.inl (by simp [Sys.state, Sys.back, Sys.withTable, Table.setState, Table.setProc_state, hq]))
  next np hpc =>
    split_ifs at h <;> cases h
    · exact .same rfl
    · refine .of_setProc np (fun r => { r with state := .unused }) rfl fun hq => ?_
      exact .released p (by rw [hpc, hq]; rfl) (by simp [Sys.back])
        (.inl (by simp [Sys.state, Sys.back, Sys.withTable, Table.setState, Table.setProc_state, hq]))
  next np hpc =>
    cases h
    refine .of_setProc np (fun r => { r with parent := some p }) rfl fun hq => .same ?_
    simp [Sys.state, Sys.goto, Sys.withTable, Table.setParent, Table.setProc_state, hq]
  next np hpc =>
    cases h
    refine .of_setProc np (fun r => { r with state := .runnable }) rfl fun hq => ?_
    exact .released p (by rw [hpc, hq]; rfl) (by simp [Sys.back])
      (.inr (by simp [Sys.state, Sys.back, Sys.withTable, Table.setState, Table.setProc_state, hq]))
  next hpc =>
    cases h
    by_cases hq : q = p
    · subst hq
      have hz : (s.t.exitLocked q |>.proc q).state = .zombie := Table.exitLocked_self s.t q
      refine .left hrun ?_ fun hs => .inl (by simp [Sys.offCpu, Sys.back, Pc.again])
      simp only [Sys.state, Sys.offCpu, Sys.back, Sys.withTable, hz]
      exact ⟨nofun, nofun⟩
    · rcases s.t.exitLocked_state p q hq with h | ⟨h1, h2, h3⟩
      · exact .same h
      · refine .woken h1 h2 ?_
        simp only [wakes, hpc]
        exact h3
  next hpc =>
    split at h
    next c hc =>
      cases h
      refine .of_setProc c (fun r => { r with pid := 0, parent := none, killed := false, state := .unused })
        rfl fun hq => .reaped ?_ ?_
      · rw [hq]
        exact Table.waitScan_reaped hc
      · simp [Sys.state, Sys.back, Sys.withTable, Table.reap, Table.setProc_state, hq]
    next => cases h; exact .same rfl
    next =>
      cases h
      refine .of_setProc p (fun r => { r with chan := some (.proc p), state := .sleeping }) rfl fun hq => ?_
      subst hq
      refine .left hrun ?_ fun _ => .inl (by simp [Sys.offCpu, Sys.goto, Pc.again])
      simp [Sys.state, Sys.offCpu, Sys.goto, Sys.withTable, Table.sleepOn, Table.setProc_state]
  next => split at h <;> cases h <;> exact .same rfl
  next =>
    split_ifs at h
    cases h
    exact .same rfl
  next => split_ifs at h <;> cases h <;> exact .same rfl
  next => cases h; exact .same rfl
  next i hpc =>
    cases h
    rcases s.t.wakeup1_state (.proc i) q with h | ⟨h1, h2, h3⟩
    · exact .same h
    · refine .woken h1 h2 ?_
      simp only [wakes, hpc]
      exact h3
  next => split at h <;> cases h <;> exact .same rfl
  next =>
    split at h
    next => cases h; exact .same rfl
    next u hu =>
      cases h
      refine .same ?_
      simp only [Sys.state, Sys.back, dequeue_table hu]
  next => cases h; exact .same rfl
  next i hpc =>
    cases h
    refine .of_setProc p (fun r => { r with chan := some (.proc i), state := .sleeping }) rfl fun hq => ?_
    subst hq
    refine .left hrun ?_ fun _ => .inr ⟨i, hpc⟩
    simp [Sys.state, Sys.offCpu, Sys.goto, Sys.withTable, Table.sleepOn, Table.setProc_state]
  next =>
    split at h
    next => cases h; exact .same rfl
    next u hu =>
      cases h
      refine .same ?_
      simp only [Sys.state, Sys.back, dequeue_table hu]

theorem step_state (h : step s a = .ok t) (q : Slot) : StateMove s a t q := by
  cases a with
  | call p c =>
    simp only [step] at h
    split_ifs at h
    exact call_state h q
  | step p e =>
    simp only [step] at h
    split_ifs at h with hrun
    exact section_state hrun h q
  | yield p =>
    simp only [step] at h
    split_ifs at h with hrun
    cases h
    refine .of_setProc p (fun r => { r with state := .runnable }) rfl fun hq => ?_
    subst hq
    have hnew : (s.t.setState q .runnable |>.proc q).state = .runnable := by
      simp [Table.setState, Table.setProc_state]
    refine .left hrun ?_ fun hs => absurd (hnew.symm.trans hs) nofun
    simp [Sys.state, Sys.offCpu, Sys.withTable, hnew]
  | sleep p addr =>
    simp only [step] at h
    split_ifs at h with hrun
    cases h
    refine .of_setProc p (fun r => { r with chan := some (.other addr), state := .sleeping }) rfl
      fun hq => ?_
    subst hq
    refine .left hrun.1 ?_ fun _ => .inl ?_
    · simp [Sys.state, Sys.offCpu, Sys.withTable, Table.sleepOn, Table.setProc_state]
    · change (s.pc q).again = false
      cases hpc : s.pc q with
      | recvAgain i => rw [hpc] at hrun; cases hrun.2
      | _ => rfl
  | wakeup addr =>
    cases h
    rcases s.t.wakeup1_state (.other addr) q with h | ⟨h1, h2, h3⟩
    · exact .same h
    · exact .woken h1 h2 h3
  | sched n =>
    simp only [step] at h
    split at h
    next => cases h
    next x u hsched =>
      cases h
      unfold schedStep at hsched
      split_ifs at hsched
      split at hsched
      next => cases hsched; exact .same rfl
      next p hp =>
        cases hsched
        have hr := (Fin.find?_eq_some_iff.mp hp).1
        simp only [Bool.and_eq_true, beq_iff_eq] at hr
        refine .of_setProc p (fun r => { r with state := .running }) rfl fun hq => ?_
        subst hq
        refine .chosen hr.2 ?_
        simp [Sys.state, Table.setState, Table.setProc_state]

end States

/-! ### Moves through a call -/

/-- The process has queued a message for the slot and has not returned from `sending`. -/
def Pc.inFlight : Pc → Option Slot
  | .sendTest i | .sendClear i | .sendWake i => some i
  | _ => none

/-- The slot whose queue a process inside `recv` reads. -/
def Pc.reads : Pc → Option Slot
  | .recvDequeue i | .recvRequest i | .recvSleep i | .recvAgain i => some i
  | _ => none

/-- Queues, their memory and the record of deliveries stay as they are. -/
structure SameMsgs (s t : Sys) : Prop where
  mem : t.mem = s.mem
  queue : t.queue = s.queue
  sentTo : t.sentTo = s.sentTo
  delivered : t.delivered = s.delivered

/-- How the acting process moves through its call, and what it does on the way. -/
inductive PcMove (s : Sys) (a : Act) (t : Sys) : Prop
  | stay (pc : t.pc = s.pc) (msgs : SameMsgs s t) (pids : SamePids s.t t.t)
      (request : t.request = s.request)
  /-- Outside the sections of `sending` and `recv` that follow the lookup. -/
  | plain (p : Slot) (pc : Pc) (running : s.state p = .running)
      (eq : t.pc = Function.update s.pc p pc) (msgs : SameMsgs s t) (pids : SamePids s.t t.t)
      (request : t.request = s.request) (old : (s.pc p).inFlight = none ∧ (s.pc p).reads = none)
      (new : pc.inFlight = none ∧ pc.reads = none)
      (holds : pc.holds = none ∨ pc.holds = (s.pc p).holds)
  | alloc (p np : Slot) (running : s.state p = .running) (old : s.pc p = .forkAlloc)
      (act : ∃ e, a = .step p e) (found : ∃ x, s.t.allocproc = .ok (some (np, x)))
      (unused : s.state np = .unused) (eq : t.pc = Function.update s.pc p (.forkStack np))
      (msgs : SameMsgs s t) (request : t.request = s.request)
      (pid : t.pid = Function.update s.pid np s.t.nextpid) (nextpid : t.t.nextpid = s.t.nextpid + 1)
      (embryo : t.state np = .embryo)
  | reap (p q : Slot) (running : s.state p = .running) (old : s.pc p = .waiting)
      (zombie : s.state q = .zombie) (eq : t.pc = Function.update s.pc p .user)
      (msgs : SameMsgs s t) (request : t.request = s.request)
      (pid : t.pid = Function.update s.pid q 0) (nextpid : t.t.nextpid = s.t.nextpid)
      (unused : t.state q = .unused)
  | lookup (p i : Slot) (running : s.state p = .running) (old : s.pc p = .recvLookup)
      (pid : s.pid i = s.pid p) (eq : t.pc = Function.update s.pc p (.recvDequeue i))
      (msgs : SameMsgs s t) (pids : SamePids s.t t.t) (request : t.request = s.request)
  | enqueue (p i : Slot) (rec_pid : ℤ) (msg : Msg) (temp : Option Page)
      (running : s.state p = .running) (old : s.pc p = .sendEnqueue i rec_pid msg)
      (fresh : ∀ x, temp = some x → s.mem.used x = false)
      (eq : t.pc = Function.update s.pc p (.sendTest i)) (act : ∃ e, a = .step p e)
      (msgs : SameMsgs (s.enqueue i rec_pid msg temp) t) (pids : SamePids s.t t.t)
      (request : t.request = s.request)
  | quit (p i : Slot) (running : s.state p = .running) (old : s.pc p = .sendTest i)
      (act : ∃ e, a = .step p e) (clear : s.request i = false) (eq : t.pc = Function.update s.pc p .user)
      (msgs : SameMsgs s t) (pids : SamePids s.t t.t) (request : t.request = s.request)
  | tested (p i : Slot) (running : s.state p = .running) (old : s.pc p = .sendTest i)
      (eq : t.pc = Function.update s.pc p (.sendClear i))
      (msgs : SameMsgs s t) (pids : SamePids s.t t.t) (request : t.request = s.request)
  | cleared (p i : Slot) (running : s.state p = .running) (old : s.pc p = .sendClear i)
      (eq : t.pc = Function.update s.pc p (.sendWake i)) (msgs : SameMsgs s t)
      (pids : SamePids s.t t.t) (request : t.request = Function.update s.request i false)
  | woke (p i : Slot) (running : s.state p = .running) (old : s.pc p = .sendWake i)
      (eq : t.pc = Function.update s.pc p .user) (msgs : SameMsgs s t) (pids : SamePids s.t t.t)
      (request : t.request = s.request)
      (act : ∃ e, a = .step p e)
      (awake : ∀ r, s.chan r = some (.proc i) → t.state r ≠ .sleeping)
  | took (p i : Slot) (u : Sys) (running : s.state p = .running)
      (old : s.pc p = .recvDequeue i ∨ s.pc p = .recvAgain i)
      (some : s.dequeue p i = some u) (eq : t.pc = Function.update s.pc p .user)
      (msgs : SameMsgs u t) (buf : t.buf = u.buf) (pids : SamePids s.t t.t)
      (request : t.request = s.request)
  | missed (p i : Slot) (running : s.state p = .running) (old : s.pc p = .recvDequeue i)
      (empty : (s.queue i).front = none) (eq : t.pc = Function.update s.pc p (.recvRequest i))
      (msgs : SameMsgs s t) (pids : SamePids s.t t.t) (request : t.request = s.request)
  | missedAgain (p i : Slot) (running : s.state p = .running) (old : s.pc p = .recvAgain i)
      (empty : (s.queue i).front = none) (eq : t.pc = Function.update s.pc p .user)
      (msgs : SameMsgs s t) (pids : SamePids s.t t.t) (request : t.request = s.request)
  | requested (p i : Slot) (running : s.state p = .running) (old : s.pc p = .recvRequest i)
      (eq : t.pc = Function.update s.pc p (.recvSleep i)) (msgs : SameMsgs s t)
      (pids : SamePids s.t t.t) (request : t.request = Function.update s.request i true)
  | slept (p i : Slot) (running : s.state p = .running) (old : s.pc p = .recvSleep i)
      (eq : t.pc = Function.update s.pc p (.recvAgain i)) (msgs : SameMsgs s t)
      (pids : SamePids s.t t.t) (request : t.request = s.request)
      (asleep : t.state p = .sleeping) (chan : t.chan p = Option.some (.proc i))

theorem dequeue_eq_none {p i : Slot} : s.dequeue p i = none ↔ (s.queue i).front = none := by
  rw [← deQueue_eq_none (m := s.mem)]
  unfold Sys.dequeue
  split
  next h => simp [h]
  next h => simp [h]

theorem dequeue_rest {p i : Slot} {u : Sys} (h : s.dequeue p i = some u) :
    u.t = s.t ∧ u.request = s.request ∧ u.pc = s.pc ∧ u.sentTo = s.sentTo := by
  unfold Sys.dequeue at h
  split at h <;> cases h
  exact ⟨rfl, rfl, rfl, rfl⟩

theorem call_pcMove {p : Slot} {c : Call} (hrun : s.state p = .running) (hpc : s.pc p = .user)
    (h : callStep s p c = .ok t) : PcMove s (.call p c) t := by
  have hold : (s.pc p).inFlight = none ∧ (s.pc p).reads = none := by rw [hpc]; exact ⟨rfl, rfl⟩
  cases c with
  | fork | wait | send =>
    cases h
    exact .plain p _ hrun rfl ⟨rfl, rfl, rfl, rfl⟩ (.refl _) rfl hold ⟨rfl, rfl⟩ (.inl rfl)
  | recv =>
    cases h
    exact .plain p _ hrun rfl ⟨rfl, rfl, rfl, rfl⟩ (.refl _) rfl hold ⟨rfl, rfl⟩ (.inl rfl)
  | exit =>
    simp only [callStep] at h
    split_ifs at h
    cases h
    exact .plain p _ hrun rfl ⟨rfl, rfl, rfl, rfl⟩ (.refl _) rfl hold ⟨rfl, rfl⟩ (.inl rfl)
  | kill pid =>
    cases h
    exact .plain p _ hrun rfl ⟨rfl, rfl, rfl, rfl⟩ (.kill _ _) rfl hold ⟨rfl, rfl⟩ (.inl rfl)

/-- A section of `fork`, `exit` or `wait`, or a lookup that fails or belongs to `sending`. -/
theorem PcMove.of_plain {p : Slot} {pc pc' : Pc} (hrun : s.state p = .running) (hpc : s.pc p = pc')
    (heq : t.pc = Function.update s.pc p pc) (hmsgs : SameMsgs s t) (hpids : SamePids s.t t.t)
    (hreq : t.request = s.request) (hold : pc'.inFlight = none ∧ pc'.reads = none)
    (hnew : pc.inFlight = none ∧ pc.reads = none) (hholds : pc.holds = none ∨ pc.holds = pc'.holds) :
    PcMove s a t := by
  subst hpc
  exact .plain p pc hrun heq hmsgs hpids hreq hold hnew hholds

theorem section_pcMove {p : Slot} {e : Env} (hrun : s.state p = .running)
    (h : sectionStep s p e = .ok t) : PcMove s (.step p e) t := by
  unfold sectionStep at h
  split at h
  next => cases h
  next hpc =>
    split at h
    next => cases h
    next =>
      cases h
      exact .of_plain hrun hpc rfl ⟨rfl, rfl, rfl, rfl⟩ (.refl _) rfl ⟨rfl, rfl⟩ ⟨rfl, rfl⟩ (.inl rfl)
    next np x hx =>
      cases h
      obtain ⟨hunused, rfl⟩ := Table.allocproc_some hx
      refine .alloc p np hrun hpc ⟨e, rfl⟩ ⟨_, hx⟩ hunused rfl ⟨rfl, rfl, rfl, rfl⟩ rfl ?_ rfl ?_
      · funext q
        simp only [Sys.pid, Sys.goto, Sys.withTable, Table.setProc, Function.update_apply]
        split_ifs <;> rfl
      · simp [Sys.state, Sys.goto, Sys.withTable, Table.setProc_state]
  next np hpc =>
    split_ifs at h <;> cases h
    · exact .of_plain hrun hpc rfl ⟨rfl, rfl, rfl, rfl⟩ (.refl _) rfl ⟨rfl, rfl⟩ ⟨rfl, rfl⟩ (.inr rfl)
    · exact .of_plain hrun hpc rfl ⟨rfl, rfl, rfl, rfl⟩ (.setState _ _ _) rfl ⟨rfl, rfl⟩
        ⟨rfl, rfl⟩ (.inl rfl)
  next np hpc =>
    split_ifs at h <;> cases h
    · exact .of_plain hrun hpc rfl ⟨rfl, rfl, rfl, rfl⟩ (.refl _) rfl ⟨rfl, rfl⟩ ⟨rfl, rfl⟩ (.inr rfl)
    · exact .of_plain hrun hpc rfl ⟨rfl, rfl, rfl, rfl⟩ (.setState _ _ _) rfl ⟨rfl, rfl⟩
        ⟨rfl, rfl⟩ (.inl rfl)
  next np hpc =>
    cases h
    exact .of_plain hrun hpc rfl ⟨rfl, rfl, rfl, rfl⟩ (.setParent _ _ _) rfl ⟨rfl, rfl⟩
      ⟨rfl, rfl⟩ (.inr rfl)
  next np hpc =>
    cases h
    exact .of_plain hrun hpc rfl ⟨rfl, rfl, rfl, rfl⟩ (.setState _ _ _) rfl ⟨rfl, rfl⟩
      ⟨rfl, rfl⟩ (.inl rfl)
  next hpc =>
    cases h
    exact .of_plain hrun hpc rfl ⟨rfl, rfl, rfl, rfl⟩ (.exitLocked _ _) rfl ⟨rfl, rfl⟩
      ⟨rfl, rfl⟩ (.inl rfl)
  next hpc =>
    split at h
    next c hc =>
      cases h
      refine .reap p c hrun hpc (Table.waitScan_reaped hc) rfl ⟨rfl, rfl, rfl, rfl⟩ rfl ?_ rfl ?_
      · funext q
        simp only [Sys.pid, Sys.back, Sys.withTable, Table.reap, Table.setProc,
          Function.update_apply]
        split_ifs <;> rfl
      · simp [Sys.state, Sys.back, Sys.withTable, Table.reap, Table.setProc_state]
    next =>
      cases h
      exact .of_plain hrun hpc rfl ⟨rfl, rfl, rfl, rfl⟩ (.refl _) rfl ⟨rfl, rfl⟩ ⟨rfl, rfl⟩ (.inl rfl)
    next =>
      cases h
      exact .of_plain hrun hpc rfl ⟨rfl, rfl, rfl, rfl⟩ (.sleepOn _ _ _) rfl ⟨rfl, rfl⟩
        ⟨rfl, rfl⟩ (.inl rfl)
  next r m hpc =>
    split at h <;> cases h <;>
      exact .of_plain hrun hpc rfl ⟨rfl, rfl, rfl, rfl⟩ (.refl _) rfl ⟨rfl, rfl⟩ ⟨rfl, rfl⟩ (.inl rfl)
  next i r m hpc =>
    split_ifs at h with hfresh
    cases h
    exact .enqueue p i r m e.page hrun hpc (fun x hx => hfresh x (by rw [hx]; rfl)) rfl ⟨e, rfl⟩
      ⟨rfl, rfl, rfl, rfl⟩ (.refl _) rfl
  next i hpc =>
    split_ifs at h with hreq <;> cases h
    · exact .tested p i hrun hpc rfl ⟨rfl, rfl, rfl, rfl⟩ (.refl _) rfl
    · exact .quit p i hrun hpc ⟨e, rfl⟩ (by simpa using hreq) rfl ⟨rfl, rfl, rfl, rfl⟩ (.refl _) rfl
  next i hpc => cases h; exact .cleared p i hrun hpc rfl ⟨rfl, rfl, rfl, rfl⟩ (.refl _) rfl
  next i hpc =>
    cases h
    refine .woke p i hrun hpc rfl ⟨rfl, rfl, rfl, rfl⟩ (.wakeup1 _ _) rfl ⟨e, rfl⟩ fun r hr hs => ?_
    simp only [Sys.state, Sys.back, Sys.withTable, Table.wakeup1] at hs
    split_ifs at hs with hc
    exact hc ⟨hs, hr⟩
  next hpc =>
    split at h
    next =>
      cases h
      exact .of_plain hrun hpc rfl ⟨rfl, rfl, rfl, rfl⟩ (.refl _) rfl ⟨rfl, rfl⟩ ⟨rfl, rfl⟩ (.inl rfl)
    next i hi =>
      cases h
      exact .lookup p i hrun hpc (Table.pidToProcid_some hi) rfl ⟨rfl, rfl, rfl, rfl⟩ (.refl _) rfl
  next i hpc =>
    split at h
    next hn =>
      cases h
      exact .missed p i hrun hpc (dequeue_eq_none.mp hn) rfl ⟨rfl, rfl, rfl, rfl⟩ (.refl _) rfl
    next u hu =>
      cases h
      obtain ⟨ht, hreq, hpc', -⟩ := dequeue_rest hu
      refine .took p i u hrun (.inl hpc) hu ?_ ⟨rfl, rfl, rfl, rfl⟩ rfl ?_ hreq
      · simp only [Sys.back, hpc']
      · simp only [Sys.back, ht]
        exact .refl _
  next i hpc => cases h; exact .requested p i hrun hpc rfl ⟨rfl, rfl, rfl, rfl⟩ (.refl _) rfl
  next i hpc =>
    cases h
    refine .slept p i hrun hpc rfl ⟨rfl, rfl, rfl, rfl⟩ (.sleepOn _ _ _) rfl ?_ ?_
    · simp [Sys.state, Sys.offCpu, Sys.goto, Sys.withTable, Table.sleepOn, Table.setProc_state]
    · simp [Sys.chan, Sys.offCpu, Sys.goto, Sys.withTable, Table.sleepOn, Table.setProc]
  next i hpc =>
    split at h
    next hn =>
      cases h
      exact .missedAgain p i hrun hpc (dequeue_eq_none.mp hn) rfl ⟨rfl, rfl, rfl, rfl⟩ (.refl _) rfl
    next u hu =>
      cases h
      obtain ⟨ht, hreq, hpc', -⟩ := dequeue_rest hu
      refine .took p i u hrun (.inr hpc) hu ?_ ⟨rfl, rfl, rfl, rfl⟩ rfl ?_ hreq
      · simp only [Sys.back, hpc']
      · simp only [Sys.back, ht]
        exact .refl _

theorem step_pcMove (h : step s a = .ok t) : PcMove s a t := by
  cases a with
  | call p c =>
    simp only [step] at h
    split_ifs at h with hp
    exact call_pcMove hp.1 hp.2 h
  | step p e =>
    simp only [step] at h
    split_ifs at h with hp
    exact section_pcMove hp h
  | yield p =>
    simp only [step] at h
    split_ifs at h
    cases h
    exact .stay rfl ⟨rfl, rfl, rfl, rfl⟩ (.setState _ _ _) rfl
  | sleep p addr =>
    simp only [step] at h
    split_ifs at h
    cases h
    exact .stay rfl ⟨rfl, rfl, rfl, rfl⟩ (.sleepOn _ _ _) rfl
  | wakeup addr => cases h; exact .stay rfl ⟨rfl, rfl, rfl, rfl⟩ (.wakeup1 _ _) rfl
  | sched n =>
    simp only [step] at h
    split at h
    next => cases h
    next x u hsched =>
      cases h
      refine .stay rfl ⟨rfl, rfl, rfl, rfl⟩ ?_ rfl
      unfold schedStep at hsched
      split_ifs at hsched
      split at hsched
      · cases hsched; exact .refl _
      · cases hsched; exact .setState _ _ _

/-! ### Summaries -/

/-- A process that gets a new place fills a slot or reads a queue as before, or it has just
taken a free slot or looked up its own pid. -/
theorem PcMove.pc (h : PcMove s a t) : t.pc = s.pc ∨ ∃ p pc, s.state p = .running ∧
    t.pc = Function.update s.pc p pc ∧
    (pc.holds = none ∨ pc.holds = (s.pc p).holds ∨
      ∃ np, pc.holds = some np ∧ s.state np = .unused ∧ t.state np = .embryo) ∧
    (pc.reads = none ∨ pc.reads = (s.pc p).reads ∨ ∃ i, pc.reads = some i ∧ s.pid i = s.pid p) := by
  cases h with
  | stay pc => exact .inl pc
  | plain p pc running eq _ _ _ _ new holds =>
    exact .inr ⟨p, pc, running, eq, holds.elim .inl fun h => .inr (.inl h), .inl new.2⟩
  | alloc p np running _ _ _ unused eq _ _ _ _ embryo =>
    exact .inr ⟨p, _, running, eq, .inr (.inr ⟨np, rfl, unused, embryo⟩), .inl rfl⟩
  | reap p q running _ _ eq => exact .inr ⟨p, _, running, eq, .inl rfl, .inl rfl⟩
  | lookup p i running _ pid eq =>
    exact .inr ⟨p, _, running, eq, .inl rfl, .inr (.inr ⟨i, rfl, pid⟩)⟩
  | enqueue p i _ _ _ running _ _ eq => exact .inr ⟨p, _, running, eq, .inl rfl, .inl rfl⟩
  | quit p i running _ _ _ eq => exact .inr ⟨p, _, running, eq, .inl rfl, .inl rfl⟩
  | tested p i running _ eq => exact .inr ⟨p, _, running, eq, .inl rfl, .inl rfl⟩
  | cleared p i running _ eq => exact .inr ⟨p, _, running, eq, .inl rfl, .inl rfl⟩
  | woke p i running _ eq => exact .inr ⟨p, _, running, eq, .inl rfl, .inl rfl⟩
  | took p i u running _ _ eq => exact .inr ⟨p, _, running, eq, .inl rfl, .inl rfl⟩
  | missed p i running old _ eq =>
    exact .inr ⟨p, _, running, eq, .inl rfl, .inr (.inl (by rw [old]; rfl))⟩
  | missedAgain p i running _ _ eq => exact .inr ⟨p, _, running, eq, .inl rfl, .inl rfl⟩
  | requested p i running old eq =>
    exact .inr ⟨p, _, running, eq, .inl rfl, .inr (.inl (by rw [old]; rfl))⟩
  | slept p i running old eq =>
    exact .inr ⟨p, _, running, eq, .inl rfl, .inr (.inl (by rw [old]; rfl))⟩

/-- Pids change when a slot is taken and when it is reaped. -/
theorem PcMove.pid (h : PcMove s a t) : (t.pid = s.pid ∧ t.t.nextpid = s.t.nextpid) ∨
    (∃ np, t.pid = Function.update s.pid np s.t.nextpid ∧ t.t.nextpid = s.t.nextpid + 1 ∧
      s.state np = .unused) ∨
    ∃ q, t.pid = Function.update s.pid q 0 ∧ t.t.nextpid = s.t.nextpid ∧ t.state q = .unused := by
  cases h with
  | alloc p np _ _ _ _ unused _ _ _ pid nextpid _ => exact .inr (.inl ⟨np, pid, nextpid, unused⟩)
  | reap p q _ _ _ _ _ _ pid nextpid unused => exact .inr (.inr ⟨q, pid, nextpid, unused⟩)
  | stay _ _ pids | plain _ _ _ _ _ pids | lookup _ _ _ _ _ _ _ pids
  | enqueue _ _ _ _ _ _ _ _ _ _ _ pids | quit _ _ _ _ _ _ _ _ pids | tested _ _ _ _ _ _ pids
  | cleared _ _ _ _ _ _ pids | woke _ _ _ _ _ _ pids | took _ _ _ _ _ _ _ _ _ pids
  | missed _ _ _ _ _ _ _ pids | missedAgain _ _ _ _ _ _ _ pids | requested _ _ _ _ _ _ pids
  | slept _ _ _ _ _ _ pids =>
    exact .inl ⟨funext pids.pid, pids.nextpid⟩

/-- Queues change when a message is queued and when one is taken. -/
theorem PcMove.msgs (h : PcMove s a t) : SameMsgs s t ∨
    (∃ p i rec_pid msg temp, s.pc p = .sendEnqueue i rec_pid msg ∧
      (∀ x, temp = some x → s.mem.used x = false) ∧ t.pc = Function.update s.pc p (.sendTest i) ∧
      (∃ e, a = .step p e) ∧ SameMsgs (s.enqueue i rec_pid msg temp) t) ∨
    ∃ p i u, s.state p = .running ∧ (s.pc p).reads = some i ∧ s.dequeue p i = some u ∧
      t.pc = Function.update s.pc p .user ∧ SameMsgs u t := by
  cases h with
  | enqueue p i r m temp _ old fresh eq act msgs =>
    exact .inr (.inl ⟨p, i, r, m, temp, old, fresh, eq, act, msgs⟩)
  | took p i u running old some eq msgs =>
    refine .inr (.inr ⟨p, i, u, running, ?_, some, eq, msgs⟩)
    rcases old with old | old <;> rw [old] <;> rfl
  | stay _ msgs | plain _ _ _ _ msgs | alloc _ _ _ _ _ _ _ _ msgs | reap _ _ _ _ _ _ msgs
  | lookup _ _ _ _ _ _ msgs | quit _ _ _ _ _ _ _ msgs | tested _ _ _ _ _ msgs
  | cleared _ _ _ _ _ msgs | woke _ _ _ _ _ msgs | missed _ _ _ _ _ _ msgs
  | missedAgain _ _ _ _ _ _ msgs | requested _ _ _ _ _ msgs | slept _ _ _ _ _ msgs =>
    exact .inl msgs

end Xv6Container.Message
