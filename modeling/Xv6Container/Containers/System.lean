import Xv6Container.Containers.Tables
import Xv6Container.Lib.Reach

/-! The container kernel as a system of processes and scheduler threads. A process
that is inside a system call has a place in it (`Pc`); one action of the system is the
start of a call, the next critical section of a call, a timer preemption, a sleep or a
wakeup elsewhere in the kernel, or the next part of one CPU's `scheduler` loop. The
answers of the page allocator and the word a null list entry reads are inputs of the
action, so every amount of free memory and every user program is covered. -/

namespace Xv6Container.Containers

abbrev NCPU : ℕ := 8

/-- Which function creates a process: `fork`, or `joinContainer` with its argument and
the caller's pid that it reads first. -/
inductive Creator where
  | fork
  | join (containerID parentpid : ℤ)
  deriving DecidableEq, Repr

/-- The next section of a process that is inside the kernel. `user` is everywhere else:
user mode, or a system call that does not touch the tables. -/
inductive Pc where
  | user
  | setAlloc (containerID parentpid : ℤ)
  | alloc (k : Creator)
  | kstack (k : Creator) (np : Slot)
  | resetAlloc (k : Creator) (np : Slot)
  | copy (k : Creator) (np : Slot)
  | list (k : Creator) (np : Slot)
  | fields (k : Creator) (np : Slot)
  | publish (k : Creator) (np : Slot)
  | delist (parentpid : ℤ)
  | exiting (joined : Bool)
  | waiting
  | initContainer
  | createReturn
  deriving DecidableEq, Repr

/-- The system calls that use the tables. `leave_container` is `joinContainer(0)`. -/
inductive Call where
  | fork
  | join_container (containerID : ℤ)
  | leave_container
  | create_container
  | containerProcessNum (containerID : ℤ)
  | exit
  | wait
  | kill (pid : ℤ)
  | scheduler_log_on
  deriving DecidableEq, Repr

/-- Where one CPU is in the loop of `scheduler`: before the choice of a pid, in the scan
of the process table from a slot on, before the test of the container's helper flags,
or at the end of a round over the containers. -/
inductive Phase where
  | pick
  | scan (next : ℕ)
  | check
  | round
  deriving DecidableEq, Repr

/-- The locals of `scheduler` on one CPU, with the process it runs. -/
structure Cpu where
  proc : Option Slot
  cntNum : ℕ
  pid : ℤ
  curLocation : Fin NCONT → ℕ
  phase : Phase

structure Sys where
  t : Tables
  pc : Slot → Pc
  ret : Slot → ℤ
  cpu : Fin NCPU → Cpu

/-- What the rest of the machine answers to a section: the page `kalloc` returns, whether
`copyuvm` finds enough memory, the word at user address 16, the pages of a new reserve. -/
structure Env where
  page : Option Page
  copied : Bool
  nullPid : ℤ
  pages : Fin MCONT → Option Page

inductive Act where
  | call (p : Slot) (c : Call)
  | step (p : Slot) (e : Env)
  | yield (p : Slot)
  | sleep (p : Slot) (chan : Chan)
  | wakeup (chan : Chan)
  | sched (n : Fin NCPU)

namespace Sys

/-- Continue the call of `p` at `pc` with new tables. -/
def goto (s : Sys) (p : Slot) (pc : Pc) (t : Tables) : Sys :=
  { s with t := t, pc := Function.update s.pc p pc }

/-- Return from the call of `p`. -/
def back (s : Sys) (p : Slot) (r : ℤ) (t : Tables) : Sys :=
  { s with t := t, pc := Function.update s.pc p .user, ret := Function.update s.ret p r }

/-- `p` has called `sched`: its CPU goes on with the scan. -/
def offCpu (s : Sys) (p : Slot) : Sys :=
  { s with cpu := fun n => if (s.cpu n).proc = some p then { s.cpu n with proc := none }
      else s.cpu n }

end Sys

/-- The container a new process is put into. -/
def Creator.target (t : Tables) (cur : Slot) : Creator → ℤ
  | .fork => (t.proc cur).containerID
  | .join c _ => c

/-- `fork` and `joinContainer` enter the child into a list under different rules. -/
def Creator.insert (t : Tables) (cur np : Slot) : Creator → Except Stop (Bool × Tables)
  | .fork => t.forkInsert cur np
  | .join c _ => t.insertProcess c np

/-- The entry of a system call, up to its first section. -/
def callStep (s : Sys) (p : Slot) : Call → Except Stop Sys
  | .fork => .ok (s.goto p (.alloc .fork) s.t)
  | .join_container c => .ok (s.goto p (.setAlloc c (s.t.proc p).pid) s.t)
  | .leave_container => .ok (s.goto p (.setAlloc 0 (s.t.proc p).pid) s.t)
  | .create_container =>
    .ok (s.goto p .initContainer { s.t with containerNum := s.t.containerNum + 1 })
  | .containerProcessNum c =>
    match s.t.containerProcessNum c with
    | .error e => .error e
    | .ok r => .ok (s.back p r s.t)
  | .exit =>
    if p = s.t.initproc then .error (.panic "init exiting")
    else .ok (s.goto p (.exiting false) s.t)
  | .wait => .ok (s.goto p .waiting s.t)
  | .kill pid => .ok (s.back p (s.t.kill pid).1 (s.t.kill pid).2)
  | .scheduler_log_on => .ok (s.back p 0 { s.t with schedulerLog := true })

/-- The next section of the call `p` is in. -/
def sectionStep (s : Sys) (p : Slot) (e : Env) : Except Stop Sys :=
  match s.pc p with
  | .user => .error .disabled
  | .setAlloc c pp => .ok (s.goto p (.alloc (.join c pp)) { s.t with allocFor := c })
  | .alloc k =>
    match s.t.allocproc with
    | .error e => .error e
    | .ok none => .ok (s.back p (-1) s.t)
    | .ok (some (np, t)) => .ok (s.goto p (.kstack k np) t)
  | .kstack k np =>
    match s.t.allocKstack np e.page with
    | .error e => .error e
    | .ok (false, t) => .ok (s.back p (-1) t)
    | .ok (true, t) =>
      match k with
      | .fork => .ok (s.goto p (.copy k np) t)
      | .join _ _ => .ok (s.goto p (.resetAlloc k np) t)
  | .resetAlloc k np => .ok (s.goto p (.copy k np) { s.t with allocFor := 0 })
  | .copy k np =>
    if e.copied then .ok (s.goto p (.list k np) s.t)
    else .ok (s.back p (-1) (s.t.abandon np))
  | .list k np =>
    match k.insert s.t p np with
    | .error e => .error e
    | .ok (false, t) => .ok (s.back p (-2) (t.abandon np))
    | .ok (true, t) => .ok (s.goto p (.fields k np) t)
  | .fields k np => .ok (s.goto p (.publish k np) (s.t.copyFields p np (k.target s.t p)))
  | .publish k np =>
    match k with
    | .fork => .ok (s.back p (s.t.proc np).pid (s.t.setRunnable np))
    | .join _ pp => .ok (s.goto p (.delist pp) (s.t.setRunnable np))
  | .delist pp =>
    match s.t.removeProcess p pp e.nullPid with
    | .error e => .error e
    | .ok t =>
      if p = s.t.initproc then .error (.panic "init exiting") else .ok (s.goto p (.exiting true) t)
  | .exiting _ => .ok ((s.back p 0 (s.t.exitLocked p)).offCpu p)
  | .waiting =>
    match s.t.waitScan p with
    | .reaped c => .ok (s.back p (s.t.proc c).pid (s.t.reap c))
    | .noKids => .ok (s.back p (-1) s.t)
    | .sleep => .ok ((s.goto p .waiting (s.t.sleepOn p (.proc p))).offCpu p)
  | .initContainer =>
    match s.t.addContainer e.pages with
    | .error e => .error e
    | .ok t => .ok (s.goto p .createReturn t)
  | .createReturn => .ok (s.back p (s.t.containerNum - 1) s.t)

/-! ### The scheduler -/

/-- The selection loop: at most `num` entries from `itr` on, cyclically. -/
def select (process : Fin PROCESS_COUNT → Option Slot) : ℕ → ℕ → Option (Fin PROCESS_COUNT)
  | _, 0 => none
  | itr, num + 1 =>
    let i : Fin PROCESS_COUNT := ⟨itr % PROCESS_COUNT, Nat.mod_lt _ (by decide)⟩
    if (process i).isSome then some i else select process (i + 1) num

/-- The choice of a pid from the list of container `cntNum`, under `ctable.lock`. -/
def pick (t : Tables) (u : Cpu) : Except Stop (Tables × Cpu) :=
  if (u.cntNum : ℤ) < t.containerNum then
    match index .curLocation NCONT u.cntNum with
    | .error e => .error e
    | .ok c =>
      match select (t.container c).process (u.curLocation c) PROCESS_COUNT with
      | none => .ok (t, { u with phase := .scan 0 })
      | some i => .ok
          (if t.schedulerLog then t.setContainer c fun k => { k with
              schedulerHelper := Function.update k.schedulerHelper i true } else t,
            { u with
              pid := t.entryPid 0 ((t.container c).process i)
              curLocation := Function.update u.curLocation c (i + 1)
              phase := .scan 0 })
  else .ok (t, { u with phase := .round })

/-- The tests of the scan: the chosen pid (any pid for container 0), the container, and
RUNNABLE. -/
def eligible (t : Tables) (u : Cpu) (p : Slot) : Bool :=
  ((t.proc p).pid == u.pid || u.cntNum == 0) && (t.proc p).containerID == u.cntNum &&
    (t.proc p).state == .runnable

/-- The scan under `ptable.lock`, up to the next switch to a process or to its end. -/
def scan (t : Tables) (u : Cpu) (next : ℕ) : Tables × Cpu :=
  match Fin.find? fun p => decide (next ≤ p.val) && eligible t u p with
  | none => (t, { u with phase := .check })
  | some p => (t.setProc p fun q => { q with state := .running },
      { u with proc := some p, phase := .scan (p + 1) })

/-- The test of the helper flags after the scan, when the scheduler log is on. -/
def check (t : Tables) (u : Cpu) : Except Stop (Tables × Cpu) :=
  let u' := { u with cntNum := u.cntNum + 1, phase := .pick }
  if t.schedulerLog then
    match index .container NCONT u.cntNum with
    | .error e => .error e
    | .ok c =>
      if ∀ i, ((t.container c).process i).isSome → (t.container c).schedulerHelper i then
        .ok (t.setContainer c fun k => { k with done := true }, u')
      else .ok (t, u')
  else .ok (t, u')

/-- The end of a round: the log goes off once every container from 1 on is done. The
loop over the containers leaves the table if there are more than `NCONT`. -/
def endRound (t : Tables) (u : Cpu) : Except Stop (Tables × Cpu) :=
  let u' := { u with cntNum := 0, phase := .pick }
  if t.schedulerLog ∧ ∀ c : Fin NCONT, 1 ≤ c.val ∧ (c.val : ℤ) < t.containerNum →
      (t.container c).done then
    if t.containerNum ≤ NCONT then
      .ok ({ t with
        schedulerLog := false
        container := fun c => if 1 ≤ c.val ∧ (c.val : ℤ) < t.containerNum then
          { t.container c with done := false, schedulerHelper := fun _ => false }
          else t.container c }, u')
    else .error (.oob .container NCONT)
  else .ok (t, u')

/-- The next part of the loop of `scheduler`; it waits while its process runs. -/
def schedStep (t : Tables) (u : Cpu) : Except Stop (Tables × Cpu) :=
  if u.proc.isSome then .error .disabled
  else
    match u.phase with
    | .pick => pick t u
    | .scan next => .ok (scan t u next)
    | .check => check t u
    | .round => endRound t u

/-! ### Steps and runs -/

/-- A process can leave the CPU at any place but inside a locked section; it sleeps in
calls outside this model and while `exit` closes its files. -/
def Pc.maySleep : Pc → Bool
  | .user | .exiting _ => true
  | _ => false

def step (s : Sys) : Act → Except Stop Sys
  | .call p c =>
    if (s.t.proc p).state = .running ∧ s.pc p = .user then callStep s p c
    else .error .disabled
  | .step p e =>
    if (s.t.proc p).state = .running then sectionStep s p e else .error .disabled
  | .yield p =>
    if (s.t.proc p).state = .running then .ok ({ s with t := s.t.setRunnable p }.offCpu p)
    else .error .disabled
  | .sleep p chan =>
    if (s.t.proc p).state = .running ∧ (s.pc p).maySleep then
      .ok ({ s with t := s.t.sleepOn p chan }.offCpu p)
    else .error .disabled
  | .wakeup chan => .ok { s with t := s.t.wakeup1 chan }
  | .sched n =>
    match schedStep s.t (s.cpu n) with
    | .error e => .error e
    | .ok (t, u) => .ok { s with t := t, cpu := Function.update s.cpu n u }

/-- The machine after `userinit`, with every CPU about to enter `scheduler`. -/
def boot (t : Tables) : Sys where
  t := t
  pc _ := .user
  ret _ := 0
  cpu _ := ⟨none, 0, -1, fun _ => 0, .pick⟩

def Booted (s : Sys) : Prop := ∃ page t, Tables.userinit page = .ok t ∧ s = boot t

end Xv6Container.Containers
