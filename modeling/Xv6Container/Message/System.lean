import Xv6Container.Lib.Reach
import Xv6Container.Message.Queue

/-! Processes that send and receive messages in `xv6/proc.c`. One action of the system is
the start of a call, the next critical section or access to `request[]` of a call, a
preemption, a sleep or a wakeup elsewhere in the kernel, or the next choice of one CPU's
`scheduler`. `recv` sleeps at the address of its own slot in the process table, where
`wait` sleeps too. What `kalloc` and `copyuvm` answer is an input of the action. -/

namespace Xv6Container.Message

/-! ### The process table -/

abbrev NPROC : ℕ := 64
abbrev NCPU : ℕ := 8
abbrev INT_MAX : ℤ := 2147483647

/-- An entry of `ptable.proc`, and of `msgQueue` and `request`. -/
abbrev Slot := Fin NPROC

inductive ProcState where
  | unused | embryo | sleeping | runnable | running | zombie
  deriving DecidableEq, Repr

/-- Where a process sleeps: at a slot of the process table or at another address. -/
inductive Chan where
  | proc (p : Slot)
  | other (addr : ℕ)
  deriving DecidableEq, Repr

structure Proc where
  state : ProcState
  pid : ℤ
  parent : Option Slot
  chan : Option Chan
  killed : Bool
  deriving DecidableEq, Repr

structure Table where
  proc : Slot → Proc
  initproc : Slot
  nextpid : ℤ

/-- Why a run has no next state: the action is not possible here, `nextpid` overflows, or
the kernel panics. -/
inductive Stop where
  | disabled
  | overflow
  | panic (msg : String)
  deriving DecidableEq, Repr

namespace Table

def setProc (t : Table) (p : Slot) (f : Proc → Proc) : Table :=
  { t with proc := Function.update t.proc p (f (t.proc p)) }

def setState (t : Table) (p : Slot) (st : ProcState) : Table :=
  t.setProc p fun q => { q with state := st }

def setParent (t : Table) (p parent : Slot) : Table :=
  t.setProc p fun q => { q with parent := some parent }

/-- The locked part of `allocproc`. -/
def allocproc (t : Table) : Except Stop (Option (Slot × Table)) :=
  match Fin.find? fun p => (t.proc p).state == .unused with
  | none => .ok none
  | some p =>
    if t.nextpid < INT_MAX then
      .ok (some (p, { t.setProc p (fun q => { q with state := .embryo, pid := t.nextpid }) with
        nextpid := t.nextpid + 1 }))
    else .error .overflow

/-- Wake every process that sleeps at `chan`. -/
def wakeup1 (t : Table) (chan : Chan) : Table :=
  { t with proc := fun p =>
      if (t.proc p).state = .sleeping ∧ (t.proc p).chan = some chan then
        { t.proc p with state := .runnable }
      else t.proc p }

def wakeupParent (t : Table) (cur : Slot) : Table :=
  match (t.proc cur).parent with
  | none => t
  | some q => t.wakeup1 (.proc q)

/-- Hand the children of `cur` to `initproc`. -/
def reparent (t : Table) (cur : Slot) : Table :=
  { t with proc := fun p =>
      if (t.proc p).parent = some cur then { t.proc p with parent := some t.initproc }
      else t.proc p }

def hasZombieChild (t : Table) (cur : Slot) : Bool :=
  (Fin.find? fun p => (t.proc p).parent == some cur && (t.proc p).state == .zombie).isSome

/-- The locked part of `exit`. The wakeup of `initproc` happens once for each zombie
child in the source; the second one finds nobody left to wake. -/
def exitLocked (t : Table) (cur : Slot) : Table :=
  let t₁ := t.wakeupParent cur
  let t₂ := t₁.reparent cur
  let t₃ := if t₁.hasZombieChild cur then t₂.wakeup1 (.proc t.initproc) else t₂
  t₃.setState cur .zombie

/-- The slot after `wait` has reaped its process. Its message queue is left as it is. -/
def reap (t : Table) (p : Slot) : Table :=
  t.setProc p fun q => { q with pid := 0, parent := none, killed := false, state := .unused }

inductive WaitResult where
  | reaped (p : Slot)
  | noKids
  | sleep

/-- One pass of `wait` over the process table. -/
def waitScan (t : Table) (cur : Slot) : WaitResult :=
  match Fin.find? fun p => (t.proc p).parent == some cur && (t.proc p).state == .zombie with
  | some p => .reaped p
  | none =>
    if (Fin.find? fun p => (t.proc p).parent == some cur).isSome ∧ (t.proc cur).killed = false
    then .sleep else .noKids

def sleepOn (t : Table) (p : Slot) (chan : Chan) : Table :=
  t.setProc p fun q => { q with chan := some chan, state := .sleeping }

/-- The first slot with this pid, in use or not: the loop of `kill` and `pidToProcid`. -/
def pidToProcid (t : Table) (pid : ℤ) : Option Slot :=
  Fin.find? fun p => (t.proc p).pid == pid

def kill (t : Table) (pid : ℤ) : ℤ × Table :=
  match t.pidToProcid pid with
  | none => (-1, t)
  | some p => (0, t.setProc p fun q => { q with
      killed := true
      state := if q.state = .sleeping then .runnable else q.state })

end Table

/-! ### The system -/

/-- The next section of a process that is inside the kernel. `user` is everywhere else. -/
inductive Pc where
  | user
  | forkAlloc
  | forkStack (np : Slot)
  | forkCopy (np : Slot)
  | forkFields (np : Slot)
  | forkPublish (np : Slot)
  | exiting
  | waiting
  | sendLookup (rec_pid : ℤ) (msg : Msg)
  | sendEnqueue (procId : Slot) (rec_pid : ℤ) (msg : Msg)
  | sendTest (procId : Slot)
  | sendClear (procId : Slot)
  | sendWake (procId : Slot)
  | recvLookup
  | recvDequeue (procId : Slot)
  | recvRequest (procId : Slot)
  | recvSleep (procId : Slot)
  | recvAgain (procId : Slot)
  deriving DecidableEq

inductive Call where
  | fork
  | exit
  | wait
  | kill (pid : ℤ)
  | send (rec_pid : ℤ) (msg : Msg)
  | recv
  deriving DecidableEq

/-- One CPU in the loop of `scheduler`: the process it runs and where the scan goes on. -/
structure Cpu where
  proc : Option Slot
  next : ℕ

/-- A message that `recv` has delivered: the receiver's pid and the `rec_pid` of the
`sending` call it comes from. -/
structure Delivery where
  pid : ℤ
  rec_pid : ℤ
  msg : Msg

/-- `buf` is what the current `recv` of a process has stored into its argument. `sentTo`
and `delivered` only record what happens: the `rec_pid` under which each node was queued,
and the messages delivered so far. -/
structure Sys where
  t : Table
  mem : Mem
  queue : Slot → Queue
  request : Slot → Bool
  pc : Slot → Pc
  ret : Slot → ℤ
  buf : Slot → Option Msg
  cpu : Fin NCPU → Cpu
  sentTo : Page → ℤ
  delivered : List Delivery

/-- The page `kalloc` returns, and whether `copyuvm` finds enough memory. -/
structure Env where
  page : Option Page
  copied : Bool

inductive Act where
  | call (p : Slot) (c : Call)
  | step (p : Slot) (e : Env)
  | yield (p : Slot)
  | sleep (p : Slot) (addr : ℕ)
  | wakeup (addr : ℕ)
  | sched (n : Fin NCPU)

namespace Sys

def state (s : Sys) (p : Slot) : ProcState := (s.t.proc p).state
def pid (s : Sys) (p : Slot) : ℤ := (s.t.proc p).pid
def chan (s : Sys) (p : Slot) : Option Chan := (s.t.proc p).chan

/-- Continue the call of `p` at `pc`. -/
def goto (s : Sys) (p : Slot) (pc : Pc) : Sys :=
  { s with pc := Function.update s.pc p pc }

/-- Return from the call of `p`. -/
def back (s : Sys) (p : Slot) (r : ℤ) : Sys :=
  { s with pc := Function.update s.pc p .user, ret := Function.update s.ret p r }

def withTable (s : Sys) (t : Table) : Sys := { s with t := t }

/-- `p` has called `sched`: its CPU goes on with the scan. -/
def offCpu (s : Sys) (p : Slot) : Sys :=
  { s with cpu := fun n => if (s.cpu n).proc = some p then { s.cpu n with proc := none }
      else s.cpu n }

def setRequest (s : Sys) (i : Slot) (b : Bool) : Sys :=
  { s with request := Function.update s.request i b }

/-- `enQueue` on `msgQueue[i]`, under its lock. -/
def enqueue (s : Sys) (i : Slot) (rec_pid : ℤ) (msg : Msg) (temp : Option Page) : Sys :=
  { s with
    mem := (enQueue s.mem (s.queue i) msg temp).1
    queue := Function.update s.queue i (enQueue s.mem (s.queue i) msg temp).2
    sentTo := match temp with
      | none => s.sentTo
      | some p => Function.update s.sentTo p rec_pid }

/-- `deQueue` on `msgQueue[i]` by `p`, under its lock; `none` when it returns -1. -/
def dequeue (s : Sys) (p i : Slot) : Option Sys :=
  match deQueue s.mem (s.queue i) with
  | none => none
  | some (msg, m, q) => some { s with
      mem := m
      queue := Function.update s.queue i q
      buf := Function.update s.buf p (some msg)
      delivered := s.delivered ++
        [⟨s.pid p, s.sentTo (((s.queue i).front).getD 0), msg⟩] }

end Sys

/-- The entry of a system call, up to its first section. -/
def callStep (s : Sys) (p : Slot) : Call → Except Stop Sys
  | .fork => .ok (s.goto p .forkAlloc)
  | .exit =>
    if p = s.t.initproc then .error (.panic "init exiting") else .ok (s.goto p .exiting)
  | .wait => .ok (s.goto p .waiting)
  | .kill pid => .ok ((s.withTable (s.t.kill pid).2).back p (s.t.kill pid).1)
  | .send rec_pid msg => .ok (s.goto p (.sendLookup rec_pid msg))
  | .recv => .ok ({ s with buf := Function.update s.buf p none }.goto p .recvLookup)

/-- The next section of the call `p` is in. -/
def sectionStep (s : Sys) (p : Slot) (e : Env) : Except Stop Sys :=
  match s.pc p with
  | .user => .error .disabled
  | .forkAlloc =>
    match s.t.allocproc with
    | .error e => .error e
    | .ok none => .ok (s.back p (-1))
    | .ok (some (np, t)) => .ok ((s.withTable t).goto p (.forkStack np))
  | .forkStack np =>
    if e.page.isSome then .ok (s.goto p (.forkCopy np))
    else .ok ((s.withTable (s.t.setState np .unused)).back p (-1))
  | .forkCopy np =>
    if e.copied then .ok (s.goto p (.forkFields np))
    else .ok ((s.withTable (s.t.setState np .unused)).back p (-1))
  | .forkFields np => .ok ((s.withTable (s.t.setParent np p)).goto p (.forkPublish np))
  | .forkPublish np =>
    .ok ((s.withTable (s.t.setState np .runnable)).back p (s.t.proc np).pid)
  | .exiting => .ok (((s.withTable (s.t.exitLocked p)).back p 0).offCpu p)
  | .waiting =>
    match s.t.waitScan p with
    | .reaped c => .ok ((s.withTable (s.t.reap c)).back p (s.t.proc c).pid)
    | .noKids => .ok (s.back p (-1))
    | .sleep => .ok (((s.withTable (s.t.sleepOn p (.proc p))).goto p .waiting).offCpu p)
  | .sendLookup rec_pid msg =>
    match s.t.pidToProcid rec_pid with
    | none => .ok (s.back p (-1))
    | some i => .ok (s.goto p (.sendEnqueue i rec_pid msg))
  | .sendEnqueue i rec_pid msg =>
    -- `kalloc` hands out no page that is in use
    if ∀ x ∈ e.page, s.mem.used x = false then
      .ok ((s.enqueue i rec_pid msg e.page).goto p (.sendTest i))
    else .error .disabled
  | .sendTest i => if s.request i then .ok (s.goto p (.sendClear i)) else .ok (s.back p 0)
  | .sendClear i => .ok ((s.setRequest i false).goto p (.sendWake i))
  | .sendWake i => .ok ((s.withTable (s.t.wakeup1 (.proc i))).back p 0)
  | .recvLookup =>
    match s.t.pidToProcid (s.pid p) with
    | none => .ok (s.back p (-1))
    | some i => .ok (s.goto p (.recvDequeue i))
  | .recvDequeue i =>
    match s.dequeue p i with
    | none => .ok (s.goto p (.recvRequest i))
    | some u => .ok (u.back p 0)
  | .recvRequest i => .ok ((s.setRequest i true).goto p (.recvSleep i))
  | .recvSleep i =>
    .ok (((s.withTable (s.t.sleepOn p (.proc i))).goto p (.recvAgain i)).offCpu p)
  | .recvAgain i =>
    -- the result of the second `deQueue` is not tested
    match s.dequeue p i with
    | none => .ok (s.back p 0)
    | some u => .ok (u.back p 0)

/-- The scan of `scheduler` up to its next switch to a process, or to its end. -/
def schedStep (t : Table) (u : Cpu) : Except Stop (Table × Cpu) :=
  if u.proc.isSome then .error .disabled
  else
    match Fin.find? fun p => decide (u.next ≤ p.val) && (t.proc p).state == .runnable with
    | none => .ok (t, { u with next := 0 })
    | some p => .ok (t.setState p .running, ⟨some p, p + 1⟩)

/-- A process sleeps in calls outside this model and while `exit` closes its files. -/
def Pc.maySleep : Pc → Bool
  | .user | .exiting => true
  | _ => false

def step (s : Sys) : Act → Except Stop Sys
  | .call p c =>
    if s.state p = .running ∧ s.pc p = .user then callStep s p c else .error .disabled
  | .step p e =>
    if s.state p = .running then sectionStep s p e else .error .disabled
  | .yield p =>
    if s.state p = .running then .ok ((s.withTable (s.t.setState p .runnable)).offCpu p)
    else .error .disabled
  | .sleep p addr =>
    if s.state p = .running ∧ (s.pc p).maySleep then
      .ok ((s.withTable (s.t.sleepOn p (.other addr))).offCpu p)
    else .error .disabled
  | .wakeup addr => .ok (s.withTable (s.t.wakeup1 (.other addr)))
  | .sched n =>
    match schedStep s.t (s.cpu n) with
    | .error e => .error e
    | .ok (t, u) => .ok { s with t := t, cpu := Function.update s.cpu n u }

/-! ### The machine after `userinit` -/

def zeroProc : Proc := ⟨.unused, 0, none, none, false⟩

/-- Slot 0 is the first process, with pid 1. -/
def userinit : Table where
  proc := Function.update (fun _ => zeroProc) 0 { zeroProc with state := .runnable, pid := 1 }
  initproc := 0
  nextpid := 2

/-- All queues are empty. The contents of free pages do not matter. -/
def boot (node : Page → Node) : Sys where
  t := userinit
  mem := ⟨node, fun _ => false⟩
  queue _ := ⟨none, none⟩
  request _ := false
  pc _ := .user
  ret _ := 0
  buf _ := none
  cpu _ := ⟨none, 0⟩
  sentTo _ := 0
  delivered := []

def Booted (s : Sys) : Prop := ∃ node, s = boot node

end Xv6Container.Message
