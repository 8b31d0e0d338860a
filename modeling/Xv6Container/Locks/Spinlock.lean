import Xv6Container.Containers.Tables
import Xv6Container.Lib.Reach

/-! Spin locks (`spinlock.c`) and the switches between kernel threads (`sched`, `scheduler`, `forkret`),
one access to shared memory at a time. Each CPU runs one kernel thread, the scheduler of its own or that
of a process, and an interrupt may put its handler on top of the thread whenever FL_IF is set. What a
thread does between its calls is left open. -/

namespace Xv6Container.Locks.Spin

open Containers (ProcState)

universe u

variable {κ π Λ : Type u}

/-- `scheduler` of a CPU, and the kernel part of a process. -/
inductive Thread (κ π : Type u) where
  | scheduler (c : κ)
  | proc (p : π)
  deriving DecidableEq

/-- `struct cpu`, with the FL_IF bit of its flags and the thread that it runs. -/
structure Cpu (κ π : Type u) where
  ncli : ℤ
  intena : Bool
  interruptible : Bool
  thread : Thread κ π

structure Spinlock (κ : Type u) where
  locked : Bool
  cpu : Option κ

inductive Stop where
  | panic (msg : String)
  | disabled
  deriving DecidableEq, Repr

namespace Cpu

/-- `pushcli` after `cli`, and after `eflags` has been read. -/
def pushcli (x : Cpu κ π) (eflags : Bool) : Except Stop (Cpu κ π) :=
  if x.interruptible then .error (.panic "mycpu called with interrupts enabled")
  else .ok { x with intena := if x.ncli = 0 then eflags else x.intena, ncli := x.ncli + 1 }

def popcli (x : Cpu κ π) : Except Stop (Cpu κ π) :=
  if x.interruptible then .error (.panic "popcli - interruptible")
  else if x.ncli - 1 < 0 then .error (.panic "popcli")
  else .ok { x with
    ncli := x.ncli - 1
    interruptible := decide (x.ncli - 1 = 0) && x.intena }

end Cpu

/-- Who has called `holding`. -/
inductive Caller where
  | acquire
  | release
  | sched
  deriving DecidableEq

/-- The next access of a thread. `running` is a thread outside of these functions. -/
inductive Pc (Λ : Type u) where
  | running
  -- `acquire`
  | cli (l : Λ) (eflags : Bool)
  | pushcli (l : Λ) (eflags : Bool)
  | xchg (l : Λ)
  | record (l : Λ)
  -- `holding`: it reads `locked`, and then `cpu`
  | locked (k : Caller) (l : Λ)
  | cpu (k : Caller) (l : Λ)
  -- `release`
  | clear (l : Λ)
  | unlock (l : Λ)
  | popcli
  -- `sched`
  | tests
  | swtch (intena : Bool)
  | resume (intena : Bool)
  | forkret

/-- A thread, or an interrupt handler on top of it. Not in the code are `held`, the locks between
`acquire` and `release`, and `before`, FL_IF before the first of them. -/
structure Frame (Λ : Type u) where
  pc : Pc Λ
  held : List Λ
  before : Bool

/-- `below` are the interrupted parts of a thread, the latest first. -/
structure State (κ π Λ : Type u) where
  cpu : κ → Cpu κ π
  lock : Λ → Spinlock κ
  state : π → ProcState
  top : Thread κ π → Frame Λ
  below : Thread κ π → List (Frame Λ)

inductive Act (κ π Λ : Type u) where
  | acquire (c : κ) (l : Λ)
  | release (c : κ) (l : Λ)
  | sched (c : κ) (st : ProcState)
  | pick (c : κ) (p : π)
  | setState (c : κ) (p : π) (st : ProcState)
  | sti (c : κ)
  | interrupt (c : κ)
  | iret (c : κ)
  | next (c : κ)

/-- A thread that `allocproc` has made. -/
def newThread : Frame Λ := ⟨.forkret, [], false⟩

namespace State

/-- What runs on a CPU. -/
def own (s : State κ π Λ) (c : κ) : Frame Λ := s.top (s.cpu c).thread

variable [DecidableEq κ] [DecidableEq π]

def setCpu (s : State κ π Λ) (c : κ) (x : Cpu κ π) : State κ π Λ :=
  { s with cpu := Function.update s.cpu c x }

def setTop (s : State κ π Λ) (th : Thread κ π) (f : Frame Λ) : State κ π Λ :=
  { s with top := Function.update s.top th f }

def setBelow (s : State κ π Λ) (th : Thread κ π) (l : List (Frame Λ)) : State κ π Λ :=
  { s with below := Function.update s.below th l }

def setProc (s : State κ π Λ) (p : π) (st : ProcState) : State κ π Λ :=
  { s with state := Function.update s.state p st }

omit [DecidableEq π] in
@[simp] theorem setCpu_self (s : State κ π Λ) (c : κ) (x : Cpu κ π) : (s.setCpu c x).cpu c = x :=
  Function.update_self ..

omit [DecidableEq π] in
theorem setCpu_of_ne (s : State κ π Λ) {c d : κ} (h : d ≠ c) (x : Cpu κ π) :
    (s.setCpu c x).cpu d = s.cpu d :=
  Function.update_of_ne h ..

end State

variable [DecidableEq κ] [DecidableEq Λ]

/-- What the caller of `holding` does with the answer. -/
def afterHolding (r : Bool) : Caller → Λ → Except Stop (Pc Λ)
  | .acquire, l => if r then .error (.panic "acquire") else .ok (.xchg l)
  | .release, l => if r then .ok (.clear l) else .error (.panic "release")
  | .sched, _ => if r then .ok .tests else .error (.panic "sched ptable.lock")

/-- The next access of what runs on a CPU, when it does not leave the CPU. `running` says whether the
state of the process is RUNNING. `holding` is called with interrupts off. -/
def access (running : Bool) (c : κ) (x : Cpu κ π) (f : Frame Λ) (lk : Λ → Spinlock κ) :
    Except Stop (Cpu κ π × Frame Λ × (Λ → Spinlock κ)) :=
  match f.pc with
  | .running | .swtch _ => .error .disabled
  | .cli l eflags => .ok ({ x with interruptible := false }, { f with pc := .pushcli l eflags }, lk)
  | .pushcli l eflags => do
    let x ← x.pushcli eflags
    return (x, { f with pc := .locked .acquire l }, lk)
  | .locked k l => do
    let x ← x.pushcli x.interruptible
    if (lk l).locked then return (x, { f with pc := .cpu k l }, lk)
    else
      let x ← x.popcli
      let pc ← afterHolding false k l
      return (x, { f with pc := pc }, lk)
  | .cpu k l => do
    let r := decide ((lk l).cpu = some c)
    let x ← x.popcli
    let pc ← afterHolding r k l
    return (x, { f with pc := pc }, lk)
  | .xchg l =>
    if (lk l).locked then .ok (x, f, lk)
    else .ok (x, { f with pc := .record l }, Function.update lk l { lk l with locked := true })
  | .record l => .ok (x, { f with pc := .running, held := l :: f.held },
      Function.update lk l { lk l with cpu := some c })
  | .clear l => .ok (x, { f with pc := .unlock l, held := f.held.erase l },
      Function.update lk l { lk l with cpu := none })
  | .unlock l => .ok (x, { f with pc := .popcli }, Function.update lk l { lk l with locked := false })
  | .popcli => do
    let x ← x.popcli
    return (x, { f with pc := .running }, lk)
  | .tests =>
    if x.ncli ≠ 1 then .error (.panic "sched locks")
    else if running then .error (.panic "sched running")
    else if x.interruptible then .error (.panic "sched interruptible")
    else .ok (x, { f with pc := .swtch x.intena }, lk)
  | .resume intena => .ok ({ x with intena := intena }, { f with pc := .running }, lk)
  | .forkret => .ok (x, { f with pc := .running, before := x.intena }, lk)

variable [DecidableEq π]

/-- Whether the thread is that of a process that is RUNNING. -/
def State.isRunning (s : State κ π Λ) : Thread κ π → Bool
  | .scheduler _ => false
  | .proc p => s.state p = .running

/-- `ptable` is the lock of the process table: a thread that leaves a CPU hands it over to the thread
that comes. -/
def step (ptable : Λ) (s : State κ π Λ) : Act κ π Λ → Except Stop (State κ π Λ)
  | .acquire c l =>
    let f := s.own c
    let eflags := (s.cpu c).interruptible
    match f.pc with
    | .running => .ok (s.setTop (s.cpu c).thread
        { f with pc := .cli l eflags, before := if f.held = [] then eflags else f.before })
    | _ => .error .disabled
  | .release c l =>
    match (s.own c).pc with
    | .running => .ok (s.setTop (s.cpu c).thread { s.own c with pc := .locked .release l })
    | _ => .error .disabled
  | .sched c st =>
    match (s.own c).pc, (s.cpu c).thread with
    | .running, .proc p => .ok
        ((s.setTop (.proc p) { s.own c with pc := .locked .sched ptable }).setProc p st)
    | _, _ => .error .disabled
  | .pick c p =>
    match (s.own c).pc, (s.cpu c).thread with
    | .running, .scheduler d =>
      if s.state p = .runnable then .ok
        (((s.setTop (.scheduler d) { s.own c with held := [] }).setTop (.proc p)
          { s.top (.proc p) with held := [ptable] }).setProc p .running |>.setCpu c
            { s.cpu c with thread := .proc p })
      else .error .disabled
    | _, _ => .error .disabled
  | .setState c p st =>
    match (s.own c).pc with
    | .running =>
      let s := s.setProc p st
      .ok (if st = .embryo then (s.setTop (.proc p) newThread).setBelow (.proc p) [] else s)
    | _ => .error .disabled
  | .sti c =>
    match (s.own c).pc, (s.cpu c).thread with
    | .running, .scheduler _ => .ok (s.setCpu c { s.cpu c with interruptible := true })
    | _, _ => .error .disabled
  | .interrupt c =>
    let th := (s.cpu c).thread
    if (s.cpu c).interruptible then .ok
      (((s.setBelow th (s.own c :: s.below th)).setTop th ⟨.running, [], false⟩).setCpu c
        { s.cpu c with interruptible := false })
    else .error .disabled
  | .iret c =>
    let th := (s.cpu c).thread
    match (s.own c).pc, s.below th with
    | .running, f :: fs => .ok
        (((s.setBelow th fs).setTop th f).setCpu c { s.cpu c with interruptible := true })
    | _, _ => .error .disabled
  | .next c =>
    let th := (s.cpu c).thread
    match (s.own c).pc with
    | .swtch intena => .ok
        (((s.setTop th { s.own c with pc := .resume intena, held := [] }).setTop (.scheduler c)
          { s.top (.scheduler c) with held := [ptable], before := (s.cpu c).intena }).setCpu c
            { s.cpu c with thread := .scheduler c })
    | _ => do
      let (x, f, lk) ← access (s.isRunning th) c (s.cpu c) (s.own c) s.lock
      return { (s.setTop th f).setCpu c x with lock := lk }

/-- The states that a process is given by others: `allocproc`, `fork` (also where it fails), `wakeup1`,
`kill` and `wait`. Only `fork` does without `ptable.lock`, when it gives a new process up. -/
def MaySet (ptable : Λ) (held : List Λ) : ProcState → ProcState → Prop
  | .unused, .embryo | .embryo, .runnable | .sleeping, .runnable | .zombie, .unused => ptable ∈ held
  | .embryo, .unused => True
  | _, _ => False

instance (ptable : Λ) (held : List Λ) (old new : ProcState) : Decidable (MaySet ptable held old new) := by
  unfold MaySet
  split <;> infer_instance

/-- What the callers see to. -/
def Disciplined (ptable : Λ) (s : State κ π Λ) : Act κ π Λ → Prop
  | .acquire c l => l ∉ (s.own c).held
  | .release c l => l ∈ (s.own c).held
  | .sched c st => (s.own c).held = [ptable] ∧ (st = .runnable ∨ st = .sleeping ∨ st = .zombie)
  | .pick c _ => (s.own c).held = [ptable] ∧ (s.below (s.cpu c).thread).isEmpty = true
  | .setState c p st => MaySet ptable (s.own c).held (s.state p) st
  | .sti c => (s.own c).held = [] ∧ (s.below (s.cpu c).thread).isEmpty = true
  | .iret c => (s.own c).held = []
  | .interrupt _ | .next _ => True

instance (ptable : Λ) (s : State κ π Λ) (a : Act κ π Λ) : Decidable (Disciplined ptable s a) := by
  unfold Disciplined
  split <;> infer_instance

/-- All CPUs are at the start of `scheduler`, and there are some processes to run. -/
structure Start (s : State κ π Λ) : Prop where
  thread : ∀ c, (s.cpu c).thread = .scheduler c
  ncli : ∀ c, (s.cpu c).ncli = 0
  lock : ∀ l, s.lock l = ⟨false, none⟩
  state : ∀ p, s.state p = .unused ∨ s.state p = .runnable
  scheduler : ∀ c, (s.top (.scheduler c)).pc = .running ∧ (s.top (.scheduler c)).held = []
  proc : ∀ p, s.top (.proc p) = newThread
  below : ∀ th, s.below th = []

end Xv6Container.Locks.Spin
