import Mathlib.Data.Fin.Tuple.Basic
import Mathlib.Data.Int.Basic
import Xv6Container.Lib.Numerals

/-! The process table and the container table of `xv6-structured/proc.c`, with the
critical sections of its functions. Each section is a function on the two tables:
what `fork`, `joinContainer`, `exit`, `wait`, `kill` and `addContainer` do while they
hold `ptable.lock` or `ctable.lock`, or between two such sections. Pages of memory
come from outside: a section that calls `kalloc` takes the answers as arguments.
An index that leaves an array of `ctable` and an overflow of `nextpid` stop the run:
C gives neither a meaning. -/

namespace Xv6Container.Containers

/-! ### Data -/

abbrev NPROC : ℕ := 64
abbrev PROCESS_COUNT : ℕ := 10
abbrev NCONT : ℕ := 10
abbrev MCONT : ℕ := 10
abbrev INT_MAX : ℤ := 2147483647

/-- A page by its kernel address. A pointer that may be `NULL` is an `Option Page`. -/
abbrev Page := ℕ

/-- An entry of `ptable.proc`. -/
abbrev Slot := Fin NPROC

inductive ProcState where
  | unused | embryo | sleeping | runnable | running | zombie | waiting
  deriving DecidableEq, Repr

/-- Where a process sleeps: at a process slot (in `wait`) or at another address. -/
inductive Chan where
  | proc (p : Slot)
  | other (addr : ℕ)
  deriving DecidableEq, Repr

structure Proc where
  sz : ℕ
  kstack : Option Page
  state : ProcState
  pid : ℤ
  parent : Option Slot
  chan : Option Chan
  killed : Bool
  containerID : ℤ
  deriving DecidableEq, Repr

structure Cmap where
  virt : ℤ
  phys_start : ℕ
  phys_end : ℕ
  pid : ℤ

structure Container where
  process : Fin PROCESS_COUNT → Option Slot
  schedulerHelper : Fin PROCESS_COUNT → Bool
  done : Bool
  generatedProcess : ℤ
  startAddr : Fin MCONT → Option Page
  used : ℤ
  memory : Fin MCONT → Cmap

/-- The global data of `proc.c`. -/
structure Tables where
  proc : Slot → Proc
  container : Fin NCONT → Container
  initproc : Slot
  nextpid : ℤ
  allocFor : ℤ
  containerNum : ℤ
  schedulerLog : Bool

/-- The arrays of `ctable` that are indexed by a number. -/
inductive CArray where
  | container | startAddr | curLocation
  deriving DecidableEq, Repr

/-- Why a run has no next state: the action is not possible here, an index leaves its
array, a signed counter overflows, or the kernel panics. -/
inductive Stop where
  | disabled
  | oob (array : CArray) (index : ℤ)
  | overflow
  | panic (msg : String)
  deriving DecidableEq, Repr

/-- Array access with an `int` index. -/
def index (a : CArray) (n : ℕ) (i : ℤ) : Except Stop (Fin n) :=
  if h : 0 ≤ i ∧ i < n then .ok ⟨i.toNat, by omega⟩ else .error (.oob a i)

theorem index_eq_ok {a : CArray} {n : ℕ} {i : ℤ} {k : Fin n} :
    index a n i = .ok k ↔ i = k.val := by
  unfold index
  split_ifs with h
  · simp only [Except.ok.injEq, Fin.ext_iff]
    omega
  · simp only [false_iff]
    have := k.isLt
    omega

theorem index_val (a : CArray) {n : ℕ} (k : Fin n) : index a n (k.val : ℤ) = .ok k :=
  index_eq_ok.mpr rfl

/-- An index in range is accepted. -/
theorem index_of_lt (a : CArray) {n : ℕ} {i : ℤ} (h0 : 0 ≤ i) (h1 : i < n) :
    ∃ k : Fin n, i = k.val ∧ index a n i = .ok k :=
  ⟨⟨i.toNat, by omega⟩, by simp; omega, index_eq_ok.mpr (by simp; omega)⟩

namespace Tables

/-! ### Updates -/

def setProc (t : Tables) (p : Slot) (f : Proc → Proc) : Tables :=
  { t with proc := Function.update t.proc p (f (t.proc p)) }

def setContainer (t : Tables) (c : Fin NCONT) (f : Container → Container) : Tables :=
  { t with container := Function.update t.container c (f (t.container c)) }

section Updates
variable (t : Tables) (p q : Slot) (f : Proc → Proc) (c d : Fin NCONT) (g : Container → Container)

theorem setProc_proc : (t.setProc p f).proc q = if q = p then f (t.proc p) else t.proc q := by
  simp only [setProc, Function.update_apply]

@[simp] theorem setProc_self : (t.setProc p f).proc p = f (t.proc p) := by simp [setProc]

theorem setProc_of_ne (h : q ≠ p) : (t.setProc p f).proc q = t.proc q := by simp [setProc, h]

@[simp] theorem setProc_container : (t.setProc p f).container = t.container := rfl
@[simp] theorem setProc_initproc : (t.setProc p f).initproc = t.initproc := rfl
@[simp] theorem setProc_nextpid : (t.setProc p f).nextpid = t.nextpid := rfl
@[simp] theorem setProc_allocFor : (t.setProc p f).allocFor = t.allocFor := rfl
@[simp] theorem setProc_containerNum : (t.setProc p f).containerNum = t.containerNum := rfl

theorem setContainer_container :
    (t.setContainer c g).container d = if d = c then g (t.container c) else t.container d := by
  simp only [setContainer, Function.update_apply]

@[simp] theorem setContainer_self : (t.setContainer c g).container c = g (t.container c) := by
  simp [setContainer]

@[simp] theorem setContainer_proc : (t.setContainer c g).proc = t.proc := rfl
@[simp] theorem setContainer_initproc : (t.setContainer c g).initproc = t.initproc := rfl
@[simp] theorem setContainer_nextpid : (t.setContainer c g).nextpid = t.nextpid := rfl
@[simp] theorem setContainer_allocFor : (t.setContainer c g).allocFor = t.allocFor := rfl
@[simp] theorem setContainer_containerNum :
    (t.setContainer c g).containerNum = t.containerNum := rfl

end Updates

/-! ### Creating a process -/

/-- The locked part of `allocproc`: the first UNUSED slot becomes an EMBRYO with a new
pid; `none` when there is no such slot. -/
def allocproc (t : Tables) : Except Stop (Option (Slot × Tables)) :=
  match Fin.find? fun p => (t.proc p).state == .unused with
  | none => .ok none
  | some p =>
    if t.nextpid < INT_MAX then
      .ok (some (p, { t.setProc p (fun q => { q with state := .embryo, pid := t.nextpid }) with
        nextpid := t.nextpid + 1 }))
    else .error .overflow

/-- The next page of a container's reserve, handed out under `ctable.lock`. -/
def conalloc (t : Tables) (containerID pid : ℤ) : Except Stop (Option Page × Tables) :=
  match index .container NCONT containerID with
  | .error e => .error e
  | .ok c =>
    let next := (t.container c).used
    -- `startAddr` and `memory` have the same length, so one test covers both accesses
    match index .startAddr MCONT next with
    | .error e => .error e
    | .ok i =>
      let mem := (t.container c).startAddr i
      .ok (mem, t.setContainer c fun k => { k with
        used := next + 1
        memory := Function.update k.memory i ⟨next, mem.getD 0, mem.getD 0 + 4096, pid⟩ })

/-- Store the kernel stack of a new process; a null page gives the slot back. -/
def setKstack (t : Tables) (p : Slot) : Option Page → Bool × Tables
  | none => (false, t.setProc p fun q => { q with kstack := none, state := .unused })
  | some m => (true, t.setProc p fun q => { q with kstack := some m })

/-- The unlocked rest of `allocproc`: the kernel stack comes from `kalloc`, whose answer
is `page`, or from the reserve of container `allocFor`. -/
def allocKstack (t : Tables) (p : Slot) (page : Option Page) : Except Stop (Bool × Tables) :=
  if t.allocFor = 0 then .ok (t.setKstack p page)
  else
    match t.conalloc t.allocFor (t.proc p).pid with
    | .error e => .error e
    | .ok (mem, t') => .ok (t'.setKstack p mem)

/-- Put `np` into the first free entry of a container's list; `false` when it is full. -/
def insertProcess (t : Tables) (containerID : ℤ) (np : Slot) : Except Stop (Bool × Tables) :=
  match index .container NCONT containerID with
  | .error e => .error e
  | .ok c =>
    match Fin.find? fun i => ((t.container c).process i).isNone with
    | none => .ok (false, t)
    | some i => .ok (true, t.setContainer c fun k => { k with
        process := Function.update k.process i (some np)
        generatedProcess := k.generatedProcess + 1 })

/-- `fork` lists the child in the caller's container, except in container 0. -/
def forkInsert (t : Tables) (cur np : Slot) : Except Stop (Bool × Tables) :=
  if (t.proc cur).containerID ≠ 0 then t.insertProcess (t.proc cur).containerID np
  else .ok (true, t)

/-- The failure exits of `fork` and `joinContainer` after `allocproc`. -/
def abandon (t : Tables) (np : Slot) : Tables :=
  t.setProc np fun q => { q with kstack := none, state := .unused }

/-- The fields of the child that are copied from its creator. -/
def copyFields (t : Tables) (cur np : Slot) (containerID : ℤ) : Tables :=
  t.setProc np fun q => { q with
    sz := (t.proc cur).sz
    parent := some cur
    containerID := containerID }

def setRunnable (t : Tables) (np : Slot) : Tables :=
  t.setProc np fun q => { q with state := .runnable }

/-- What the loop at the end of `joinContainer` compares with the caller's pid. For an
empty entry this is the word at address 16 of the caller's own memory. -/
def entryPid (t : Tables) (nullPid : ℤ) : Option Slot → ℤ
  | none => nullPid
  | some p => (t.proc p).pid

/-- The loop at the end of `joinContainer` that takes the caller off its old list. -/
def removeProcess (t : Tables) (cur : Slot) (parentpid nullPid : ℤ) : Except Stop Tables :=
  match index .container NCONT (t.proc cur).containerID with
  | .error e => .error e
  | .ok c =>
    match Fin.find? fun i => t.entryPid nullPid ((t.container c).process i) == parentpid with
    | none => .ok t
    | some i => .ok (t.setContainer c fun k => { k with
        process := Function.update k.process i none
        generatedProcess := k.generatedProcess - 1 })

/-! ### Sleeping, exiting and waiting -/

/-- Wake every process that sleeps at `chan`. -/
def wakeup1 (t : Tables) (chan : Chan) : Tables :=
  { t with proc := fun p =>
      if (t.proc p).state = .sleeping ∧ (t.proc p).chan = some chan then
        { t.proc p with state := .runnable }
      else t.proc p }

def wakeupParent (t : Tables) (cur : Slot) : Tables :=
  match (t.proc cur).parent with
  | none => t
  | some q => t.wakeup1 (.proc q)

/-- Hand the children of `cur` to `initproc`. -/
def reparent (t : Tables) (cur : Slot) : Tables :=
  { t with proc := fun p =>
      if (t.proc p).parent = some cur then { t.proc p with parent := some t.initproc }
      else t.proc p }

def hasZombieChild (t : Tables) (cur : Slot) : Bool :=
  (Fin.find? fun p => (t.proc p).parent == some cur && (t.proc p).state == .zombie).isSome

/-- The locked part of `exit`. The wakeup of `initproc` happens once for each zombie
child in the source; the second one finds nobody left to wake. -/
def exitLocked (t : Tables) (cur : Slot) : Tables :=
  let t₁ := t.wakeupParent cur
  let t₂ := t₁.reparent cur
  let t₃ := if t₁.hasZombieChild cur then t₂.wakeup1 (.proc t.initproc) else t₂
  t₃.setProc cur fun q => { q with state := .zombie }

/-- The slot after `wait` has reaped its process. -/
def reap (t : Tables) (p : Slot) : Tables :=
  t.setProc p fun q => { q with
    kstack := none, pid := 0, parent := none, killed := false, state := .unused }

inductive WaitResult where
  | reaped (p : Slot)
  | noKids
  | sleep

/-- One pass of `wait` over the process table. -/
def waitScan (t : Tables) (cur : Slot) : WaitResult :=
  match Fin.find? fun p => (t.proc p).parent == some cur && (t.proc p).state == .zombie with
  | some p => .reaped p
  | none =>
    if (Fin.find? fun p => (t.proc p).parent == some cur).isSome ∧ (t.proc cur).killed = false
    then .sleep else .noKids

def sleepOn (t : Tables) (p : Slot) (chan : Chan) : Tables :=
  t.setProc p fun q => { q with chan := some chan, state := .sleeping }

/-- `kill` takes the first slot with this pid, in use or not. -/
def kill (t : Tables) (pid : ℤ) : ℤ × Tables :=
  match Fin.find? fun p => (t.proc p).pid == pid with
  | none => (-1, t)
  | some p => (0, t.setProc p fun q => { q with
      killed := true
      state := if q.state = .sleeping then .runnable else q.state })

/-! ### Containers -/

/-- The locked part of `addContainer`; `pages` are the answers of `kalloc`. -/
def addContainer (t : Tables) (pages : Fin MCONT → Option Page) : Except Stop Tables :=
  match index .container NCONT (t.containerNum - 1) with
  | .error e => .error e
  | .ok c => .ok (t.setContainer c fun k => { k with generatedProcess := 0, startAddr := pages })

/-- `containerProcessNum`. -/
def containerProcessNum (t : Tables) (containerID : ℤ) : Except Stop ℤ :=
  match index .container NCONT containerID with
  | .error e => .error e
  | .ok c => .ok (t.container c).generatedProcess

/-! ### The tables after `userinit` -/

/-- A slot of the zeroed process table. -/
def zeroProc : Proc := ⟨0, none, .unused, 0, none, none, false, 0⟩

def zeroContainer : Container :=
  ⟨fun _ => none, fun _ => false, false, 0, fun _ => none, 0, fun _ => ⟨0, 0, 0, 0⟩⟩

def zero : Tables := ⟨fun _ => zeroProc, fun _ => zeroContainer, 0, 1, 0, 0, false⟩

/-- `userinit`: the first process is RUNNABLE in container 0 and heads its list. -/
def userinit (page : Page) : Except Stop Tables :=
  match zero.allocproc with
  | .error e => .error e
  | .ok none => .error (.panic "userinit: out of memory?")
  | .ok (some (p, t)) =>
    let t := t.setProc p fun q => { q with
      kstack := some page, containerID := 0, sz := 4096, state := .runnable }
    .ok { t.setContainer 0 (fun k => { k with
            process := Function.update k.process 0 (some p), generatedProcess := 1 }) with
          initproc := p, containerNum := 1 }

/-- Slot 0 is the first process and the only entry of a list. -/
theorem userinit_ok (page : Page) : ∃ t, userinit page = .ok t ∧ t.initproc = 0 ∧
    t.nextpid = 2 ∧ t.allocFor = 0 ∧ t.containerNum = 1 ∧
    t.proc = Function.update (fun _ => zeroProc) 0 { zeroProc with
      sz := 4096, kstack := some page, state := .runnable, pid := 1 } ∧
    t.container = Function.update (fun _ => zeroContainer) 0 { zeroContainer with
      process := Function.update (fun _ => none) 0 (some 0), generatedProcess := 1 } := by
  refine ⟨_, rfl, rfl, rfl, rfl, rfl, ?_, rfl⟩
  funext q
  by_cases hq : q = 0
  · subst hq; rfl
  · simp [setProc, hq, zero]

/-! ### What the sections do -/

section Specs
variable {t t' : Tables} {p q np cur : Slot} {page mem : Option Page} {c pid pp n : ℤ}

theorem allocproc_some (h : t.allocproc = .ok (some (np, t'))) :
    (t.proc np).state = .unused ∧ t.nextpid < INT_MAX ∧
      t' = { t.setProc np (fun q => { q with state := .embryo, pid := t.nextpid }) with
        nextpid := t.nextpid + 1 } := by
  unfold allocproc at h
  split at h
  · cases h
  next p hp =>
    split_ifs at h with hn
    simp only [Except.ok.injEq, Option.some.injEq, Prod.mk.injEq] at h
    obtain ⟨rfl, rfl⟩ := h
    have := (Fin.find?_eq_some_iff.mp hp).1
    exact ⟨by simpa using this, hn, rfl⟩

/-- `conalloc` changes the reserve of one container only. -/
theorem conalloc_ok (h : t.conalloc c pid = .ok (mem, t')) :
    ∃ (k : Fin NCONT) (i : Fin MCONT), c = k.val ∧ (t.container k).used = i.val ∧
      mem = (t.container k).startAddr i ∧
      t' = t.setContainer k fun x => { x with
        used := i.val + 1
        memory := Function.update x.memory i ⟨i.val, mem.getD 0, mem.getD 0 + 4096, pid⟩ } := by
  unfold conalloc at h
  split at h
  · cases h
  next k hk =>
    rw [index_eq_ok] at hk
    dsimp only at h
    split at h
    · cases h
    next i hi =>
      rw [index_eq_ok] at hi
      simp only [Except.ok.injEq, Prod.mk.injEq] at h
      obtain ⟨rfl, rfl⟩ := h
      exact ⟨k, i, hk, hi, rfl, by rw [hi]⟩

theorem insertProcess_ok {b : Bool} (h : t.insertProcess c np = .ok (b, t')) :
    (b = false ∧ t' = t) ∨ ∃ (k : Fin NCONT) (i : Fin PROCESS_COUNT), b = true ∧ c = k.val ∧
      (t.container k).process i = none ∧
      t' = t.setContainer k fun x => { x with
        process := Function.update x.process i (some np)
        generatedProcess := x.generatedProcess + 1 } := by
  unfold insertProcess at h
  split at h
  · cases h
  next k hk =>
    split at h
    · simp only [Except.ok.injEq, Prod.mk.injEq] at h
      exact .inl ⟨h.1.symm, h.2.symm⟩
    next i hi =>
      simp only [Except.ok.injEq, Prod.mk.injEq] at h
      have := (Fin.find?_eq_some_iff.mp hi).1
      exact .inr ⟨k, i, h.1.symm, index_eq_ok.mp hk, by simpa using this, h.2.symm⟩

theorem removeProcess_ok (h : t.removeProcess cur pp n = .ok t') :
    t' = t ∨ ∃ (k : Fin NCONT) (i : Fin PROCESS_COUNT), (t.proc cur).containerID = k.val ∧
      t.entryPid n ((t.container k).process i) = pp ∧
      t' = t.setContainer k fun x => { x with
        process := Function.update x.process i none
        generatedProcess := x.generatedProcess - 1 } := by
  unfold removeProcess at h
  split at h
  · cases h
  next k hk =>
    split at h
    · exact .inl (Except.ok.inj h).symm
    next i hi =>
      have := (Fin.find?_eq_some_iff.mp hi).1
      exact .inr ⟨k, i, index_eq_ok.mp hk, by simpa using this, (Except.ok.inj h).symm⟩

theorem waitScan_reaped (h : t.waitScan cur = .reaped p) :
    (t.proc p).parent = some cur ∧ (t.proc p).state = .zombie := by
  unfold waitScan at h
  split at h
  next q hq =>
    cases h
    have := (Fin.find?_eq_some_iff.mp hq).1
    simpa using this
  · split_ifs at h

theorem addContainer_ok {pages : Fin MCONT → Option Page} (h : t.addContainer pages = .ok t') :
    ∃ k : Fin NCONT, t.containerNum - 1 = k.val ∧
      t' = t.setContainer k fun x => { x with generatedProcess := 0, startAddr := pages } := by
  unfold addContainer at h
  split at h
  · cases h
  next k hk => exact ⟨k, index_eq_ok.mp hk, (Except.ok.inj h).symm⟩

end Specs

end Tables

end Xv6Container.Containers
