import Xv6Container.Containers.System
import Xv6Container.Files.Model

/-! The kernel with its memory. The processes and the containers, the files and the free list are
one system: a section of `fork`, `joinContainer`, `wait` or `addContainer` takes its pages from
the free list or from the reserve of a container, and gives them back there. `growproc` and `exec`
are steps, and so are the calls about files; between any two steps others may run. -/

namespace Xv6Container.Kernel

open Lib
open Containers (Sys Env Slot Page Creator NCONT MCONT)
open Memory (Kmem PageDir Program)

/-- `pgdir` is `none` for a slot without an address space. `reserved` only records which pages
`addContainer` has put into `startAddr` of a container. -/
structure State where
  sys : Sys
  files : Files.State
  pgdir : Slot → Option PageDir
  reserved : ℤ → List Page

def State.kmem (s : State) : Kmem := s.files.kmem

/-- Why a step stops: in which part of the kernel. -/
inductive Stop where
  | disabled
  | sys (r : Containers.Stop)
  | memory (r : Containers.Stop)
  | files (r : Files.Stop)
  deriving DecidableEq, Repr

abbrev Run := EStateM Stop State

/-- A program of `kalloc.c` or `vm.c`. -/
def onMemory {α : Type} (x : Memory.Run α) : Run α := fun s =>
  match x s.kmem with
  | .ok a kmem => .ok a { s with files := { s.files with kmem := kmem } }
  | .error r kmem => .error (.memory r) { s with files := { s.files with kmem := kmem } }

def setPgdir (p : Slot) (d : Option PageDir) : Run Unit :=
  modify fun s => { s with pgdir := Function.update s.pgdir p d }

/-! ### Sections -/

/-- The section itself, with the answers of the allocator. -/
def advance (p : Slot) (e : Env) : Run Unit := do
  let s ← get
  match Containers.step s.sys (.step p e) with
  | .error r => throw (.sys r)
  | .ok sys => set { s with sys := sys }

/-- The answers for a section that asks for no page. -/
def noPages (nullPid : ℤ) : Env := ⟨none, true, nullPid, fun _ => none⟩

/-- `kfree(p->kstack)`; `NULL` is 0. -/
def freeKstack (p : Slot) : Run Unit := do
  let s ← get
  onMemory (Memory.kfree ((s.sys.t.proc p).kstack.getD 0))

/-- `freevm(p->pgdir)`. -/
def freePgdir (p : Slot) : Run Unit := do
  match (← get).pgdir p with
  | none => throw (.memory (.panic "freevm: no pgdir"))
  | some d =>
    onMemory (Memory.freevm d)
    setPgdir p none

/-- The calls of `kalloc` in `addContainer`. -/
def kallocs : (n : ℕ) → Memory.Run (Fin n → Option Page)
  | 0 => return Fin.elim0
  | n + 1 => do
    let page ← Memory.kalloc
    let pages ← kallocs n
    return Fin.cons page pages

/-- The pages go into the container that is being made. -/
def record (pages : Fin MCONT → Option Page) : Run Unit :=
  modify fun s =>
    let c := s.sys.t.containerNum - 1
    { s with reserved :=
        Function.update s.reserved c (s.reserved c ++ (List.ofFn pages).reduceOption) }

/-- The next section of the call that `p` is in. -/
def sectionStep (p : Slot) (nullPid : ℤ) : Run Unit := do
  let s ← get
  match s.sys.pc p with
  | .kstack _ _ =>
    let page ← if s.sys.t.allocFor = 0 then onMemory Memory.kalloc else pure none
    advance p { noPages nullPid with page := page }
  | .copy _ np =>
    match s.pgdir p with
    | none => throw .disabled
    | some d =>
      match ← onMemory (Memory.copyuvm d (s.sys.t.proc p).sz) with
      | some d =>
        setPgdir np (some d)
        advance p (noPages nullPid)
      | none =>
        setPgdir np none
        freeKstack np
        advance p { noPages nullPid with copied := false }
  | .list k np =>
    -- the address space of `np` is not freed when the list is full
    match k.insert s.sys.t p np with
    | .ok (false, _) => freeKstack np
    | _ => pure ()
    advance p (noPages nullPid)
  | .waiting =>
    match s.sys.t.waitScan p with
    | .reaped c =>
      freeKstack c
      freePgdir c
    | _ => pure ()
    advance p (noPages nullPid)
  | .initContainer =>
    let pages ← onMemory (kallocs MCONT)
    record pages
    advance p { noPages nullPid with pages := pages }
  | _ => advance p (noPages nullPid)

/-! ### `growproc` and `exec` -/

def setSize (p : Slot) (sz : ℕ) : Run Unit :=
  modify fun s => { s with sys := { s.sys with t := s.sys.t.setProc p fun q => { q with sz := sz } } }

def growproc (p : Slot) (n : ℤ) : Run ℤ := do
  let s ← get
  match s.pgdir p with
  | none => throw .disabled
  | some d =>
    let (d, sz) ← onMemory (Memory.growproc d (s.sys.t.proc p).sz n)
    setPgdir p (some d)
    match sz with
    | none => return -1
    | some sz =>
      setSize p sz
      return 0

def exec (p : Slot) (prog : Program) : Run ℤ := do
  match (← get).pgdir p with
  | none => throw .disabled
  | some d =>
    match ← onMemory (Memory.exec d prog) with
    | none => return -1
    | some (d, sz) =>
      setPgdir p (some d)
      setSize p sz
      return 0

/-! ### Steps -/

/-- `sys` is a step without a section of a call, and `step` is such a section, with the word that
a null list entry reads. -/
inductive Act where
  | sys (a : Containers.Act)
  | step (p : Slot) (nullPid : ℤ)
  | growproc (p : Slot) (n : ℤ)
  | exec (p : Slot) (prog : Program)
  | files (c : Files.Call)

/-- The state after a program. -/
def finish {α : Type} (r : EStateM.Result Stop State α) : Except Stop State :=
  match r with
  | .ok _ t => .ok t
  | .error r _ => .error r

/-- A process can make a system call. -/
def State.inUser (s : State) (p : Slot) : Prop :=
  (s.sys.t.proc p).state = .running ∧ s.sys.pc p = .user

instance (s : State) (p : Slot) : Decidable (s.inUser p) := inferInstanceAs (Decidable (_ ∧ _))

def step (s : State) : Act → Except Stop State
  | .sys (.step _ _) => .error .disabled
  | .sys a =>
    match Containers.step s.sys a with
    | .error r => .error (.sys r)
    | .ok sys => .ok { s with sys := sys }
  | .step p nullPid =>
    if (s.sys.t.proc p).state = .running then finish (sectionStep p nullPid s) else .error .disabled
  | .growproc p n => if s.inUser p then finish (growproc p n s) else .error .disabled
  | .exec p prog => if s.inUser p then finish (exec p prog s) else .error .disabled
  | .files (.memory _) => .error .disabled
  | .files c =>
    match Files.step s.files c with
    | .error r => .error (.files r)
    | .ok files => .ok { s with files := files }

/-! ### The first state -/

/-- `inituvm`, on a machine with enough memory for the first process. -/
def inituvm (d : PageDir) : Memory.Run PageDir := do
  match ← Memory.kalloc with
  | none => throw .disabled
  | some mem =>
    match ← Memory.mappages d 0 ⟨mem, true, true⟩ with
    | (_, false) => throw .disabled
    | (d, true) => return d

/-- The pages that `userinit` takes: the kernel stack and the address space. -/
def userinit : Memory.Run (Page × PageDir) := do
  match ← Memory.kalloc with
  | none => throw .disabled
  | some kstack =>
    match ← Memory.setupkvm with
    | none => throw (.panic "userinit: out of memory?")
    | some d => return (kstack, ← inituvm d)

/-- The machine after `userinit`; the first process is in slot 0. -/
def boot (d : PageDir) (kmem : Kmem) (node : Fs.Inum → Names.Node)
    (t : Containers.Tables) : State where
  sys := Containers.boot t
  files := Files.boot node kmem
  pgdir := Function.update (fun _ => none) 0 (some d)
  reserved := fun _ => []

def Booted (s : State) : Prop :=
  ∃ kmem kmem' kstack d node t, kmem.freelist.Nodup ∧ userinit kmem = .ok (kstack, d) kmem' ∧
    Files.Disk node ∧ Containers.Tables.userinit kstack = .ok t ∧ s = boot d kmem' node t

end Xv6Container.Kernel
