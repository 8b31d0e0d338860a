import Xv6Container.Files.Tables
import Mathlib.Data.Fintype.Card

/-! Processes that run programs, with the calls of `sysfile.c` on files and pipes and with `fork`,
`wait`, `exec` and `exit`. What a program computes between two calls is a function of the answers
that it has got; the processes are interleaved call by call. The kernel's own locks are the subject
of `Files` and `Pipes`: a call is one step here, and `pipewrite` one for every time that it fills
the pipe. -/

namespace Xv6Container.Plumbing

open Function Names
open Files (Page)
open Fs (CString)
open Pipes (Byte)

scoped instance : NeZero NOFILE := ⟨by decide⟩

scoped instance : NeZero NFILE := ⟨by decide⟩

scoped instance : NeZero NPROC := ⟨by decide⟩

/-! ### Programs -/

/-- The calls; a descriptor can be out of range. -/
inductive Call where
  | open_ (path : CString) (omode : UInt32)
  | close (fd : ℕ)
  | dup (fd : ℕ)
  | pipe
  | chdir (path : CString)
  | read (fd : ℕ) (n : ℤ)
  | write (fd : ℕ) (addr : ℕ → Byte) (n : ℤ)
  | fork
  | wait
  | exec (path : CString) (argv : List (List Char))
  | exit

/-- What a call returns, with the descriptors of `pipe` and the bytes of `read`. -/
structure Answer where
  ret : ℤ
  fds : Fd × Fd := (0, 0)
  data : List Byte := []

/-- Programs in the middle of their run. `image` is what `exec` starts. -/
structure Programs (X : Type) where
  call : X → Call
  resume : X → Answer → X
  image : List (List Char) → X

/-! ### Processes -/

variable {X : Type}

/-- `task` is `none` for a slot without a process and for a zombie. `sent` is the number of bytes
that a `pipewrite` has stored so far. -/
structure Machine (X : Type) where
  files : Files.State
  task : Slot → Option X
  sent : Slot → ℕ
  zombie : Slot → Bool
  parent : Slot → Option Slot
  pid : Slot → ℕ
  nextpid : ℕ

inductive Stop where
  | disabled
  /-- the call goes to sleep, or sleeps on -/
  | asleep
  | files (r : Files.Stop)
  deriving DecidableEq, Repr

/-- What the rest of the kernel answers: the slot that `allocproc` finds, what a `fork` that fails
returns, whether a program can be loaded, and what a file of the file system does. -/
structure Env where
  slot : Option Slot
  refused : ℤ
  loads : Bool
  data : List Byte
  count : ℤ

inductive Move where
  | call (p : Slot) (e : Env)
  /-- `init` waits for an orphan. -/
  | reap (q : Slot)

def argfd (fd : ℕ) : Option Fd := if h : fd < NOFILE then some ⟨fd, h⟩ else none

namespace Machine

variable (P : Programs X) (m : Machine X)

/-- The file of a descriptor. -/
def file (p : Slot) (fd : ℕ) : Option FileId := (argfd fd).bind (m.files.table p)

/-- A call returns. -/
def back (p : Slot) (x : X) (a : Answer) : Machine X :=
  { m with task := update m.task p (some (P.resume x a)), sent := update m.sent p 0 }

/-- The result of a program over the files. -/
def run {α : Type} (p : Slot) (x : X) (y : Files.Run α) (answer : α → Answer) :
    Except Stop (Machine X) :=
  match y m.files with
  | .ok a files => .ok ({ m with files := files }.back P p x (answer a))
  | .error r _ => .error (.files r)

def setPipe (pg : Page) (q : Pipes.Pipe) : Machine X :=
  { m with files := { m.files with pipes := update m.files.pipes pg (some q) } }

/-! ### The calls -/

def open_ (p : Slot) (x : X) (path : CString) (omode : UInt32) : Except Stop (Machine X) :=
  m.run P p x (Files.onFs (sysOpen p path omode)) fun fd => { ret := fd.elim (-1) fun fd => fd }

def close (p : Slot) (x : X) (fd : ℕ) : Except Stop (Machine X) :=
  match argfd fd with
  | none => .ok (m.back P p x { ret := -1 })
  | some fd => m.run P p x (Files.sysClose p fd) fun ok => { ret := if ok then 0 else -1 }

def dup (p : Slot) (x : X) (fd : ℕ) : Except Stop (Machine X) :=
  match argfd fd with
  | none => .ok (m.back P p x { ret := -1 })
  | some fd => m.run P p x (Files.sysDup p fd) fun fd => { ret := fd.elim (-1) fun fd => fd }

def pipe (p : Slot) (x : X) : Except Stop (Machine X) :=
  m.run P p x (Files.sysPipe p) fun fds => fds.elim { ret := -1 } fun fds => { ret := 0, fds := fds }

def chdir (p : Slot) (x : X) (path : CString) : Except Stop (Machine X) :=
  m.run P p x (Files.onFs (sysChdir p path)) fun ok => { ret := if ok then 0 else -1 }

/-- `sys_read` with `fileread` and `piperead`. -/
def read (p : Slot) (x : X) (fd : ℕ) (n : ℤ) (e : Env) : Except Stop (Machine X) :=
  match m.file p fd with
  | none => .ok (m.back P p x { ret := -1 })
  | some f =>
    if (m.files.fs.file f).readable = false then .ok (m.back P p x { ret := -1 })
    else match m.files.pipe f with
      | none => .ok (m.back P p x { ret := e.count, data := e.data })
      | some pg =>
        match m.files.pipes pg with
        | none => .error (.files (.freed pg))
        | some q =>
          if q.empty && q.writeopen then .error .asleep
          else
            let (l, q) := q.readLoop n.toNat
            .ok ((m.setPipe pg q).back P p x { ret := l.length, data := l })

/-- `sys_write` with `filewrite` and `pipewrite`. -/
def write (p : Slot) (x : X) (fd : ℕ) (addr : ℕ → Byte) (n : ℤ) (e : Env) :
    Except Stop (Machine X) :=
  match m.file p fd with
  | none => .ok (m.back P p x { ret := -1 })
  | some f =>
    if (m.files.fs.file f).writable = false then .ok (m.back P p x { ret := -1 })
    else match m.files.pipe f with
      | none => .ok (m.back P p x { ret := e.count })
      | some pg =>
        match m.files.pipes pg with
        | none => .error (.files (.freed pg))
        | some q =>
          let (j, q') := q.writeLoop addr (n.toNat - m.sent p) (m.sent p)
          if (j : ℤ) < n then
            if q'.readopen = false then .ok ((m.setPipe pg q').back P p x { ret := -1 })
            else if j = m.sent p then .error .asleep
            else .ok { m.setPipe pg q' with sent := update m.sent p j }
          else .ok ((m.setPipe pg q').back P p x { ret := n })

/-- `fork`: the child returns 0. -/
def fork (p : Slot) (x : X) (e : Env) : Except Stop (Machine X) :=
  match e.slot with
  | none => if e.refused < 0 then .ok (m.back P p x { ret := e.refused }) else .error .disabled
  | some q =>
    if m.task q = none ∧ m.zombie q = false then
      match Files.forkFiles p q (m.files.fs.proc p).containerID m.files with
      | .ok _ files => .ok
        { files := files
          task := update (update m.task p (some (P.resume x { ret := m.nextpid }))) q
            (some (P.resume x { ret := 0 }))
          sent := update (update m.sent p 0) q 0
          zombie := m.zombie
          parent := update m.parent q (some p)
          pid := update m.pid q m.nextpid
          nextpid := m.nextpid + 1 }
      | .error r _ => .error (.files r)
    else .error .disabled

def wait (p : Slot) (x : X) : Except Stop (Machine X) :=
  match (List.finRange NPROC).find? fun q => m.parent q = some p ∧ m.zombie q = true with
  | some q => .ok ({ m with
      zombie := update m.zombie q false
      parent := update m.parent q none }.back P p x { ret := m.pid q })
  | none =>
    if ∃ q, m.parent q = some p then .error .asleep else .ok (m.back P p x { ret := -1 })

def exec (p : Slot) (x : X) (path : CString) (argv : List (List Char)) (e : Env) :
    Except Stop (Machine X) :=
  match Files.onFs (Files.exec p path e.loads true) m.files with
  | .ok true files => .ok { m with files := files, task := update m.task p (some (P.image argv)) }
  | .ok false files => .ok ({ m with files := files }.back P p x { ret := -1 })
  | .error r _ => .error (.files r)

/-- The children go to `init`. -/
def exit (p : Slot) : Except Stop (Machine X) :=
  match Files.exit p m.files with
  | .ok _ files => .ok { m with
      files := files
      task := update m.task p none
      zombie := update m.zombie p true
      parent := fun q => if m.parent q = some p then none else m.parent q }
  | .error r _ => .error (.files r)

def callStep (p : Slot) (x : X) (e : Env) : Call → Except Stop (Machine X)
  | .open_ path omode => m.open_ P p x path omode
  | .close fd => m.close P p x fd
  | .dup fd => m.dup P p x fd
  | .pipe => m.pipe P p x
  | .chdir path => m.chdir P p x path
  | .read fd n => m.read P p x fd n e
  | .write fd addr n => m.write P p x fd addr n e
  | .fork => m.fork P p x e
  | .wait => m.wait P p x
  | .exec path argv => m.exec P p x path argv e
  | .exit => m.exit p

/-- A process whose call does not go on before another process does something. -/
def Sleeps (p : Slot) : Prop :=
  ∃ x, m.task p = some x ∧ match P.call x with
    | .wait => (∃ q, m.parent q = some p) ∧ ∀ q, m.parent q = some p → m.zombie q = false
    | .read fd _ => ∃ f pg q, m.file p fd = some f ∧ (m.files.fs.file f).readable = true ∧
        m.files.pipe f = some pg ∧ m.files.pipes pg = some q ∧ q.empty ∧ q.writeopen
    | .write fd _ n => ∃ f pg q, m.file p fd = some f ∧ (m.files.fs.file f).writable = true ∧
        m.files.pipe f = some pg ∧ m.files.pipes pg = some q ∧ q.full ∧ q.readopen ∧ m.sent p < n
    | _ => False

end Machine

def step (P : Programs X) (m : Machine X) : Move → Except Stop (Machine X)
  | .call p e =>
    match m.task p with
    | none => .error .disabled
    | some x => m.callStep P p x e (P.call x)
  | .reap q =>
    if m.zombie q = true ∧ m.parent q = none then .ok { m with zombie := update m.zombie q false }
    else .error .disabled

end Xv6Container.Plumbing
