import Xv6Container.Memory.Vm
import Xv6Container.Names.Model
import Xv6Container.Pipes.Pipe

/-! Open files (`file.c`), pipes (`pipe.c`) and the calls of `sysfile.c` that use them, on top of
the file system of `Names` and of the page allocator. An entry of the file table has type
`FD_INODE`, `FD_PIPE` or `FD_NONE` as it has an inode, a pipe or neither. -/

namespace Xv6Container.Files

open Lib Names
open Fs hiding Stop

export Memory (Page Kmem)

/-- A page becomes a pipe, or a pipe is given back. -/
inductive PageEvent where
  | made (p : Page)
  | freed (p : Page)
  deriving DecidableEq, Repr

/-- `pipes` holds the pages that are pipes. `log` only records what happens to pages. -/
structure State where
  fs : Names.State
  pipe : FileId → Option Page
  pipes : Page → Option Pipes.Pipe
  kmem : Kmem
  log : List PageEvent

/-- Why a call stops: `freed` is the use of a pipe that has been given back. -/
inductive Stop where
  | disabled
  | fs (r : Fs.Stop)
  | kmem (r : Containers.Stop)
  | freed (p : Page)
  deriving DecidableEq, Repr

abbrev Run := EStateM Stop State

/-- A program of the file system. -/
def onFs {α : Type} (x : Names.Run α) : Run α := fun s =>
  match x s.fs with
  | .ok a fs => .ok a { s with fs := fs }
  | .error r fs => .error (.fs r) { s with fs := fs }

/-- A program of the allocator. -/
def onKmem {α : Type} (x : Memory.Run α) : Run α := fun s =>
  match x s.kmem with
  | .ok a kmem => .ok a { s with kmem := kmem }
  | .error r kmem => .error (.kmem r) { s with kmem := kmem }

/-! ### Pipes and files -/

def setPipe (p : Page) (q : Option Pipes.Pipe) : Run Unit :=
  modify fun s => { s with pipes := Function.update s.pipes p q }

def record (e : PageEvent) : Run Unit := modify fun s => { s with log := s.log ++ [e] }

def pipeclose (p : Page) (writable : Bool) : Run Unit := do
  match (← get).pipes p with
  | none => throw (.freed p)
  | some q =>
    setPipe p (some (q.close writable))
    if (q.close writable).freed then
      onKmem (Memory.kfree p)
      setPipe p none
      record (.freed p)

def fileclose (f : FileId) : Run Unit := do
  let s ← get
  -- the count, and the inode of an `FD_INODE` file
  onFs (Names.fileclose f)
  if (s.fs.file f).ref = 1 then
    match s.pipe f with
    | none => pure ()
    | some p =>
      modify fun s => { s with pipe := Function.update s.pipe f none }
      pipeclose p (s.fs.file f).writable

/-- `FD_PIPE`, for one end. -/
def setEnd (f : FileId) (p : Page) (writable : Bool) : Run Unit :=
  modify fun s => { s with
    fs := s.fs.setFile f { s.fs.file f with ip := none, readable := !writable, writable := writable }
    pipe := Function.update s.pipe f (some p) }

/-- `pipealloc`; `kfree` has filled the page with 1. -/
def pipealloc : Run (Option (FileId × FileId)) := do
  match ← onFs filealloc with
  | none => return none
  | some f0 =>
    match ← onFs filealloc with
    | none =>
      fileclose f0
      return none
    | some f1 =>
      match ← onKmem Memory.kalloc with
      | none =>
        fileclose f0
        fileclose f1
        return none
      | some p =>
        setPipe p (some (.pipealloc fun _ => 1))
        record (.made p)
        setEnd f0 p false
        setEnd f1 p true
        return some (f0, f1)

/-! ### Calls -/

def sysPipe (p : Slot) : Run (Option (Fd × Fd)) := do
  match ← pipealloc with
  | none => return none
  | some (rf, wf) =>
    match ← onFs (fdalloc p rf) with
    | none =>
      fileclose rf
      fileclose wf
      return none
    | some fd0 =>
      match ← onFs (fdalloc p wf) with
      | none =>
        onFs (setFd p fd0 none)
        fileclose rf
        fileclose wf
        return none
      | some fd1 => return some (fd0, fd1)

def sysDup (p : Slot) (fd : Fd) : Run (Option Fd) := do
  match ((← get).fs.proc p).ofile fd with
  | none => return none
  | some f =>
    match ← onFs (fdalloc p f) with
    | none => return none
    | some fd' =>
      onFs (filedup f)
      return some fd'

def sysClose (p : Slot) (fd : Fd) : Run Bool := do
  match ((← get).fs.proc p).ofile fd with
  | none => return false
  | some f =>
    onFs (setFd p fd none)
    fileclose f
    return true

/-- The files of `exit`. -/
def closeAll (p : Slot) : Run Unit :=
  (List.finRange NOFILE).forM fun fd => do
    match ((← get).fs.proc p).ofile fd with
    | none => pure ()
    | some f =>
      fileclose f
      onFs (setFd p fd none)

/-- The part of `exit` about files. -/
def exit (p : Slot) : Run Unit := do
  closeAll p
  onFs (putCwd p)
  onFs (setCwd p none)

/-- The part of `exec` about files: `loads` says whether the program can be read and fits into
memory, `fits` whether the stack and the arguments do. -/
def exec (p : Slot) (path : CString) (loads fits : Bool) : Names.Run Bool := do
  match ← namei p path with
  | none => return false
  | some ip =>
    ilock ip
    if loads then
      iunlockput ip
      return fits
    else
      iunlockput ip
      return false

/-- The calls, `fork` and `joinContainer` where they succeed: they fail before they touch a file.
`memory` is the rest of the kernel, which takes pages from the free list and gives them back. -/
inductive Call where
  | open_ (p : Slot) (path : CString) (omode : UInt32)
  | close (p : Slot) (fd : Fd)
  | dup (p : Slot) (fd : Fd)
  | pipe (p : Slot)
  | chdir (p : Slot) (path : CString)
  | fork (p q : Slot)
  | joinContainer (p q : Slot) (containerID : ℤ)
  | exec (p : Slot) (path : CString) (loads fits : Bool)
  | link (p : Slot) (old new : CString)
  | unlink (p : Slot) (path : CString)
  | mkdir (p : Slot) (path : CString)
  | mknod (p : Slot) (path : CString) (major minor : ℤ)
  | fstat (p : Slot) (fd : Fd)
  | exit (p : Slot)
  | memory (freelist : List Page)

/-- `q` gets the files of `p`. -/
def forkFiles (p q : Slot) (containerID : ℤ) : Run Unit := do
  if ((← get).fs.proc q).cwd.isNone then onFs (Names.fork p q containerID) else throw .disabled

def Call.run : Call → Run Unit
  | .open_ p path omode => discard (onFs (sysOpen p path omode))
  | .close p fd => discard (sysClose p fd)
  | .dup p fd => discard (sysDup p fd)
  | .pipe p => discard (sysPipe p)
  | .chdir p path => discard (onFs (sysChdir p path))
  | .fork p q => do forkFiles p q ((← get).fs.proc p).containerID
  | .joinContainer p q containerID => do
    forkFiles p q containerID
    Files.exit p
  | .exec p path loads fits => discard (onFs (Files.exec p path loads fits))
  | .link p old new => discard (onFs (sysLink p old new))
  | .unlink p path => discard (onFs (sysUnlink p path))
  | .mkdir p path => discard (onFs (sysMkdir p path))
  | .mknod p path major minor => discard (onFs (sysMknod p path major minor))
  | .fstat p fd => discard (onFs (sysFstat p fd))
  | .exit p => Files.exit p
  | .memory freelist => do
    let s ← get
    if freelist.Nodup ∧ ∀ p ∈ freelist, s.pipes p = none then
      modify fun s => { s with kmem := { s.kmem with freelist := freelist } }
    else throw .disabled

/-- The process that makes a call. -/
def Call.proc : Call → Option Slot
  | .open_ p _ _ | .close p _ | .dup p _ | .pipe p | .chdir p _ | .fork p _ | .joinContainer p _ _
  | .exec p _ _ _ | .link p _ _ | .unlink p _ | .mkdir p _ | .mknod p _ _ _ | .fstat p _
  | .exit p => some p
  | .memory _ => none

def step (s : State) (c : Call) : Except Stop State :=
  if ∀ p ∈ c.proc, (s.fs.proc p).cwd.isSome then
    match c.run s with
    | .ok _ t => .ok t
    | .error r _ => .error r
  else .error .disabled

/-! ### The first state -/

/-- A disk with a root directory and without removed inodes. -/
structure Disk (node : Inum → Node) : Prop where
  zero : (node 0).attr.type = .free
  root : (node ROOTINO).attr.type = .dir
  linked : ∀ i, (node i).attr.type ≠ .free → (node i).attr.nlink ≠ 0

/-- The first process, with the root as its directory. -/
def boot (node : Inum → Node) (kmem : Kmem) : State where
  fs := {
    node := node
    cache := fun e => ⟨if e = 0 then ROOTINO else 0, if e = 0 then 1 else 0, false, false,
      ⟨.free, 0, 0, 0⟩, 0⟩
    file := fun _ => ⟨0, none, false, false⟩
    proc := fun p => ⟨0, if p = 0 then some 0 else none, fun _ => none⟩
    creator := fun _ => none
    recycled := [] }
  pipe := fun _ => none
  pipes := fun _ => none
  kmem := kmem
  log := []

def Booted (s : State) : Prop :=
  ∃ node kmem, Disk node ∧ kmem.freelist.Nodup ∧ s = boot node kmem

end Xv6Container.Files
