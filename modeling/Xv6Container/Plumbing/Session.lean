import Xv6Container.Plumbing.Machine
import Xv6Container.Shell.Programs
import Xv6Container.Shell.Strings

/-! `runcmd` and `main` of `sh.c` as programs: the system calls they make, with the descriptors that
these are about. The messages that they print on descriptor 2 are left out. The programs that `exec`
starts are any programs that do not call `pipe`. -/

namespace Xv6Container.Plumbing

open Function Names
open Fs (CString)
open Shell (Tree fork1 nul)

/-- The next call of the shell, and how it goes on after it. -/
inductive Code where
  | open_ (path : CString) (omode : UInt32) (next : ℤ → Code)
  | close (fd : ℕ) (next : Code)
  | dup (fd : Fd) (next : Code)
  | pipe (next : ℤ → Fd × Fd → Code)
  | chdir (path : CString) (next : Code)
  | fork (next : ℤ → Code)
  | wait (next : Code)
  | exec (argv : List (List Char)) (next : Code)
  | exit

/-- The C string of some characters. -/
def cstring (w : List Char) : CString where
  bytes := (w.map Char.toUInt8).filter (· ≠ 0)
  nonzero h := of_decide_eq_true (List.mem_filter.1 h).2 rfl

/-! ### The source -/

/-- A call of `fork1`. `panic` exits. -/
def afterFork1 (next : ℤ → Code) : Code :=
  .fork fun pid =>
    match fork1 pid with
    | none => .exit
    | some pid => next pid

/-- A child of a pipeline makes the end `p` of the pipe its descriptor `fd`. -/
def plumb (fd : ℕ) (p p0 p1 : Fd) (next : Code) : Code :=
  .close fd (.dup p (.close p0 (.close p1 next)))

/-- `runcmd`; it never returns. -/
def runcmd : Tree → Code
  | .exec argv => if argv = [] then .exit else .exec argv .exit
  | .redir cmd file mode fd =>
    .close fd (.open_ (cstring file) (UInt32.ofNat mode) fun r =>
      if r < 0 then .exit else runcmd cmd)
  | .list left right =>
    afterFork1 fun pid => if pid = 0 then runcmd left else .wait (runcmd right)
  | .pipe left right =>
    .pipe fun r (p0, p1) =>
      if r < 0 then .exit
      else afterFork1 fun pid =>
        if pid = 0 then plumb 1 p1 p0 p1 (runcmd left)
        else afterFork1 fun pid =>
          if pid = 0 then plumb 0 p0 p0 p1 (runcmd right)
          else .close p0 (.close p1 (.wait (.wait .exit)))
  | .back cmd => afterFork1 fun pid => if pid = 0 then runcmd cmd else .exit

/-- The command of a line, unless the line has a syntax error. -/
def parsed (text : List Char) : Option Tree :=
  match Shell.parsecmd text with
  | .ok (cmd, buf) => some (cmd.tree buf text.length)
  | .error _ => none

/-- `runcmd(parsecmd(buf))`. A syntax error is a `panic`. -/
def runline (text : List Char) : Code :=
  match parsed text with
  | none => .exit
  | some tree => runcmd tree

/-- The loop of `main`, with the lines that `gets` is going to return. -/
def main : List (List Char) → Code
  | [] => .exit
  | text :: lines =>
    if text.take 3 = ['c', 'd', ' '] then
      .chdir (cstring (text.dropLast.drop 3)) (main lines)
    else afterFork1 fun pid =>
      if pid = 0 then runline text else .wait (main lines)

/-! ### Tasks -/

def Code.call : Code → Call
  | .open_ path omode _ => .open_ path omode
  | .close fd _ => .close fd
  | .dup fd _ => .dup fd
  | .pipe _ => .pipe
  | .chdir path _ => .chdir path
  | .fork _ => .fork
  | .wait _ => .wait
  | .exec argv _ => .exec (cstring (argv.headD [])) argv
  | .exit => .exit

def Code.resume (a : Answer) : Code → Code
  | .open_ _ _ next => next a.ret
  | .close _ next | .dup _ next | .chdir _ next | .wait next | .exec _ next => next
  | .pipe next => next a.ret a.fds
  | .fork next => next a.ret
  | .exit => .exit

/-- What a process runs. -/
inductive Task (U : Type) where
  | shell (c : Code)
  | user (u : U)

/-- The shell and the programs that it starts. -/
def withShell {U : Type} (P : Programs U) : Programs (Task U) where
  call
    | .shell c => c.call
    | .user u => P.call u
  resume
    | .shell c, a => .shell (c.resume a)
    | .user u, a => .user (P.resume u a)
  image argv := .user (P.image argv)

theorem resume_afterFork1 {next : ℤ → Code} {a : Answer} :
    (afterFork1 next).resume a = if a.ret = -1 then .exit else next a.ret := by
  simp only [afterFork1, Code.resume, fork1]
  split_ifs
  · rfl
  · rfl

end Xv6Container.Plumbing
