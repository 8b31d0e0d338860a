import Xv6Container.Containers.System
import Xv6Container.Shell.Grammar

/-! What a shell asks of the kernel: the system calls of `runcmd` and `main` of `sh.c`, one after the
other. A program goes on as the answers of the kernel say. -/

namespace Xv6Container.Shell

open Containers (Call)

/-- The next system call of a process, and how it goes on after it. -/
inductive Prog where
  | fork (next : ℤ → Prog)
  | wait (next : Prog)
  /-- a call that has nothing to do with processes, and whether it succeeds -/
  | sys (next : Bool → Prog)
  /-- `exec`, and what follows if it fails -/
  | exec (next : Prog)
  | exit

/-! ### The source -/

/-- `fork1`, with what `fork` returns: the pid that it returns to its caller, unless it panics. -/
def fork1 (pid : ℤ) : Option ℤ := if pid = -1 then none else some pid

/-- A call of `fork1`. `panic` exits. -/
def afterFork1 (next : ℤ → Prog) : Prog :=
  .fork fun pid =>
    match fork1 pid with
    | none => .exit
    | some pid => next pid

/-- `runcmd`; it never returns. -/
def runcmd : Tree → Prog
  | .exec argv => if argv = [] then .exit else .exec .exit
  | .redir cmd _ _ _ => .sys fun ok => if ok then runcmd cmd else .exit
  | .list left right =>
    afterFork1 fun pid => if pid = 0 then runcmd left else .wait (runcmd right)
  | .pipe left right =>
    .sys fun ok =>
      if ok then
        afterFork1 fun pid =>
          if pid = 0 then runcmd left
          else afterFork1 fun pid => if pid = 0 then runcmd right else .wait (.wait .exit)
      else .exit
  | .back cmd => afterFork1 fun pid => if pid = 0 then runcmd cmd else .exit

/-- A line of the input: `cd`, or a command, which may have a syntax error. -/
inductive Line where
  | cd
  | cmd (tree : Option Tree)

/-- The loop of `main`. -/
def main : List Line → Prog
  | [] => .exit
  | .cd :: lines => .sys fun _ => main lines
  | .cmd tree :: lines =>
    afterFork1 fun pid =>
      if pid = 0 then
        match tree with
        | none => .exit
        | some tree => runcmd tree
      else .wait (main lines)

/-! ### Waiting for children -/

/-- The call of the kernel that a program makes next. -/
def Prog.call : Prog → Option Call
  | .fork _ => some .fork
  | .wait _ => some .wait
  | .exit => some .exit
  | _ => none

/-- How the program goes on when its call returns. -/
def Prog.resume (r : ℤ) : Prog → Prog
  | .fork next => next r
  | .wait next => next
  | prog => prog

/-- A program that has `n` children or more waits only for children it has, if `fork` returns -1 or
the pid of a new child. -/
def Prog.Sound : Prog → ℕ → Prop
  | .fork next, n => (next 0).Sound 0 ∧ (next (-1)).Sound n ∧ ∀ pid > 0, (next pid).Sound (n + 1)
  | .wait next, n => 0 < n ∧ next.Sound (n - 1)
  | .sys next, n => ∀ ok, (next ok).Sound n
  | .exec next, n => next.Sound n
  | .exit, _ => True

theorem sound_afterFork1 {next : ℤ → Prog} {n : ℕ} (hchild : (next 0).Sound 0)
    (hparent : ∀ pid > 0, (next pid).Sound (n + 1)) : (afterFork1 next).Sound n := by
  refine ⟨hchild, trivial, ?_⟩
  intro pid hpid
  have hreturns : fork1 pid = some pid := if_neg (by omega)
  simp only [hreturns]
  exact hparent pid hpid

/-- By the command. -/
theorem sound_runcmd (tree : Tree) (n : ℕ) : (runcmd tree).Sound n := by
  induction tree generalizing n with
  | exec argv =>
    rw [runcmd]
    split_ifs
    · trivial
    · trivial
  | redir cmd file mode fd ih =>
    rw [runcmd]
    intro ok
    cases ok with
    | false => trivial
    | true => exact ih n
  | pipe left right ihl ihr =>
    rw [runcmd]
    intro ok
    cases ok with
    | false => trivial
    | true =>
      refine sound_afterFork1 (ihl 0) ?_
      intro pid hpid
      rw [if_neg hpid.ne']
      refine sound_afterFork1 (ihr 0) ?_
      intro pid hpid
      rw [if_neg hpid.ne']
      exact ⟨Nat.succ_pos _, Nat.succ_pos _, trivial⟩
  | list left right ihl ihr =>
    rw [runcmd]
    refine sound_afterFork1 (ihl 0) ?_
    intro pid hpid
    rw [if_neg hpid.ne']
    exact ⟨Nat.succ_pos _, ihr _⟩
  | back cmd ih =>
    rw [runcmd]
    refine sound_afterFork1 (ih 0) ?_
    intro pid hpid
    rw [if_neg hpid.ne']
    trivial

/-- By the lines of the input. -/
theorem sound_main (lines : List Line) (n : ℕ) : (main lines).Sound n := by
  induction lines generalizing n with
  | nil => trivial
  | cons line lines ih =>
    cases line with
    | cd =>
      intro ok
      exact ih n
    | cmd tree =>
      refine sound_afterFork1 ?_ ?_
      · rw [if_pos rfl]
        cases tree with
        | none => trivial
        | some tree => exact sound_runcmd tree 0
      · intro pid hpid
        rw [if_neg hpid.ne']
        exact ⟨Nat.succ_pos _, ih _⟩

end Xv6Container.Shell
