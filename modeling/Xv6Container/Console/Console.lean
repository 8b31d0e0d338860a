import Xv6Container.Lib.Ring
import Xv6Container.Lib.Trace
import Xv6Container.Lib.Numerals

/-! The input of the console (`console.c`): a circular buffer with three free-running indices. The
interrupt handler `consoleintr` types and edits behind `w`; `consoleread` takes bytes at `r`. A
process holds `cons.lock` from the start of `consoleread`, or from the end of a `sleep` in it, up
to the next `sleep` or the return; such a section is one step of the system, and so is one call of
`consoleintr`. -/

namespace Xv6Container.Console

open Lib

abbrev INPUT_BUF : ℕ := 128

abbrev Byte := BitVec 8

/-- A character as the code compares it with what is typed. -/
def chr (x : Char) : Byte := BitVec.ofNat 8 x.toNat

/-- Control-x. -/
def C (x : Char) : Byte := chr x - chr '@'

structure Input where
  buf : Fin INPUT_BUF → Byte
  r : BitVec 32
  w : BitVec 32
  e : BitVec 32

namespace Input

def start : Input := ⟨fun _ => 0, 0, 0, 0⟩

/-- `input.buf[i % INPUT_BUF]`. -/
def cell (i : Input) (k : BitVec 32) : Byte := i.buf (Ring.slot INPUT_BUF k)

/-- The loop of `C('U')`; it runs at most `e - w` times, as every pass takes `e` back. -/
def killLoop : ℕ → Input → Input
  | 0, i => i
  | k + 1, i =>
    if i.e ≠ i.w ∧ i.cell (i.e - 1) ≠ chr '\n' then killLoop k { i with e := i.e - 1 } else i

def killLine (i : Input) : Input := i.killLoop (i.e - i.w).toNat

def backspace (i : Input) : Input := if i.e ≠ i.w then { i with e := i.e - 1 } else i

/-- `input.buf[input.e++ % INPUT_BUF] = c`. -/
def store (i : Input) (c : Byte) : Input :=
  { i with buf := Function.update i.buf (Ring.slot INPUT_BUF i.e) c, e := i.e + 1 }

/-- The end of the default case: whether what has been typed is given to the readers. -/
def commit (i : Input) (c : Byte) : Input × Bool :=
  if c = chr '\n' ∨ c = C 'D' ∨ i.e = i.r + BitVec.ofNat 32 INPUT_BUF then
    ({ i with w := i.e }, true)
  else (i, false)

/-- One pass of the loop of `consoleintr`, and whether it calls `wakeup`. -/
def type (i : Input) (c : Byte) : Input × Bool :=
  if c = C 'P' then (i, false)
  else if c = C 'U' then (i.killLine, false)
  else if c = C 'H' ∨ c = 0x7f then (i.backspace, false)
  else if c ≠ 0 ∧ i.e - i.r < BitVec.ofNat 32 INPUT_BUF then
    let c := if c = chr '\r' then chr '\n' else c
    (i.store c).commit c
  else (i, false)

def consoleintr (i : Input) : List Byte → Input × Bool
  | [] => (i, false)
  | c :: cs =>
    let (j, woken) := i.type c
    let (k, woken') := j.consoleintr cs
    (k, woken || woken')

/-- How a section of `consoleread` ends; `n` is what is left to read then. -/
inductive Exit where
  | asleep (n : ℕ)
  | killed
  | done (n : ℕ)
  deriving DecidableEq, Repr

/-- The loop of `consoleread`, up to a `sleep` or the end: what it has put at `dst`, and how it
ends. -/
def readLoop (killed : Bool) (target : ℕ) : ℕ → Input → List Byte × Exit × Input
  | 0, i => ([], .done 0, i)
  | n + 1, i =>
    if i.r = i.w then ([], if killed then .killed else .asleep (n + 1), i)
    else
      let c := i.cell i.r
      let i := { i with r := i.r + 1 }
      if c = C 'D' then
        -- a ^D behind other bytes is kept for the next call
        ([], .done (n + 1), if n + 1 < target then { i with r := i.r - 1 } else i)
      else if c = chr '\n' then ([c], .done n, i)
      else
        let (l, x, j) := readLoop killed target n i
        (c :: l, x, j)

end Input

/-! ### The processes -/

/-- A call of `consoleread`: `target` bytes are asked for, `n` are left, and `dst` has been stored. -/
structure Call where
  target : ℤ
  n : ℕ
  dst : List Byte

structure Sys (ι : Type*) where
  input : Input
  call : ι → Option Call
  asleep : ι → Bool
  killed : ι → Bool

inductive Act (ι : Type*) where
  | intr (cs : List Byte)
  | consoleread (p : ι) (n : ℤ)
  | run (p : ι)
  | kill (p : ι)

inductive Stop where
  | disabled
  deriving DecidableEq, Repr

variable {ι : Type*} [DecidableEq ι]

/-- A section of `consoleread`. -/
def consoleread (s : Sys ι) (p : ι) (c : Call) : Sys ι :=
  let (l, x, i) := s.input.readLoop (s.killed p) c.target.toNat c.n
  match x with
  | .asleep n => { s with
      input := i
      call := Function.update s.call p (some ⟨c.target, n, c.dst ++ l⟩)
      asleep := Function.update s.asleep p true }
  | .killed | .done _ => { s with input := i, call := Function.update s.call p none }

def step (s : Sys ι) : Act ι → Except Stop (Sys ι)
  | .intr cs =>
    let (i, woken) := s.input.consoleintr cs
    .ok { s with input := i, asleep := fun p => s.asleep p && !woken }
  | .consoleread p n =>
    match s.call p with
    | none => .ok { s with call := Function.update s.call p (some ⟨n, n.toNat, []⟩) }
    | some _ => .error .disabled
  | .run p =>
    match s.call p, s.asleep p with
    | some c, false => .ok (consoleread s p c)
    | _, _ => .error .disabled
  | .kill p => .ok
      { s with killed := Function.update s.killed p true, asleep := Function.update s.asleep p false }

/-- Nothing has been typed and nobody reads. -/
structure Start (s : Sys ι) : Prop where
  input : s.input = .start
  call : ∀ p, s.call p = none

/-! ### What is seen of a run -/

/-- What a call of `consoleread` comes to. -/
inductive Result where
  | killed
  | returned (r : ℤ) (dst : List Byte)
  deriving DecidableEq, Repr

/-- A section of `p` takes `bytes` out of the buffer, and its call may end. -/
inductive Event (ι : Type*) where
  | typed (cs : List Byte)
  | called (p : ι) (n : ℤ)
  | took (p : ι) (n : ℤ) (bytes : List Byte) (res : Option Result)

/-- The bytes that `r` passes from `i` to `j`. -/
def passed (i j : Input) : List Byte := (⟨i.buf, i.r, j.r⟩ : Ring 32 INPUT_BUF Byte).contents

/-- `return target - n`, where a negative `target` is left as it is. -/
def Input.Exit.result (target : ℤ) (dst : List Byte) : Input.Exit → Option Result
  | .asleep _ => none
  | .killed => some .killed
  | .done n => some (.returned (target.toNat - n) dst)

omit [DecidableEq ι] in
def seen (s : Sys ι) : Act ι → Option (Event ι)
  | .intr cs => some (.typed cs)
  | .consoleread p n => some (.called p n)
  | .run p =>
    match s.call p with
    | some c =>
      let (l, x, i) := s.input.readLoop (s.killed p) c.target.toNat c.n
      some (.took p c.target (passed s.input i) (x.result c.target (c.dst ++ l)))
    | none => none
  | .kill _ => none

end Xv6Container.Console
