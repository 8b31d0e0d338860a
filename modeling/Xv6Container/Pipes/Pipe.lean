import Xv6Container.Lib.Ring
import Xv6Container.Lib.Numerals

/-! A pipe (`pipe.c`) and the processes that use it. A process holds the lock of the pipe from
the start of `pipewrite` or `piperead`, or from the end of a `sleep` in them, up to the next
`sleep` or the return; such a section is one step of the system. -/

namespace Xv6Container.Pipes

abbrev PIPESIZE : ℕ := 512

abbrev Byte := BitVec 8

structure Pipe where
  data : Fin PIPESIZE → Byte
  nread : BitVec 32
  nwrite : BitVec 32
  readopen : Bool
  writeopen : Bool

namespace Pipe

/-- The pipe that `pipealloc` makes of a page; what the page held is left in `data`. -/
def pipealloc (data : Fin PIPESIZE → Byte) : Pipe := ⟨data, 0, 0, true, true⟩

def ring (p : Pipe) : Lib.Ring 32 PIPESIZE Byte := ⟨p.data, p.nread, p.nwrite⟩

def full (p : Pipe) : Bool := p.nwrite == p.nread + BitVec.ofNat 32 PIPESIZE

def empty (p : Pipe) : Bool := p.nread == p.nwrite

/-- `p->data[p->nwrite++ % PIPESIZE] = c`. -/
def store (p : Pipe) (c : Byte) : Pipe :=
  { p with
    data := Function.update p.data (Fin.ofNat PIPESIZE p.nwrite.toNat) c
    nwrite := p.nwrite + 1 }

/-- `p->data[p->nread++ % PIPESIZE]`. -/
def fetch (p : Pipe) : Byte × Pipe :=
  (p.data (Fin.ofNat PIPESIZE p.nread.toNat), { p with nread := p.nread + 1 })

/-- The loop of `pipewrite` from byte `i` on, with `k` bytes to go, up to a full pipe. -/
def writeLoop (addr : ℕ → Byte) : ℕ → ℕ → Pipe → ℕ × Pipe
  | 0, i, p => (i, p)
  | k + 1, i, p => if p.full then (i, p) else writeLoop addr k (i + 1) (p.store (addr i))

/-- The loop of `piperead` with `k` bytes to go, up to an empty pipe. -/
def readLoop : ℕ → Pipe → List Byte × Pipe
  | 0, p => ([], p)
  | k + 1, p =>
    if p.empty then ([], p)
    else
      let (l, q) := readLoop k p.fetch.2
      (p.fetch.1 :: l, q)

/-- Whether an end is open. -/
def isOpen (p : Pipe) (writable : Bool) : Bool := if writable then p.writeopen else p.readopen

/-- `pipeclose` closes an end. -/
def close (p : Pipe) (writable : Bool) : Pipe :=
  if writable then { p with writeopen := false } else { p with readopen := false }

/-- The page goes back to the allocator when both ends are closed. -/
def freed (p : Pipe) : Bool := !p.readopen && !p.writeopen

end Pipe

/-! ### The processes -/

/-- The channels `&p->nread` and `&p->nwrite`. -/
inductive Chan where
  | nread
  | nwrite
  deriving DecidableEq, Repr

/-- The call a process is in: `pipewrite` has stored the first `i` bytes. -/
inductive Call where
  | pipewrite (addr : ℕ → Byte) (n : ℤ) (i : ℕ)
  | piperead (n : ℤ)

structure Sys (ι : Type*) where
  pipe : Pipe
  call : ι → Option Call
  asleep : ι → Option Chan
  killed : ι → Bool
  ret : ι → ℤ

inductive Act (ι : Type*) where
  | pipewrite (p : ι) (addr : ℕ → Byte) (n : ℤ)
  | piperead (p : ι) (n : ℤ)
  | run (p : ι)
  | kill (p : ι)
  | pipeclose (writable : Bool)

/-- Why a step does not take place. -/
inductive Stop where
  | disabled
  | freed
  deriving DecidableEq, Repr

variable {ι : Type*} [DecidableEq ι]

namespace Sys

omit [DecidableEq ι] in
def wakeup (s : Sys ι) (c : Chan) : Sys ι :=
  { s with asleep := fun p => if s.asleep p = some c then none else s.asleep p }

/-- `p` goes on with `call` when it is woken up. -/
def sleep (s : Sys ι) (p : ι) (c : Chan) (call : Call) : Sys ι :=
  { s with
    call := Function.update s.call p (some call)
    asleep := Function.update s.asleep p (some c) }

def back (s : Sys ι) (p : ι) (r : ℤ) : Sys ι :=
  { s with call := Function.update s.call p none, ret := Function.update s.ret p r }

end Sys

/-- A section of `pipewrite`. -/
def pipewrite (s : Sys ι) (p : ι) (addr : ℕ → Byte) (n : ℤ) (i : ℕ) : Sys ι :=
  let (j, q) := s.pipe.writeLoop addr (n.toNat - i) i
  if (j : ℤ) < n then
    if !q.readopen || s.killed p then { s with pipe := q }.back p (-1)
    else ({ s with pipe := q }.wakeup .nread).sleep p .nwrite (.pipewrite addr n j)
  else ({ s with pipe := q }.wakeup .nread).back p n

/-- A section of `piperead`. -/
def piperead (s : Sys ι) (p : ι) (n : ℤ) : Sys ι :=
  if s.pipe.empty && s.pipe.writeopen then
    if s.killed p then s.back p (-1) else s.sleep p .nread (.piperead n)
  else
    let (l, q) := s.pipe.readLoop n.toNat
    ({ s with pipe := q }.wakeup .nwrite).back p l.length

omit [DecidableEq ι] in
def pipeclose (s : Sys ι) (writable : Bool) : Sys ι :=
  { s with pipe := s.pipe.close writable }.wakeup (if writable then .nread else .nwrite)

def step (s : Sys ι) (a : Act ι) : Except Stop (Sys ι) :=
  if s.pipe.freed then .error .freed
  else
    match a with
    | .pipewrite p addr n =>
      if (s.call p).isNone then
        .ok { s with call := Function.update s.call p (some (.pipewrite addr n 0)) }
      else .error .disabled
    | .piperead p n =>
      if (s.call p).isNone then .ok { s with call := Function.update s.call p (some (.piperead n)) }
      else .error .disabled
    | .run p =>
      match s.call p, s.asleep p with
      | some (.pipewrite addr n i), none => .ok (pipewrite s p addr n i)
      | some (.piperead n), none => .ok (piperead s p n)
      | _, _ => .error .disabled
    | .kill p => .ok
        { s with killed := Function.update s.killed p true, asleep := Function.update s.asleep p none }
    | .pipeclose writable => .ok (pipeclose s writable)

/-- `pipealloc` has made the pipe; nobody has used it. -/
structure Opened (s : Sys ι) : Prop where
  pipe : ∃ data, s.pipe = Pipe.pipealloc data
  call : ∀ p, s.call p = none

end Xv6Container.Pipes
