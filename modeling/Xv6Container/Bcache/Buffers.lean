import Xv6Container.Lib.Doubly
import Xv6Container.Lib.Reach
import Xv6Container.Log.Log

/-! The buffer cache of `bio.c` with its linked list, over the disk of `memide.c`, and the calls of
`log.c` that use it. Any number of processes work on the cache; what one does under `bcache.lock`, or
with a sleep lock that it holds, is one step, and other steps may come between. A commit takes the
same steps as everyone else. -/

namespace Xv6Container.Bcache

open Function Lib
open Log (BlockNo Block Disk BufId Buf NBUF ROOTDEV LOGSIZE MAXOPBLOCKS Stop putHead)

/-- What does not change after the boot: `disksize`, `log.start` and `log.size`. -/
structure Config where
  disksize : ℕ
  start : BlockNo
  size : ℤ

/-- A process between `bget` and the lock of its buffer: the buffer, and the block that it asked
for. -/
abbrev Waiter := BufId × UInt32 × BlockNo

structure State where
  disk : Disk
  buf : BufId → Buf
  /-- `prev` and `next`; the head of the list is `none`. -/
  links : Doubly (Option BufId)
  /-- `log.lh` and `log.outstanding`. -/
  lh : List BlockNo
  outstanding : ℕ
  waiting : List Waiter
  /-- The buffers of processes that have given the lock back in `brelse` but not the reference. -/
  leaving : List BufId
  /-- The contents last written to each block, by `log_write` or `bwrite`. -/
  written : Disk

abbrev Run := EStateM Stop State

def setBuf (i : BufId) (f : Buf → Buf) : Run Unit :=
  modify fun s => { s with buf := update s.buf i (f (s.buf i)) }

/-! ### bio.c -/

def bufs : List BufId := List.finRange NBUF

/-- The loop of `binit`. -/
def binit : Doubly (Option BufId) :=
  bufs.foldl (fun r i => r.pushFront none (some i)) ⟨fun _ => none, fun _ => none⟩

/-- A loop over the list along `f`, from the head to the first buffer that passes the test. Without
a result it does not end. -/
def find (f : Option BufId → Option BufId) (p : BufId → Bool) : Option (Option BufId) :=
  (Doubly.search f none (fun x => x.elim false p) (NBUF + 1) (f none)).map Option.join

/-- `bget` up to the sleep lock. -/
def bget (dev : UInt32) (blockno : BlockNo) : Run BufId := do
  let s ← get
  match find s.links.next fun i => (s.buf i).dev == dev && (s.buf i).blockno == blockno with
  | none => throw .blocked
  | some (some i) =>
    setBuf i fun b => { b with refcnt := b.refcnt + 1 }
    modify fun s => { s with waiting := (i, dev, blockno) :: s.waiting }
    return i
  | some none =>
    match find s.links.prev fun i => (s.buf i).refcnt == 0 && !(s.buf i).dirty with
    | none => throw .blocked
    | some (some i) =>
      setBuf i fun b => { b with
        dev := dev, blockno := blockno, valid := false, dirty := false, refcnt := 1 }
      modify fun s => { s with waiting := (i, dev, blockno) :: s.waiting }
      return i
    | some none => throw (.panic "bget: no buffers")

variable (c : Config)

/-- `iderw` of `memide.c`. -/
def iderw (i : BufId) : Run Unit := do
  let s ← get
  let b := s.buf i
  if b.locked = false then throw (.panic "iderw: buf not locked")
  else if b.valid = true ∧ b.dirty = false then throw (.panic "iderw: nothing to do")
  else if b.dev ≠ 1 then throw (.panic "iderw: request not for disk 1")
  else if b.blockno.toNat ≥ c.disksize then throw (.panic "iderw: block out of range")
  else if b.dirty then
    set { s with disk := update s.disk b.blockno b.data }
    setBuf i fun b => { b with dirty := false, valid := true }
  else setBuf i fun b => { b with data := s.disk b.blockno, valid := true }

/-- The rest of `bget`, and `bread`: the lock, and the contents if they are not there. -/
def enter (w : Waiter) : Run Unit := do
  if ((← get).buf w.1).locked then throw .blocked
  else
    setBuf w.1 fun b => { b with locked := true }
    modify fun s => { s with waiting := s.waiting.erase w }
    if ((← get).buf w.1).valid = false then iderw c w.1

def bread (dev : UInt32) (blockno : BlockNo) : Run BufId := do
  let i ← bget dev blockno
  enter c (i, dev, blockno)
  return i

/-- The contents of a buffer count as written. -/
def record (i : BufId) : Run Unit :=
  modify fun s => { s with written := update s.written (s.buf i).blockno (s.buf i).data }

def bwrite (i : BufId) : Run Unit := do
  if ((← get).buf i).locked = false then throw (.panic "bwrite")
  else
    setBuf i fun b => { b with dirty := true }
    iderw c i
    record i

/-- `brelse` up to `releasesleep`. -/
def release (i : BufId) : Run Unit := do
  if ((← get).buf i).locked = false then throw (.panic "brelse")
  else
    setBuf i fun b => { b with locked := false }
    modify fun s => { s with leaving := i :: s.leaving }

/-- The rest of `brelse`. -/
def put (i : BufId) : Run Unit := do
  setBuf i fun b => { b with refcnt := b.refcnt - 1 }
  modify fun s => { s with leaving := s.leaving.erase i }
  if ((← get).buf i).refcnt = 0 then
    modify fun s => { s with links := (s.links.unlink (some i)).pushFront none (some i) }

def brelse (i : BufId) : Run Unit := do
  release i
  put i

/-- The caller changes the contents of a buffer that it holds. -/
def setData (i : BufId) (x : Block) : Run Unit := setBuf i fun b => { b with data := x }

/-! ### log.c -/

/-- `log_write(b)` -/
def logWrite (i : BufId) : Run Unit := do
  let s ← get
  let b := (s.buf i).blockno
  if s.lh.length ≥ LOGSIZE ∨ (s.lh.length : ℤ) ≥ c.size - 1 then
    throw (.panic "too big a transaction")
  else if s.outstanding < 1 then throw (.panic "log_write outside of trans")
  else
    set { s with lh := if b ∈ s.lh then s.lh else s.lh ++ [b] }
    setBuf i fun b => { b with dirty := true }
    record i

/-- `log.start+tail+1` -/
def Config.slot (tail : ℕ) : BlockNo := c.start + .ofNat tail + 1

/-- The body of the loop in `write_log`. -/
def logOne (tail : ℕ) : Run Unit := do
  let tbuf ← bread c ROOTDEV (c.slot tail)
  let fbuf ← bread c ROOTDEV ((← get).lh.getD tail 0)
  setData tbuf ((← get).buf fbuf).data
  bwrite c tbuf
  brelse fbuf
  brelse tbuf

/-- The body of the loop in `install_trans`. -/
def installBlock (tail : ℕ) : Run Unit := do
  let lbuf ← bread c ROOTDEV (c.slot tail)
  let dbuf ← bread c ROOTDEV ((← get).lh.getD tail 0)
  setData dbuf ((← get).buf lbuf).data
  bwrite c dbuf
  brelse lbuf
  brelse dbuf

def writeLog : Run Unit := do
  (List.range (← get).lh.length).forM (logOne c)

def installTrans : Run Unit := do
  (List.range (← get).lh.length).forM (installBlock c)

def writeHead : Run Unit := do
  let i ← bread c ROOTDEV c.start
  setData i (putHead ((← get).buf i).data (← get).lh)
  bwrite c i
  brelse i

/-- `log.lh.n = 0` -/
def clear : Run Unit := modify fun s => { s with lh := [] }

def commit : Run Unit := do
  if (← get).lh.length > 0 then
    writeLog c
    writeHead c
    installTrans c
    clear
    writeHead c

/-- `begin_op`, when it does not sleep. -/
def beginOp : Run Unit := do
  let s ← get
  if s.lh.length + (s.outstanding + 1) * MAXOPBLOCKS > LOGSIZE then throw .blocked
  else set { s with outstanding := s.outstanding + 1 }

/-- `end_op` up to the commit. -/
def leaveOp : Run Unit := modify fun s => { s with outstanding := s.outstanding - 1 }

/-- `end_op`, with the commit in one piece. -/
def endOp : Run Unit := do
  leaveOp
  if (← get).outstanding = 0 then commit c

/-! ### Processes -/

inductive Act
  | bget (dev : UInt32) (blockno : BlockNo)
  | enter (w : Waiter)
  | setData (i : BufId) (x : Block)
  | logWrite (i : BufId)
  | bwrite (i : BufId)
  | release (i : BufId)
  | put (i : BufId)
  | beginOp
  | leaveOp
  | clear

def call : Act → Run Unit
  | .bget dev blockno => do let _ ← bget dev blockno
  | .enter w => enter c w
  | .setData i x => setData i x
  | .logWrite i => logWrite c i
  | .bwrite i => bwrite c i
  | .release i => release i
  | .put i => put i
  | .beginOp => beginOp
  | .leaveOp => leaveOp
  | .clear => clear

def step (s : State) (a : Act) : Except Stop State :=
  match call c a s with
  | .ok _ t => .ok t
  | .error e _ => .error e

/-- What the callers keep to: a process goes on where it is, works on a buffer while it holds it, and
gives it back after it has written what it changed. -/
def Allowed (s : State) : Act → Prop
  | .bget _ _ | .beginOp => True
  | .enter w => w ∈ s.waiting
  | .setData i _ | .logWrite i | .bwrite i => (s.buf i).locked = true
  | .release i =>
    (s.buf i).locked = true ∧ (s.buf i).data = s.written (s.buf i).blockno
  | .put i => i ∈ s.leaving
  | .leaveOp => 0 < s.outstanding
  | .clear => s.outstanding = 0

/-- After `binit`, on any disk. -/
def Booted (s : State) : Prop :=
  s.links = binit ∧ s.lh = [] ∧ s.outstanding = 0 ∧ s.waiting = [] ∧ s.leaving = [] ∧
    s.written = s.disk ∧ ∀ i, (s.buf i).dev = 0 ∧ (s.buf i).valid = false ∧
      (s.buf i).dirty = false ∧ (s.buf i).locked = false ∧ (s.buf i).refcnt = 0

end Xv6Container.Bcache
