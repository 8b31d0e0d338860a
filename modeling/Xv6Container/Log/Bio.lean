import Mathlib.Logic.Function.Basic
import Xv6Container.Log.Header

/-! The buffer cache of `bio.c` over the disk of `ide.c`. One block write reaches the disk
at a time and in the order of the calls; the power may fail before any of them. The cache
is used by one process at a time here, so a lock is only taken or free. -/

namespace Xv6Container.Log

abbrev NBUF : ℕ := MAXOPBLOCKS * 3
abbrev FSSIZE : ℕ := 1000
abbrev ROOTDEV : UInt32 := 1

/-- `BSIZE` bytes, as the words of the header. -/
abbrev Block := Fin 128 → UInt32

abbrev Disk := BlockNo → Block

abbrev BufId := Fin NBUF

structure Buf where
  dev : UInt32
  blockno : BlockNo
  valid : Bool
  dirty : Bool
  locked : Bool
  refcnt : ℕ
  data : Block

/-- The disk, the buffers with their list from `head.next` on, and the header of the log
in memory. `power` is the number of block writes after which the power fails. -/
structure Kernel where
  disk : Disk
  buf : BufId → Buf
  order : List BufId
  lh : List BlockNo
  power : Option ℕ

abbrev Run := EStateM Stop Kernel

namespace Kernel

def setBuf (k : Kernel) (i : BufId) (f : Buf → Buf) : Kernel :=
  { k with buf := Function.update k.buf i (f (k.buf i)) }

/-- The first loop of `bget`. -/
def cached (k : Kernel) (dev : UInt32) (blockno : BlockNo) : Option BufId :=
  k.order.find? fun i => (k.buf i).dev == dev && (k.buf i).blockno == blockno

/-- The second loop of `bget`, from `head.prev` on. -/
def unused (k : Kernel) : Option BufId :=
  k.order.reverse.find? fun i => (k.buf i).refcnt == 0 && !(k.buf i).dirty

end Kernel

def setBuf (i : BufId) (f : Buf → Buf) : Run Unit := modify (·.setBuf i f)

def acquiresleep (i : BufId) : Run Unit := do
  if ((← get).buf i).locked then throw .blocked
  else setBuf i fun b => { b with locked := true }

def bget (dev : UInt32) (blockno : BlockNo) : Run BufId := do
  let k ← get
  match k.cached dev blockno with
  | some i =>
    setBuf i fun b => { b with refcnt := b.refcnt + 1 }
    acquiresleep i
    return i
  | none =>
    match k.unused with
    | some i =>
      setBuf i fun b => { b with
        dev := dev, blockno := blockno, valid := false, dirty := false, refcnt := 1 }
      acquiresleep i
      return i
    | none => throw (.panic "bget: no buffers")

/-- One block write of the disk. -/
def writeBlock (b : BlockNo) (x : Block) : Run Unit := do
  let k ← get
  match k.power with
  | none => set { k with disk := Function.update k.disk b x }
  | some 0 => throw .powerFail
  | some (n + 1) => set { k with disk := Function.update k.disk b x, power := some n }

/-- `iderw` with `idestart` and `ideintr`, on the disk of the file system. -/
def iderw (i : BufId) : Run Unit := do
  let k ← get
  let b := k.buf i
  if b.locked = false then throw (.panic "iderw: buf not locked")
  else if b.valid = true ∧ b.dirty = false then throw (.panic "iderw: nothing to do")
  else if b.blockno.toNat ≥ FSSIZE then throw (.panic "incorrect blockno")
  else if b.dirty then
    writeBlock b.blockno b.data
    setBuf i fun b => { b with valid := true, dirty := false }
  else setBuf i fun b => { b with data := k.disk b.blockno, valid := true, dirty := false }

def bread (dev : UInt32) (blockno : BlockNo) : Run BufId := do
  let i ← bget dev blockno
  if ((← get).buf i).valid then return i
  else
    iderw i
    return i

def bwrite (i : BufId) : Run Unit := do
  if ((← get).buf i).locked = false then throw (.panic "bwrite")
  else
    setBuf i fun b => { b with dirty := true }
    iderw i

def brelse (i : BufId) : Run Unit := do
  if ((← get).buf i).locked = false then throw (.panic "brelse")
  else
    setBuf i fun b => { b with locked := false, refcnt := b.refcnt - 1 }
    modify fun k =>
      if (k.buf i).refcnt = 0 then { k with order := i :: k.order.erase i } else k

/-- The caller changes the contents of a buffer it holds. -/
def setData (i : BufId) (x : Block) : Run Unit := setBuf i fun b => { b with data := x }

end Xv6Container.Log
