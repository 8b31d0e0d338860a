import Mathlib.Data.Fintype.Basic
import Xv6Container.Lib.Monitor
import Xv6Container.Lib.Path
import Xv6Container.Log.Bio

/-! The disk driver of `ide.c` and the controller behind its ports. Requests wait in a queue, and the
first one is at the controller; the interrupt handler finishes it and starts the next one. `iderw` and
`ideintr` run their sections in a monitor with the lock `idelock`, and an interrupt may come at any
time, also when the controller is not yet done.

The controller carries out a command some time between the write to its command port and the end of
the next `idewait`. As nothing but the driver looks at the drives, here it does so in `idewait`. -/

namespace Xv6Container.Ide

open Lib Monitor
open Log (Block BlockNo BufId Buf NBUF FSSIZE)

abbrev BSIZE : ℕ := 512
abbrev SECTOR_SIZE : ℕ := 512

def IDE_CMD_READ : UInt8 := 0x20
def IDE_CMD_WRITE : UInt8 := 0x30
def IDE_CMD_RDMUL : UInt8 := 0xc4
def IDE_CMD_WRMUL : UInt8 := 0xc5

/-! ### The controller -/

/-- The two drives, by the bit that selects them. -/
abbrev Drives := Bool → Log.Disk

def Drives.write (d : Drives) (drive : Bool) (b : BlockNo) (x : Block) : Drives :=
  Function.update d drive (Function.update (d drive) b x)

/-- The ports 0x1f2 to 0x1f6, the command under way, the sector behind port 0x1f0 and the error bits of
the status. `fails` are the commands, by their number, that end with an error. -/
structure Controller where
  nsector : UInt8
  lba0 : UInt8
  lba1 : UInt8
  lba2 : UInt8
  head : UInt8
  command : Option UInt8
  sector : Block
  error : Bool
  drives : Drives
  fails : ℕ → Bool
  ncommand : ℕ

namespace Controller

def outb (c : Controller) (port : ℕ) (v : UInt8) : Controller :=
  match port with
  | 0x1f2 => { c with nsector := v }
  | 0x1f3 => { c with lba0 := v }
  | 0x1f4 => { c with lba1 := v }
  | 0x1f5 => { c with lba2 := v }
  | 0x1f6 => { c with head := v }
  | 0x1f7 => { c with command := some v }
  | _ => c

/-- `outsl(0x1f0, ...)` -/
def outsl (c : Controller) (data : Block) : Controller := { c with sector := data }

/-- The number of the sector in the address ports. -/
def address (c : Controller) : BlockNo :=
  .ofNat (c.lba0.toNat + 2 ^ 8 * c.lba1.toNat + 2 ^ 16 * c.lba2.toNat + 2 ^ 24 * (c.head.toNat % 16))

/-- The drive that bit 4 of port 0x1f6 selects. -/
def drive (c : Controller) : Bool := c.head.toNat / 16 % 2 = 1

/-- The end of a command. -/
def finish (c : Controller) : Controller :=
  match c.command with
  | none => c
  | some cmd =>
    let error := c.fails c.ncommand
    { c with
      command := none
      error := error
      ncommand := c.ncommand + 1
      sector := if cmd = IDE_CMD_READ ∧ !error then c.drives c.drive c.address else c.sector
      drives := if cmd = IDE_CMD_WRITE ∧ !error then c.drives.write c.drive c.address c.sector
        else c.drives }

/-- `idewait`: the loop ends when the controller is done. -/
def idewait (c : Controller) (checkerr : Bool) : ℤ × Controller :=
  let c := c.finish
  (if checkerr && c.error then -1 else 0, c)

end Controller

/-! ### The driver -/

/-- `b->dev&1` -/
def drive (x : Buf) : Bool := x.dev &&& 1 = 1

/-- What the driver works on, under `idelock`. -/
structure Driver where
  idequeue : Option BufId
  qnext : BufId → Option BufId
  buf : BufId → Buf
  ctl : Controller
  havedisk1 : Bool

namespace Driver

def setBuf (d : Driver) (b : BufId) (x : Buf) : Driver :=
  { d with buf := Function.update d.buf b x }

/-- `idestart`; there is no result when it panics. -/
def idestart (d : Driver) : Option BufId → Option Driver
  | none => none
  | some b =>
    let x := d.buf b
    let sectorPerBlock := BSIZE / SECTOR_SIZE
    let sector := x.blockno * .ofNat sectorPerBlock
    let readCmd := if sectorPerBlock = 1 then IDE_CMD_READ else IDE_CMD_RDMUL
    let writeCmd := if sectorPerBlock = 1 then IDE_CMD_WRITE else IDE_CMD_WRMUL
    if x.blockno.toNat ≥ FSSIZE ∨ sectorPerBlock > 7 then none
    else
      let c := (d.ctl.idewait false).2
      let c := c.outb 0x3f6 0
      let c := c.outb 0x1f2 (.ofNat sectorPerBlock)
      let c := c.outb 0x1f3 (sector &&& 0xff).toUInt8
      let c := c.outb 0x1f4 (sector >>> 8 &&& 0xff).toUInt8
      let c := c.outb 0x1f5 (sector >>> 16 &&& 0xff).toUInt8
      let c := c.outb 0x1f6 ((0xe0 : UInt32) ||| (x.dev &&& 1) <<< 4 ||| (sector >>> 24 &&& 0x0f)).toUInt8
      some { d with
        ctl := if x.dirty then (c.outb 0x1f7 writeCmd).outsl x.data else c.outb 0x1f7 readCmd }

/-- The part of `ideintr` before the wakeup: the first request leaves the queue and is done. -/
def complete (d : Driver) (b : BufId) : Driver :=
  let d := { d with idequeue := d.qnext b }
  let x := d.buf b
  if x.dirty then d.setBuf b { x with valid := true, dirty := false }
  else
    let (r, c) := d.ctl.idewait true
    { d.setBuf b { x with
        data := if r ≥ 0 then c.sector else x.data, valid := true, dirty := false } with ctl := c }

/-- The last buffer of the queue, from `a` on. A queue that goes on after `fuel` buffers is a cycle, and
the loop of `iderw` does not end. -/
def last (d : Driver) : ℕ → BufId → Option BufId
  | 0, _ => none
  | fuel + 1, a =>
    match d.qnext a with
    | none => some a
    | some b => d.last fuel b

/-- The loop of `iderw` that appends to the queue. -/
def append (d : Driver) (b : BufId) : Option Driver :=
  let d := { d with qnext := Function.update d.qnext b none }
  match d.idequeue with
  | none => some { d with idequeue := some b }
  | some a => (d.last NBUF a).map fun z => { d with qnext := Function.update d.qnext z (some b) }

end Driver

/-! ### Sections -/

/-- `(b->flags & (B_VALID|B_DIRTY)) == B_VALID` -/
def isDone (x : Buf) : Bool := x.valid && !x.dirty

/-- Where a call goes on: `iderw` with a buffer as its caller has left it, after a sleep, or the
handler. -/
inductive Frame where
  | iderw (b : BufId) (x : Buf)
  | wait (b : BufId)
  | ideintr

/-- The buffer with which `iderw` returns. -/
abbrev Result := Option (BufId × Buf)

abbrev Sec := Section Driver BufId Frame Result

/-- The loop that ends `iderw`. -/
def waitDone (d : Driver) (b : BufId) : Sec :=
  if isDone (d.buf b) then ⟨d, none, .back (some (b, d.buf b))⟩ else ⟨d, none, .sleep b (.wait b)⟩

/-- `iderw` up to its first sleep; there is no result when it panics. -/
def iderw (d : Driver) (b : BufId) (x : Buf) : Option Sec :=
  let d := d.setBuf b x
  if x.locked = false ∨ isDone x = true ∨ x.dev ≠ 0 ∧ d.havedisk1 = false then none
  else do
    let d ← d.append b
    let d ← if d.idequeue = some b then d.idestart (some b) else some d
    return waitDone d b

/-- The handler. It wakes the process up before it starts the next request, but holds the lock until it
has done both. -/
def ideintr (d : Driver) : Option Sec :=
  match d.idequeue with
  | none => some ⟨d, none, .back none⟩
  | some b => do
    let d := d.complete b
    let d ← if d.idequeue = none then some d else d.idestart d.idequeue
    return ⟨d, some b, .back none⟩

variable {ι : Type*}

def body (_ : Bool) (_ : ι) (d : Driver) : Frame → Option Sec
  | .iderw b x => iderw d b x
  | .wait b => some (waitDone d b)
  | .ideintr => ideintr d

abbrev St (ι : Type*) := State ι Driver BufId Frame Result

/-- The buffer that a call is about. -/
def subject : Frame ⊕ Result → Option BufId
  | .inl (.iderw b _) | .inl (.wait b) => some b
  | .inl .ideintr => none
  | .inr r => r.map Prod.fst

/-- Who calls `iderw` holds the lock of the buffer, so nobody else works on it. -/
def Allowed (s : St ι) : Lib.Monitor.Act ι Frame → Prop
  | .call _ (.iderw b _) => ∀ q, (s.place q).bind subject ≠ some b
  | .call _ (.wait _) => False
  | _ => True

instance [Fintype ι] (s : St ι) (a : Lib.Monitor.Act ι Frame) : Decidable (Allowed s a) :=
  match a with
  | .call _ (.iderw b _) => inferInstanceAs (Decidable (∀ q, (s.place q).bind subject ≠ some b))
  | .call _ (.wait _) => .isFalse id
  | .call _ .ideintr | .enter _ | .wakeup _ | .leave _ | .hand _ | .commit _ | .doze _ | .resume _
  | .kill _ => .isTrue trivial

/-- The queue is empty and the controller has nothing to do. -/
structure Start (s : St ι) : Prop extends Fresh s where
  queue : s.data.idequeue = none
  idle : s.data.ctl.command = none

end Xv6Container.Ide
