import Mathlib.Data.Fin.Basic
import Mathlib.Logic.Function.Basic
import Xv6Container.Fs.Path
import Xv6Container.Lib.Triple
import Mathlib.Algebra.Ring.Nat
import Xv6Container.Lib.Numerals

/-! The block and inode layers of `fs.c` on one disk. The disk is seen through the log and
the buffer cache: a block is what the last `log_write` put there. The inode blocks and the
bitmap have a place of their own, so a block number in an inode that is not in the data area
stops the run, and the ownership results say that this does not happen. -/

namespace Xv6Container.Fs

open Lib

/-! ### Data -/

abbrev BSIZE : ℕ := 512
abbrev NDIRECT : ℕ := 12
abbrev NINDIRECT : ℕ := BSIZE / 4
abbrev MAXFILE : ℕ := NDIRECT + NINDIRECT
abbrev BPB : ℕ := BSIZE * 8
abbrev FSSIZE : ℕ := 1000
abbrev NINODES : ℕ := 200
abbrev NINODE : ℕ := 50
abbrev NDEV : ℕ := 10
abbrev CONSOLE : ℤ := 1

/-- The blocks before the data area, as `mkfs` lays them out: boot block, super block, log,
inodes and bitmap. -/
abbrev nmeta : ℕ := 2 + 30 + (NINODES / 8 + 1) + (FSSIZE / BPB + 1)

/-- `type` of an inode: 0, `T_DIR`, `T_FILE`, `T_DEV`. -/
inductive FileType where
  | free | dir | file | dev
  deriving DecidableEq, Repr

abbrev Inum := Fin NINODES

/-- An index into `addrs`; the last one is the indirect block. -/
abbrev AddrIdx := Fin (NDIRECT + 1)

structure Dinode where
  type : FileType
  major : ℤ
  minor : ℤ
  nlink : ℤ
  size : ℕ
  addrs : AddrIdx → ℕ

def Dinode.setAddr (d : Dinode) (k : AddrIdx) (b : ℕ) : Dinode :=
  { d with addrs := Function.update d.addrs k b }

abbrev Block := Fin BSIZE → UInt8

structure Disk where
  inode : Inum → Dinode
  /-- The bits of the bitmap block. -/
  used : ℕ → Bool
  data : ℕ → Block

/-- An entry of `icache.inode`; `copy` are the fields that `ilock` reads from the disk. -/
structure Inode where
  inum : Inum
  ref : ℤ
  valid : Bool
  copy : Dinode

abbrev Entry := Fin NINODE

structure FsState where
  disk : Disk
  cache : Entry → Inode

abbrev Run := EStateM Stop FsState

namespace FsState

def setUsed (s : FsState) (b : ℕ) (u : Bool) : FsState :=
  { s with disk := { s.disk with used := Function.update s.disk.used b u } }

def setData (s : FsState) (b : ℕ) (a : Block) : FsState :=
  { s with disk := { s.disk with data := Function.update s.disk.data b a } }

def setDinode (s : FsState) (i : Inum) (d : Dinode) : FsState :=
  { s with disk := { s.disk with inode := Function.update s.disk.inode i d } }

def setInode (s : FsState) (e : Entry) (ip : Inode) : FsState :=
  { s with cache := Function.update s.cache e ip }

def setCopy (s : FsState) (e : Entry) (d : Dinode) : FsState :=
  s.setInode e { s.cache e with copy := d }

section Updates

variable (s : FsState) (b : ℕ) (u : Bool) (a : Block) (i : Inum) (d : Dinode) (e : Entry) (ip : Inode)

@[simp] theorem setUsed_inode : (s.setUsed b u).disk.inode = s.disk.inode := rfl
@[simp] theorem setUsed_used : (s.setUsed b u).disk.used = Function.update s.disk.used b u := rfl
@[simp] theorem setUsed_data : (s.setUsed b u).disk.data = s.disk.data := rfl
@[simp] theorem setUsed_cache : (s.setUsed b u).cache = s.cache := rfl

@[simp] theorem setData_inode : (s.setData b a).disk.inode = s.disk.inode := rfl
@[simp] theorem setData_used : (s.setData b a).disk.used = s.disk.used := rfl
@[simp] theorem setData_data : (s.setData b a).disk.data = Function.update s.disk.data b a := rfl
@[simp] theorem setData_cache : (s.setData b a).cache = s.cache := rfl

@[simp] theorem setDinode_inode :
    (s.setDinode i d).disk.inode = Function.update s.disk.inode i d := rfl
@[simp] theorem setDinode_used : (s.setDinode i d).disk.used = s.disk.used := rfl
@[simp] theorem setDinode_data : (s.setDinode i d).disk.data = s.disk.data := rfl
@[simp] theorem setDinode_cache : (s.setDinode i d).cache = s.cache := rfl

@[simp] theorem setInode_disk : (s.setInode e ip).disk = s.disk := rfl
@[simp] theorem setInode_self : (s.setInode e ip).cache e = ip := Function.update_self _ _ _

theorem setInode_of_ne {e' : Entry} (h : e' ≠ e) : (s.setInode e ip).cache e' = s.cache e' :=
  Function.update_of_ne h _ _

@[simp] theorem setCopy_disk : (s.setCopy e d).disk = s.disk := rfl
@[simp] theorem setCopy_self : (s.setCopy e d).cache e = { s.cache e with copy := d } :=
  Function.update_self _ _ _

end Updates

end FsState

/-! ### Blocks -/

/-- The `k`-th byte of the word `((uint*)data)[j]`. -/
def wordByte (j : Fin NINDIRECT) (k : Fin 4) : Fin BSIZE :=
  ⟨4 * j + k, by change 4 * j.val + k.val < 512; have : j.val < 128 := j.isLt; omega⟩

def getUint (a : Block) (j : Fin NINDIRECT) : ℕ :=
  (a (wordByte j 0)).toNat + 256 * (a (wordByte j 1)).toNat +
    65536 * (a (wordByte j 2)).toNat + 16777216 * (a (wordByte j 3)).toNat

def putUint (a : Block) (j : Fin NINDIRECT) (x : ℕ) : Block := fun o =>
  if o.val / 4 = j then .ofNat (x / 256 ^ (o.val % 4)) else a o

def DataBlock (b : ℕ) : Prop := nmeta ≤ b ∧ b < FSSIZE

instance (b : ℕ) : Decidable (DataBlock b) := inferInstanceAs (Decidable (nmeta ≤ b ∧ b < FSSIZE))

def bread (b : ℕ) : Run Block := do
  if DataBlock b then return (← get).disk.data b else throw .outOfBounds

/-- A change to the buffer of block `b`, and `log_write`. -/
def logWrite (b : ℕ) (a : Block) : Run Unit := do
  if DataBlock b then modify fun s => s.setData b a else throw .outOfBounds

def bzero (b : ℕ) : Run Unit := logWrite b fun _ => 0

def balloc : Run ℕ := do
  let used := (← get).disk.used
  match (List.range FSSIZE).find? fun b => !used b with
  | some b =>
    modify fun s => s.setUsed b true
    bzero b
    return b
  | none => throw (.panic "balloc: out of blocks")

def bfree (b : ℕ) : Run Unit := do
  let used := (← get).disk.used
  if b ≥ BPB then throw .outOfBounds
  else if used b = false then throw (.panic "freeing free block")
  else modify fun s => s.setUsed b false

/-! ### The content of inodes -/

def setCopy (e : Entry) (f : Dinode → Dinode) : Run Unit :=
  modify fun s => s.setCopy e (f (s.cache e).copy)

def setAddr (e : Entry) (k : AddrIdx) (b : ℕ) : Run Unit :=
  setCopy e fun d => d.setAddr k b

def iupdate (e : Entry) : Run Unit :=
  modify fun s => s.setDinode (s.cache e).inum (s.cache e).copy

/-- The index of a direct block. -/
def direct (k : Fin NDIRECT) : AddrIdx := k.castSucc

/-- `ip->addrs[NDIRECT]`. -/
abbrev indirect : AddrIdx := Fin.last NDIRECT

/-- The block `ip->addrs[k]`, allocated when there is none. -/
def addrBlock (e : Entry) (k : AddrIdx) : Run ℕ := do
  let addr := ((← get).cache e).copy.addrs k
  if addr = 0 then
    let addr ← balloc
    setAddr e k addr
    return addr
  else return addr

def bmap (e : Entry) (bn : ℕ) : Run ℕ := do
  if h : bn < NDIRECT then addrBlock e (direct ⟨bn, h⟩)
  else if h : bn - NDIRECT < NINDIRECT then
    let addr ← addrBlock e indirect
    let a ← bread addr
    if getUint a ⟨bn - NDIRECT, h⟩ = 0 then
      let b ← balloc
      logWrite addr (putUint a ⟨bn - NDIRECT, h⟩ b)
      return b
    else return getUint a ⟨bn - NDIRECT, h⟩
  else throw (.panic "bmap: out of range")

def truncDirect (e : Entry) (k : Fin NDIRECT) : Run Unit := do
  let addr := ((← get).cache e).copy.addrs (direct k)
  if addr ≠ 0 then
    bfree addr
    setAddr e (direct k) 0

/-- The entry `a[j]` of an indirect block. -/
def truncEntry (a : Block) (j : Fin NINDIRECT) : Run Unit := do
  if getUint a j ≠ 0 then bfree (getUint a j)

def truncIndirect (e : Entry) : Run Unit := do
  let addr := ((← get).cache e).copy.addrs indirect
  if addr ≠ 0 then
    let a ← bread addr
    (List.finRange NINDIRECT).forM (truncEntry a)
    bfree addr
    setAddr e indirect 0

def itrunc (e : Entry) : Run Unit := do
  (List.finRange NDIRECT).forM (truncDirect e)
  truncIndirect e
  setCopy e fun d => { d with size := 0 }
  iupdate e

/-- `devsw[major]` has functions for the console only. -/
def hasDevice (major : ℤ) : Bool := 0 ≤ major ∧ major < NDEV ∧ major = CONSOLE

/-- `memmove(dst, src, m)` into a block, from `o` on. -/
def copyIn (a : Block) (o m : ℕ) (src : ℕ → UInt8) : Block := fun i =>
  if o ≤ i.val ∧ i.val < o + m then src (i.val - o) else a i

/-- The `m` bytes of a block from `o` on. -/
def copyOut (a : Block) (o m : ℕ) : List UInt8 :=
  (List.range m).map fun i => if h : o + i < BSIZE then a ⟨o + i, h⟩ else 0

/-- The loop of `readi`; a pass reads at least one byte, so `n - tot` passes are enough. -/
def readLoop (e : Entry) (n : ℕ) : ℕ → ℕ → ℕ → List UInt8 → Run (List UInt8)
  | 0, _, _, dst => pure dst
  | fuel + 1, tot, off, dst => do
    if tot < n then
      let bp ← bread (← bmap e (off / BSIZE))
      let m := min (n - tot) (BSIZE - off % BSIZE)
      readLoop e n fuel (tot + m) (off + m) (dst ++ copyOut bp (off % BSIZE) m)
    else pure dst

/-- `readi`: the bytes read, or -1. `input` is what the console has to offer. -/
def readi (e : Entry) (off n : UInt32) (input : List UInt8) : Run (Option (List UInt8)) := do
  let ip := ((← get).cache e).copy
  if ip.type = .dev then
    return if hasDevice ip.major then some (input.take n.toNat) else none
  else if off.toNat > ip.size ∨ off + n < off then return none
  else
    let n := if off.toNat + n.toNat > ip.size then ip.size - off.toNat else n.toNat
    return some (← readLoop e n n 0 off.toNat [])

/-- The loop of `writei`, which leaves `off` behind the last byte written. -/
def writeLoop (e : Entry) (src : ℕ → UInt8) (n : ℕ) : ℕ → ℕ → ℕ → Run ℕ
  | 0, _, off => pure off
  | fuel + 1, tot, off => do
    if tot < n then
      let b ← bmap e (off / BSIZE)
      let bp ← bread b
      let m := min (n - tot) (BSIZE - off % BSIZE)
      logWrite b (copyIn bp (off % BSIZE) m fun i => src (tot + i))
      writeLoop e src n fuel (tot + m) (off + m)
    else pure off

/-- `writei`: the number of bytes written, or -1. -/
def writei (e : Entry) (src : ℕ → UInt8) (off n : UInt32) : Run ℤ := do
  let ip := ((← get).cache e).copy
  if ip.type = .dev then return if hasDevice ip.major then n.toNat else -1
  else if off.toNat > ip.size ∨ off + n < off then return -1
  else if off.toNat + n.toNat > MAXFILE * BSIZE then return -1
  else
    let off' ← writeLoop e src n.toNat n.toNat 0 off.toNat
    if n.toNat > 0 ∧ off' > ip.size then
      setCopy e fun d => { d with size := off' }
      iupdate e
    return n.toNat

/-! ### Inodes -/

def setInode (e : Entry) (f : Inode → Inode) : Run Unit :=
  modify fun s => s.setInode e (f (s.cache e))

def iget (inum : Inum) : Run Entry := do
  let cache := (← get).cache
  match (List.finRange NINODE).find? fun e => (cache e).ref > 0 ∧ (cache e).inum = inum with
  | some e =>
    setInode e fun ip => { ip with ref := ip.ref + 1 }
    return e
  | none =>
    match (List.finRange NINODE).find? fun e => (cache e).ref = 0 with
    | some e =>
      setInode e fun ip => { ip with inum := inum, ref := 1, valid := false }
      return e
    | none => throw (.panic "iget: no inodes")

def idup (e : Entry) : Run Unit := setInode e fun ip => { ip with ref := ip.ref + 1 }

/-- A new inode of type `type`, all other fields zero. -/
def Dinode.fresh (type : FileType) : Dinode := ⟨type, 0, 0, 0, 0, fun _ => 0⟩

def ialloc (type : FileType) : Run Entry := do
  let inode := (← get).disk.inode
  match (List.finRange NINODES).find? fun i => i.val ≥ 1 ∧ (inode i).type = .free with
  | some inum =>
    modify fun s => s.setDinode inum (.fresh type)
    iget inum
  | none => throw (.panic "ialloc: no inodes")

/-- `ilock`; calls run one at a time, so the lock is free. -/
def ilock (e : Entry) : Run Unit := do
  let ip := (← get).cache e
  if ip.ref < 1 then throw (.panic "ilock")
  else if ip.valid = false then
    let d := (← get).disk.inode ip.inum
    setInode e fun ip => { ip with copy := d, valid := true }
    if d.type = .free then throw (.panic "ilock: no type")

/-- The part of `iput` under `ip->lock`, once `ref` has been read. -/
def freeInode (e : Entry) : Run Unit := do
  itrunc e
  setCopy e fun d => { d with type := .free }
  iupdate e
  setInode e fun ip => { ip with valid := false }

def iput (e : Entry) : Run Unit := do
  let ip := (← get).cache e
  if ip.valid ∧ ip.copy.nlink = 0 then
    if ip.ref = 1 then freeInode e
  setInode e fun ip => { ip with ref := ip.ref - 1 }

end Xv6Container.Fs
