import Mathlib.Data.Finset.Insert
import Xv6Container.Log.Header
import Xv6Container.Names.Model

/-! The file system calls on the blocks of one disk, with what each transaction has logged. A
directory is the content of its inode, as `readi` and `writei` see it, and every change to the disk
goes through `log_write`. The disk has one block of bitmap. Calls run one at a time; a call that waits
for a lock it holds stops, and so does one that finds a block number outside of the data area. -/

namespace Xv6Container.Ops

open Lib
open Fs (BSIZE NDIRECT NINDIRECT MAXFILE BPB NINODE FileType AddrIdx Dinode Block Entry Stop CString
  getUint putUint copyIn copyOut direct indirect hasDevice openPath)
open Names (DIRSIZ NPROC NOFILE NFILE SHRT_MAX Slot FileId Fd Name slash pathNames O_WRONLY O_RDWR
  O_CREATE)
open Log (MAXOPBLOCKS)

/-! ### Data -/

abbrev ROOTINO : ℕ := 1

/-- `BSIZE / sizeof(struct dinode)` -/
abbrev IPB : ℕ := BSIZE / 64

/-- `struct superblock`; `datastart` is the first block after the bitmap. -/
structure Superblock where
  size : ℕ
  ninodes : ℕ
  inodestart : ℕ
  bmapstart : ℕ
  datastart : ℕ
  one_bitmap : size ≤ BPB
  datastart_pos : 0 < datastart

/-- `IBLOCK(i, sb)` -/
def Superblock.iblock (sb : Superblock) (i : ℕ) : ℕ := i / IPB + sb.inodestart

/-- `BBLOCK(b, sb)` -/
def Superblock.bblock (sb : Superblock) (b : ℕ) : ℕ := b / BPB + sb.bmapstart

def Superblock.DataBlock (sb : Superblock) (b : ℕ) : Prop := sb.datastart ≤ b ∧ b < sb.size

instance (sb : Superblock) (b : ℕ) : Decidable (sb.DataBlock b) :=
  inferInstanceAs (Decidable (sb.datastart ≤ b ∧ b < sb.size))

/-- The inodes, the bits of the bitmap and the data blocks. -/
structure Disk where
  inode : ℕ → Dinode
  used : ℕ → Bool
  data : ℕ → Block

/-- An entry of `icache.inode`. -/
structure Inode where
  inum : ℕ
  ref : ℤ
  locked : Bool
  valid : Bool
  copy : Dinode

/-- `type` of a file and `ip`; what is behind a pipe is in `Pipes`. -/
inductive FileKind
  | none
  | pipe
  | inode (ip : Entry)
  deriving DecidableEq

structure File where
  ref : ℤ
  kind : FileKind
  off : UInt32
  readable : Bool
  writable : Bool

/-- `cwd` is `none` for a slot without a process. -/
structure Proc where
  containerID : ℤ
  cwd : Option Entry
  ofile : Fd → Option FileId

/-- `logged` are the blocks that the transaction has logged so far, `ended` those of the transactions
that have ended. -/
structure State where
  disk : Disk
  cache : Entry → Inode
  file : FileId → File
  proc : Slot → Proc
  logged : Finset ℕ
  ended : List (Finset ℕ)

abbrev Run := EStateM Stop State

namespace State

def setDisk (s : State) (d : Disk) (b : ℕ) : State := { s with disk := d, logged := insert b s.logged }

def setInode (s : State) (e : Entry) (ip : Inode) : State :=
  { s with cache := Function.update s.cache e ip }

def setFile (s : State) (f : FileId) (x : File) : State :=
  { s with file := Function.update s.file f x }

def setProc (s : State) (p : Slot) (x : Proc) : State :=
  { s with proc := Function.update s.proc p x }

@[simp] theorem setInode_disk (s : State) (e : Entry) (x : Inode) :
    (s.setInode e x).disk = s.disk := rfl

@[simp] theorem setInode_self (s : State) (e : Entry) (x : Inode) : (s.setInode e x).cache e = x :=
  Function.update_self ..

@[simp] theorem setFile_self (s : State) (f : FileId) (x : File) : (s.setFile f x).file f = x :=
  Function.update_self ..

theorem setInode_of_ne (s : State) {e e' : Entry} (h : e' ≠ e) (x : Inode) :
    (s.setInode e x).cache e' = s.cache e' :=
  Function.update_of_ne h ..

end State

def beginOp : Run Unit := modify fun s => { s with logged := ∅ }

def endOp : Run Unit := modify fun s => { s with ended := s.logged :: s.ended }

variable (sb : Superblock)

/-! ### Blocks -/

def bread (b : ℕ) : Run Block := do
  if sb.DataBlock b then return (← get).disk.data b else throw .outOfBounds

/-- A change to the buffer of a data block, and `log_write`. -/
def logWrite (b : ℕ) (a : Block) : Run Unit := do
  if sb.DataBlock b then
    modify fun s => s.setDisk { s.disk with data := Function.update s.disk.data b a } b
  else throw .outOfBounds

/-- A change to a bit of the bitmap, and `log_write`. -/
def logBit (b : ℕ) (u : Bool) : Run Unit :=
  modify fun s =>
    s.setDisk { s.disk with used := Function.update s.disk.used b u } (sb.bblock b)

/-- A change to a dinode, and `log_write`. -/
def logDinode (i : ℕ) (d : Dinode) : Run Unit :=
  modify fun s =>
    s.setDisk { s.disk with inode := Function.update s.disk.inode i d } (sb.iblock i)

def bzero (b : ℕ) : Run Unit := logWrite sb b fun _ => 0

def balloc : Run ℕ := do
  let used := (← get).disk.used
  match (List.range sb.size).find? fun b => !used b with
  | some b =>
    logBit sb b true
    bzero sb b
    return b
  | none => throw (.panic "balloc: out of blocks")

def bfree (b : ℕ) : Run Unit := do
  if b ≥ BPB then throw .outOfBounds
  else if (← get).disk.used b = false then throw (.panic "freeing free block")
  else logBit sb b false

/-! ### The content of inodes -/

def setInode (e : Entry) (f : Inode → Inode) : Run Unit :=
  modify fun s => s.setInode e (f (s.cache e))

def setCopy (e : Entry) (f : Dinode → Dinode) : Run Unit :=
  setInode e fun ip => { ip with copy := f ip.copy }

def setAddr (e : Entry) (k : AddrIdx) (b : ℕ) : Run Unit := setCopy e fun d => d.setAddr k b

def iupdate (e : Entry) : Run Unit := do
  let ip := (← get).cache e
  logDinode sb ip.inum ip.copy

/-- The block `ip->addrs[k]`, allocated when there is none. -/
def addrBlock (e : Entry) (k : AddrIdx) : Run ℕ := do
  let addr := ((← get).cache e).copy.addrs k
  if addr = 0 then
    let addr ← balloc sb
    setAddr e k addr
    return addr
  else return addr

def bmap (e : Entry) (bn : ℕ) : Run ℕ := do
  if h : bn < NDIRECT then addrBlock sb e (direct ⟨bn, h⟩)
  else if h : bn - NDIRECT < NINDIRECT then
    let addr ← addrBlock sb e indirect
    let a ← bread sb addr
    if getUint a ⟨bn - NDIRECT, h⟩ = 0 then
      let b ← balloc sb
      logWrite sb addr (putUint a ⟨bn - NDIRECT, h⟩ b)
      return b
    else return getUint a ⟨bn - NDIRECT, h⟩
  else throw (.panic "bmap: out of range")

def truncDirect (e : Entry) (k : Fin NDIRECT) : Run Unit := do
  let addr := ((← get).cache e).copy.addrs (direct k)
  if addr ≠ 0 then
    bfree sb addr
    setAddr e (direct k) 0

/-- The entry `a[j]` of an indirect block. -/
def truncEntry (a : Block) (j : Fin NINDIRECT) : Run Unit := do
  if getUint a j ≠ 0 then bfree sb (getUint a j)

def truncIndirect (e : Entry) : Run Unit := do
  let addr := ((← get).cache e).copy.addrs indirect
  if addr ≠ 0 then
    let a ← bread sb addr
    (List.finRange NINDIRECT).forM (truncEntry sb a)
    bfree sb addr
    setAddr e indirect 0

def itrunc (e : Entry) : Run Unit := do
  (List.finRange NDIRECT).forM (truncDirect sb e)
  truncIndirect sb e
  setCopy e fun d => { d with size := 0 }
  iupdate sb e

/-- The loop of `readi`; a pass reads at least one byte, so `n - tot` passes are enough. -/
def readLoop (e : Entry) (n : ℕ) : ℕ → ℕ → ℕ → List UInt8 → Run (List UInt8)
  | 0, _, _, dst => pure dst
  | fuel + 1, tot, off, dst => do
    if tot < n then
      let bp ← bread sb (← bmap sb e (off / BSIZE))
      let m := min (n - tot) (BSIZE - off % BSIZE)
      readLoop e n fuel (tot + m) (off + m) (dst ++ copyOut bp (off % BSIZE) m)
    else pure dst

/-- `readi`: the bytes read, or -1. The calls here read directories only, and no devices. -/
def readi (e : Entry) (off n : UInt32) : Run (Option (List UInt8)) := do
  let ip := ((← get).cache e).copy
  if ip.type = .dev then throw .disabled
  else if off.toNat > ip.size ∨ off + n < off then return none
  else
    let n := if off.toNat + n.toNat > ip.size then ip.size - off.toNat else n.toNat
    return some (← readLoop sb e n n 0 off.toNat [])

/-- The loop of `writei`, which leaves `off` behind the last byte written. -/
def writeLoop (e : Entry) (src : ℕ → UInt8) (n : ℕ) : ℕ → ℕ → ℕ → Run ℕ
  | 0, _, off => pure off
  | fuel + 1, tot, off => do
    if tot < n then
      let b ← bmap sb e (off / BSIZE)
      let bp ← bread sb b
      let m := min (n - tot) (BSIZE - off % BSIZE)
      logWrite sb b (copyIn bp (off % BSIZE) m fun i => src (tot + i))
      writeLoop e src n fuel (tot + m) (off + m)
    else pure off

/-- `writei`: the number of bytes written, or -1. -/
def writei (e : Entry) (src : ℕ → UInt8) (off n : UInt32) : Run ℤ := do
  let ip := ((← get).cache e).copy
  if ip.type = .dev then return if hasDevice ip.major then n.toNat else -1
  else if off.toNat > ip.size ∨ off + n < off then return -1
  else if off.toNat + n.toNat > MAXFILE * BSIZE then return -1
  else
    let off' ← writeLoop sb e src n.toNat n.toNat 0 off.toNat
    if n.toNat > 0 ∧ off' > ip.size then
      setCopy e fun d => { d with size := off' }
      iupdate sb e
    return n.toNat

/-! ### Inodes -/

def iget (inum : ℕ) : Run Entry := do
  let cache := (← get).cache
  match (List.finRange NINODE).find? fun e => (cache e).ref > 0 ∧ (cache e).inum = inum with
  | some e =>
    setInode e fun ip => { ip with ref := ip.ref + 1 }
    return e
  | none =>
    match (List.finRange NINODE).find? fun e => (cache e).ref = 0 with
    | some e =>
      setInode e fun ip => { ip with inum := inum, ref := 1, valid := false }
      return e
    | none => throw (.panic "iget: no inodes")

def idup (e : Entry) : Run Entry := do
  setInode e fun ip => { ip with ref := ip.ref + 1 }
  return e

def acquiresleep (e : Entry) : Run Unit := do
  if ((← get).cache e).locked then throw .blocked
  else setInode e fun ip => { ip with locked := true }

def releasesleep (e : Entry) : Run Unit := setInode e fun ip => { ip with locked := false }

def ilock (e : Entry) : Run Unit := do
  if ((← get).cache e).ref < 1 then throw (.panic "ilock")
  else
    acquiresleep e
    let s ← get
    if (s.cache e).valid = false then
      let d := s.disk.inode (s.cache e).inum
      setInode e fun ip => { ip with copy := d, valid := true }
      if d.type = .free then throw (.panic "ilock: no type")

def iunlock (e : Entry) : Run Unit := do
  let ip := (← get).cache e
  if ip.locked = false ∨ ip.ref < 1 then throw (.panic "iunlock")
  else releasesleep e

/-- The part of `iput` that frees an inode. -/
def freeInode (e : Entry) : Run Unit := do
  itrunc sb e
  setCopy e fun d => { d with type := .free }
  iupdate sb e
  setInode e fun ip => { ip with valid := false }

def iput (e : Entry) : Run Unit := do
  acquiresleep e
  let ip := (← get).cache e
  if ip.valid = true ∧ ip.copy.nlink = 0 ∧ ip.ref = 1 then freeInode sb e
  releasesleep e
  setInode e fun ip => { ip with ref := ip.ref - 1 }

def iunlockput (e : Entry) : Run Unit := do
  iunlock e
  iput sb e

def ialloc (type : FileType) : Run Entry := do
  let inode := (← get).disk.inode
  match (List.range sb.ninodes).find? fun i => i ≥ 1 ∧ (inode i).type = .free with
  | some inum =>
    logDinode sb inum (.fresh type)
    iget inum
  | none => throw (.panic "ialloc: no inodes")

/-! ### Directories -/

/-- `sizeof(struct dirent)` -/
abbrev DIRENT : ℕ := 16

/-- `de.inum` -/
def deInum (de : List UInt8) : ℕ := (de.getD 0 0).toNat + 256 * (de.getD 1 0).toNat

/-- `de.name`, up to the first zero as `namecmp` reads it. -/
def deName (de : List UInt8) : List UInt8 := ((de.drop 2).take DIRSIZ).takeWhile (· ≠ 0)

/-- The bytes of the entry that `dirlink` writes; `inum` is a `ushort`. -/
def dirent (name : Name) (inum : ℕ) : ℕ → UInt8
  | 0 => .ofNat inum
  | 1 => .ofNat (inum / 256)
  | k + 2 => name.bytes.getD k 0

/-- A loop over the entries from `off` on, to the first one that passes the test: its offset and its
inode. Every pass goes on by `DIRENT`, so as many passes as bytes are enough. -/
def direntLoop (dp : Entry) (p : List UInt8 → Bool) (msg : String) :
    ℕ → ℕ → Run (Option (ℕ × ℕ))
  | 0, _ => return none
  | fuel + 1, off => do
    if off < ((← get).cache dp).copy.size then
      match ← readi sb dp (.ofNat off) (.ofNat DIRENT) with
      | some de =>
        if de.length ≠ DIRENT then throw (.panic msg)
        else if p de then return some (off, deInum de)
        else direntLoop dp p msg fuel (off + DIRENT)
      | none => throw (.panic msg)
    else return none

/-- The entry is in use and has the name. -/
def named (name : Name) (de : List UInt8) : Bool := deInum de ≠ 0 ∧ deName de = name.bytes

def dirlookup (dp : Entry) (name : Name) : Run (Option (Entry × ℕ)) := do
  let dir := ((← get).cache dp).copy
  if dir.type ≠ .dir then throw (.panic "dirlookup not DIR")
  else
    match ← direntLoop sb dp (named name) "dirlookup read" dir.size 0 with
    | none => return none
    | some (off, inum) =>
      let ip ← iget inum
      return some (ip, off)

def dirlink (dp : Entry) (name : Name) (inum : ℕ) : Run Bool := do
  match ← dirlookup sb dp name with
  | some (ip, _) =>
    iput sb ip
    return false
  | none =>
    let size := ((← get).cache dp).copy.size
    let free ← direntLoop sb dp (fun de => deInum de = 0) "dirlink read" size 0
    -- Without a free entry the loop ends at the first multiple of `DIRENT` from `size` on.
    let off := (free.map Prod.fst).getD ((size + DIRENT - 1) / DIRENT * DIRENT)
    let r ← writei sb dp (dirent name inum) (.ofNat off) (.ofNat DIRENT)
    if r ≠ DIRENT then throw (.panic "dirlink") else return true

/-! ### Paths -/

/-- The loop of `namex` over the elements that are left; `name` is the last one cut off. -/
def namexLoop (nameiparent : Bool) (ip : Entry) (name : Name) :
    List Name → Run (Option (Entry × Name))
  | [] => do
    if nameiparent then
      iput sb ip
      return none
    else return some (ip, name)
  | name :: path => do
    ilock ip
    if ((← get).cache ip).copy.type ≠ .dir then
      iunlockput sb ip
      return none
    else if nameiparent ∧ path = [] then
      iunlock ip
      return some (ip, name)
    else
      match ← dirlookup sb ip name with
      | none =>
        iunlockput sb ip
        return none
      | some (next, _) =>
        iunlockput sb ip
        namexLoop nameiparent next name path

/-- Where a path starts. -/
def pathStart (p : Slot) (path : CString) : Run Entry := do
  if path.bytes.head? = some slash then iget ROOTINO
  else
    match ((← get).proc p).cwd with
    | some cwd => idup cwd
    | none => throw .disabled

def namex (p : Slot) (path : CString) (nameiparent : Bool) : Run (Option (Entry × Name)) := do
  let ip ← pathStart p path
  namexLoop sb nameiparent ip (.cut []) (pathNames path)

def namei (p : Slot) (path : CString) : Run (Option Entry) := do
  return (← namex sb p path false).map Prod.fst

def nameiparent (p : Slot) (path : CString) : Run (Option (Entry × Name)) := namex sb p path true

end Xv6Container.Ops
