import Xv6Container.Fs.Owned

/-! `mkfs` and the image it writes. As in the kernel, the inodes and the bitmap of the image have a
place of their own; the blocks of the image file are those below `FSSIZE`, and a read behind them
ends the program. -/

namespace Xv6Container.Mkfs

open Lib Fs

abbrev LOGSIZE : ℕ := 30
abbrev IPB : ℕ := BSIZE / 64
abbrev ROOTINO : ℕ := 1
abbrev DIRSIZ : ℕ := 14

def nbitmap : ℕ := FSSIZE / (BSIZE * 8) + 1
def ninodeblocks : ℕ := NINODES / IPB + 1
def nlog : ℕ := LOGSIZE

structure Superblock where
  size : ℕ
  nblocks : ℕ
  ninodes : ℕ
  nlog : ℕ
  logstart : ℕ
  inodestart : ℕ
  bmapstart : ℕ
  deriving DecidableEq, Repr

/-- The super block that `main` writes; the data area begins at `Fs.nmeta`. -/
def sb : Superblock where
  size := FSSIZE
  nblocks := FSSIZE - (2 + nlog + ninodeblocks + nbitmap)
  ninodes := NINODES
  nlog := nlog
  logstart := 2
  inodestart := 2 + nlog
  bmapstart := 2 + nlog + ninodeblocks

/-- Every inode has its place in the inode blocks, which end where the bitmap begins. -/
theorem layout : 2 + nlog + ninodeblocks + nbitmap = nmeta ∧ sb.logstart + sb.nlog = sb.inodestart ∧
    (∀ i < NINODES, i / IPB + sb.inodestart < sb.bmapstart) ∧
    ∀ b < FSSIZE, sb.bmapstart ≤ b / BPB + sb.bmapstart ∧ b / BPB + sb.bmapstart < nmeta := by
  refine ⟨rfl, rfl, fun i hi => ?_, fun b hb => ?_⟩
  · have : i < 200 := hi
    show i / 8 + 32 < 58
    omega
  · have : b < 1000 := hb
    show 58 ≤ b / 4096 + 58 ∧ b / 4096 + 58 < 59
    omega

structure Image where
  disk : Disk
  freeinode : ℕ
  freeblock : ℕ

def Image.write (s : Image) (b : ℕ) (a : Block) : Image :=
  { s with disk := { s.disk with data := Function.update s.disk.data b a } }

/-- Why `mkfs` stops: an assertion, `exit(1)`, or an inode number that the image has no place for,
which is not modelled. -/
inductive Stop where
  | assert
  | exit
  | outOfBounds
  deriving DecidableEq, Repr

abbrev Run := EStateM Stop Image

/-- All sectors have been cleared. -/
def start : Image where
  disk := { inode := fun _ => ⟨.free, 0, 0, 0, 0, fun _ => 0⟩, used := fun _ => false, data := fun _ _ => 0 }
  freeinode := 1
  freeblock := nmeta

def rinode (inum : Inum) : Run Dinode := do return (← get).disk.inode inum

def winode (inum : Inum) (d : Dinode) : Run Unit :=
  modify fun s => { s with disk := { s.disk with inode := Function.update s.disk.inode inum d } }

/-- `rsect` of a block of the data area. -/
def rsect (sec : ℕ) : Run Block := do
  if sec < nmeta then throw .outOfBounds
  else if sec < FSSIZE then return (← get).disk.data sec
  else throw .exit

def wsect (sec : ℕ) (buf : Block) : Run Unit := modify fun s => s.write sec buf

def ialloc (type : FileType) : Run Inum := do
  let inum := (← get).freeinode
  modify fun s => { s with freeinode := s.freeinode + 1 }
  if h : inum < NINODES then
    winode ⟨inum, h⟩ ⟨type, 0, 0, 1, 0, fun _ => 0⟩
    return ⟨inum, h⟩
  else throw .outOfBounds

/-- `freeblock++`. -/
def take : Run ℕ := do
  let b := (← get).freeblock
  modify fun s => { s with freeblock := s.freeblock + 1 }
  return b

/-- Entry `j` of the indirect block. -/
def findEntry (din : Dinode) (j : Fin NINDIRECT) : Run (Dinode × ℕ) := do
  let a ← rsect (din.addrs indirect)
  if getUint a j = 0 then
    let b ← take
    wsect (din.addrs indirect) (putUint a j b)
    return (din, b)
  else return (din, getUint a j)

/-- The part of the loop of `iappend` that finds block `x` for `fbn`. -/
def findBlock (din : Dinode) (fbn : ℕ) : Run (Dinode × ℕ) := do
  if h : fbn < NDIRECT then
    let k := direct ⟨fbn, h⟩
    if din.addrs k = 0 then
      let b ← take
      return (din.setAddr k b, b)
    else return (din, din.addrs k)
  else if h : fbn - NDIRECT < NINDIRECT then
    if din.addrs indirect = 0 then
      let b ← take
      findEntry (din.setAddr indirect b) ⟨fbn - NDIRECT, h⟩
    else findEntry din ⟨fbn - NDIRECT, h⟩
  else throw .assert

/-- The loop of `iappend`, with `p` still to be written at `off`; a pass writes at least one byte. -/
def appendLoop : ℕ → Dinode → ℕ → List UInt8 → Run (Dinode × ℕ)
  | 0, din, off, _ => pure (din, off)
  | fuel + 1, din, off, p => do
    if p = [] then pure (din, off)
    else
      let fbn := off / BSIZE
      if fbn < MAXFILE then
        let (din, x) ← findBlock din fbn
        let n1 := min p.length ((fbn + 1) * BSIZE - off)
        let buf ← rsect x
        wsect x (copyIn buf (off - fbn * BSIZE) n1 fun i => p.getD i 0)
        appendLoop fuel din (off + n1) (p.drop n1)
      else throw .assert

def iappend (inum : Inum) (p : List UInt8) : Run Unit := do
  let din ← rinode inum
  let (din, off) ← appendLoop p.length din din.size p
  winode inum { din with size := off }

/-- The first `used` bits of the bitmap block. -/
def balloc (used : ℕ) : Run Unit := do
  if used < BSIZE * 8 then
    modify fun s => { s with disk := { s.disk with used := fun b => decide (b < used) } }
  else throw .assert

/-- `struct dirent` as it is on the disk: `strncpy` cuts the name and fills up with zeros. -/
def dirent (inum : ℕ) (name : List UInt8) : List UInt8 :=
  [.ofNat inum, .ofNat (inum / 256)] ++
    (name.take DIRSIZ ++ List.replicate (DIRSIZ - (name.take DIRSIZ).length) 0)

/-- A file of the host: its name in `argv`, and what one `read` after the other returns. -/
structure HostFile where
  name : List UInt8
  reads : List (List UInt8)

def HostFile.content (f : HostFile) : List UInt8 := f.reads.flatten

def slash : UInt8 := 47
def underscore : UInt8 := 95
def dot : UInt8 := 46

/-- The name in the image: a leading `_` is skipped. -/
def HostFile.imageName (f : HostFile) : List UInt8 :=
  if f.name.head? = some underscore then f.name.tail else f.name

/-- A pass of the loop of `main`. -/
def addFile (rootino : Inum) (f : HostFile) : Run Unit := do
  if slash ∈ f.name then throw .assert
  else
    let inum ← ialloc .file
    iappend rootino (dirent inum f.imageName)
    f.reads.forM (iappend inum)

/-- The end of `main`: fix size of root inode dir, and write the bitmap. -/
def finish (rootino : Inum) : Run Unit := do
  let din ← rinode rootino
  winode rootino { din with size := (din.size / BSIZE + 1) * BSIZE }
  balloc (← get).freeblock

def main (files : List HostFile) : Run Unit := do
  let rootino ← ialloc .dir
  if rootino.val = ROOTINO then
    iappend rootino (dirent rootino [dot])
    iappend rootino (dirent rootino [dot, dot])
    files.forM (addFile rootino)
    finish rootino
  else throw .assert

theorem length_dirent (inum : ℕ) (name : List UInt8) : (dirent inum name).length = 16 := by
  have hlength : (name.take DIRSIZ).length ≤ DIRSIZ := List.length_take_le ..
  rw [dirent, List.length_append, List.length_append, List.length_replicate]
  simp only [DIRSIZ, List.length_cons, List.length_nil] at hlength ⊢
  omega

end Xv6Container.Mkfs
