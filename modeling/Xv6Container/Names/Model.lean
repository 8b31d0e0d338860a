import Xv6Container.Fs.Blocks
import Xv6Container.Lib.Ends
import Mathlib.Algebra.Ring.Int.Defs

/-! The directory layer of `fs.c` and the file system calls of `sysfile.c`. A directory is
the list of its entries, a file has no content here: `Fs.Blocks` is about the blocks. Calls
run one at a time, so a lock is only ever held by the call itself, and a call that waits for
a lock it holds stops. The space on the disk is not bounded; the length of a directory is. -/

namespace Xv6Container.Names

open Lib Fs

/-! ### Data -/

abbrev DIRSIZ : ℕ := 14
abbrev NPROC : ℕ := 64
abbrev NOFILE : ℕ := 16
abbrev NFILE : ℕ := 100
abbrev SHRT_MAX : ℤ := 32767

/-- The number of entries for which a directory has room. -/
abbrev NDIRENT : ℕ := MAXFILE * BSIZE / 16

abbrev Slot := Fin NPROC
abbrev FileId := Fin NFILE
abbrev Fd := Fin NOFILE

def ROOTINO : Inum := 1

/-- The name in a directory entry: `namecmp` looks at `DIRSIZ` bytes at most. -/
structure Name where
  bytes : List UInt8
  short : bytes.length ≤ DIRSIZ
  deriving DecidableEq

/-- The first `DIRSIZ` bytes. -/
def Name.cut (bytes : List UInt8) : Name := ⟨bytes.take DIRSIZ, List.length_take_le _ _⟩

def Name.dot : Name := .cut ['.'.toUInt8]
def Name.dotdot : Name := .cut ['.'.toUInt8, '.'.toUInt8]

/-- The fields that an inode on the disk and its copy in memory have in common. -/
structure Attr where
  type : FileType
  major : ℤ
  minor : ℤ
  nlink : ℤ
  deriving DecidableEq

/-- `struct dirent`; `none` is an entry with `inum` 0. -/
abbrev Dirent := Option (Name × Inum)

def dirent (name : Name) (i : Inum) : Dirent := if i = 0 then none else some (name, i)

/-- An inode on the disk, with the entries of a directory. -/
structure Node where
  attr : Attr
  entries : List Dirent
  deriving DecidableEq

/-- An entry of `icache.inode`. -/
structure Inode where
  inum : Inum
  ref : ℤ
  locked : Bool
  valid : Bool
  copy : Attr
  containerID : ℤ

/-- `ip` is `none` for `FD_NONE`. -/
structure File where
  ref : ℤ
  ip : Option Entry
  readable : Bool
  writable : Bool

/-- `cwd` is `none` for a slot without a process. -/
structure Proc where
  containerID : ℤ
  cwd : Option Entry
  ofile : Fd → Option FileId

/-- `creator` and `recycled` only record what happens: the container of the process that has
made an inode, and for every entry that `iget` recycles its `containerID` and the creator of
its new inode. -/
structure State where
  node : Inum → Node
  cache : Entry → Inode
  file : FileId → File
  proc : Slot → Proc
  creator : Inum → Option ℤ
  recycled : List (ℤ × Option ℤ)

abbrev Run := EStateM Stop State

namespace State

def setNode (s : State) (i : Inum) (n : Node) : State :=
  { s with node := Function.update s.node i n }

def setInode (s : State) (e : Entry) (ip : Inode) : State :=
  { s with cache := Function.update s.cache e ip }

def setFile (s : State) (f : FileId) (x : File) : State :=
  { s with file := Function.update s.file f x }

def setProc (s : State) (p : Slot) (x : Proc) : State :=
  { s with proc := Function.update s.proc p x }

def setCreator (s : State) (i : Inum) (c : Option ℤ) : State :=
  { s with creator := Function.update s.creator i c }

end State

/-! ### Inodes -/

def setInode (e : Entry) (f : Inode → Inode) : Run Unit :=
  modify fun s => s.setInode e (f (s.cache e))

def setCopy (e : Entry) (f : Attr → Attr) : Run Unit :=
  setInode e fun ip => { ip with copy := f ip.copy }

def iget (inum : Inum) : Run Entry := do
  let cache := (← get).cache
  match (List.finRange NINODE).find? fun e => (cache e).ref > 0 ∧ (cache e).inum = inum with
  | some e =>
    setInode e fun ip => { ip with ref := ip.ref + 1 }
    return e
  | none =>
    match (List.finRange NINODE).find? fun e => (cache e).ref = 0 with
    | some e =>
      modify fun s => { s with
        recycled := s.recycled ++ [((s.cache e).containerID, s.creator inum)] }
      setInode e fun ip => { ip with inum := inum, ref := 1, valid := false }
      return e
    | none => throw (.panic "iget: no inodes")

def idup (e : Entry) : Run Entry := do
  setInode e fun ip => { ip with ref := ip.ref + 1 }
  return e

def acquiresleep (e : Entry) : Run Unit := do
  if ((← get).cache e).locked then throw .blocked
  else setInode e fun ip => { ip with locked := true }

def releasesleep (e : Entry) : Run Unit := setInode e fun ip => { ip with locked := false }

def ilock (e : Entry) : Run Unit := do
  if ((← get).cache e).ref < 1 then throw (.panic "ilock")
  else
    acquiresleep e
    let s ← get
    if (s.cache e).valid = false then
      let attr := (s.node (s.cache e).inum).attr
      setInode e fun ip => { ip with copy := attr, valid := true }
      if attr.type = .free then throw (.panic "ilock: no type")

def iunlock (e : Entry) : Run Unit := do
  let ip := (← get).cache e
  if ip.locked = false ∨ ip.ref < 1 then throw (.panic "iunlock")
  else releasesleep e

def iupdate (e : Entry) : Run Unit :=
  modify fun s =>
    s.setNode (s.cache e).inum ⟨(s.cache e).copy, (s.node (s.cache e).inum).entries⟩

/-- `itrunc`, `ip->type = 0`, `iupdate`, `ip->valid = 0`. -/
def freeInode (e : Entry) : Run Unit := do
  modify fun s => s.setNode (s.cache e).inum ⟨(s.cache e).copy, []⟩
  setCopy e fun a => { a with type := .free }
  iupdate e
  setInode e fun ip => { ip with valid := false }
  modify fun s => s.setCreator (s.cache e).inum none

def iput (e : Entry) : Run Unit := do
  acquiresleep e
  let ip := (← get).cache e
  if ip.valid = true ∧ ip.copy.nlink = 0 ∧ ip.ref = 1 then freeInode e
  releasesleep e
  setInode e fun ip => { ip with ref := ip.ref - 1 }

def iunlockput (e : Entry) : Run Unit := do
  iunlock e
  iput e

def ialloc (type : FileType) : Run Entry := do
  let node := (← get).node
  match (List.finRange NINODES).find? fun i => i.val ≥ 1 ∧ (node i).attr.type = .free with
  | some inum =>
    modify fun s => s.setNode inum ⟨⟨type, 0, 0, 0⟩, []⟩
    iget inum
  | none => throw (.panic "ialloc: no inodes")

/-! ### Directories -/

/-- The first entry with a name: its offset and its inode. -/
def findEntry (entries : List Dirent) (name : Name) : Option (ℕ × Inum) :=
  match entries with
  | [] => none
  | some (n, i) :: rest => if n = name then some (0, i) else (findEntry rest name).map fun x => (x.1 + 1, x.2)
  | none :: rest => (findEntry rest name).map fun x => (x.1 + 1, x.2)

def dirlookup (dp : Entry) (name : Name) : Run (Option (Entry × ℕ)) := do
  let s ← get
  if (s.cache dp).copy.type ≠ .dir then throw (.panic "dirlookup not DIR")
  else
    match findEntry (s.node (s.cache dp).inum).entries name with
    | none => return none
    | some (off, inum) =>
      let ip ← iget inum
      return some (ip, off)

/-- `writei` of one entry. -/
def writeEntry (dp : Entry) (off : ℕ) (de : Dirent) : Run Unit :=
  modify fun s =>
    let n := s.node (s.cache dp).inum
    s.setNode (s.cache dp).inum
      { n with entries := if off < n.entries.length then n.entries.set off de else n.entries ++ [de] }

/-- The offset of the first free entry, or of the end. -/
def freeEntry (entries : List Dirent) : ℕ := entries.findIdx (·.isNone)

def dirlink (dp : Entry) (name : Name) (inum : Inum) : Run Bool := do
  match ← dirlookup dp name with
  | some (ip, _) =>
    iput ip
    return false
  | none =>
    let s ← get
    let off := freeEntry (s.node (s.cache dp).inum).entries
    if off < NDIRENT then
      writeEntry dp off (dirent name inum)
      return true
    else throw (.panic "dirlink")

/-! ### Paths -/

def slash : UInt8 := '/'.toUInt8

/-- The next path element and the rest. -/
def skipelem (path : List UInt8) : Option (Name × List UInt8) :=
  let path := path.dropWhile (· = slash)
  if path = [] then none
  else some (.cut (path.takeWhile (· ≠ slash)),
    (path.dropWhile (· ≠ slash)).dropWhile (· = slash))

/-- The elements that `skipelem` cuts off one after the other. -/
def elements : ℕ → List UInt8 → List Name
  | 0, _ => []
  | fuel + 1, path =>
    match skipelem path with
    | none => []
    | some (name, rest) => name :: elements fuel rest

/-- The elements of a path; each of them is a byte or more. -/
def pathNames (path : CString) : List Name := elements path.strlen path.bytes

/-- The loop of `namex` over the elements that are left; `name` is the last one cut off. -/
def namexLoop (nameiparent : Bool) (ip : Entry) (name : Name) :
    List Name → Run (Option (Entry × Name))
  | [] => do
    if nameiparent then
      iput ip
      return none
    else return some (ip, name)
  | name :: path => do
    ilock ip
    if ((← get).cache ip).copy.type ≠ .dir then
      iunlockput ip
      return none
    else if nameiparent ∧ path = [] then
      iunlock ip
      return some (ip, name)
    else
      match ← dirlookup ip name with
      | none =>
        iunlockput ip
        return none
      | some (next, _) =>
        iunlockput ip
        namexLoop nameiparent next name path

/-- Where a path starts. -/
def pathStart (p : Slot) (path : CString) : Run Entry := do
  if path.bytes.head? = some slash then iget ROOTINO
  else
    match ((← get).proc p).cwd with
    | some cwd => idup cwd
    | none => throw .disabled

def namex (p : Slot) (path : CString) (nameiparent : Bool) : Run (Option (Entry × Name)) := do
  let ip ← pathStart p path
  namexLoop nameiparent ip (.cut []) (pathNames path)

def namei (p : Slot) (path : CString) : Run (Option Entry) := do
  return (← namex p path false).map Prod.fst

def nameiparent (p : Slot) (path : CString) : Run (Option (Entry × Name)) := namex p path true

/-! ### Calls -/

/-- `ip->nlink++`; a `short` that overflows stops the run. -/
def incLink (e : Entry) : Run Unit := do
  if ((← get).cache e).copy.nlink ≥ SHRT_MAX then throw .overflow
  else setCopy e fun a => { a with nlink := a.nlink + 1 }

def decLink (e : Entry) : Run Unit := setCopy e fun a => { a with nlink := a.nlink - 1 }

/-- The new inode of `create`, locked. -/
def newInode (p : Slot) (type : FileType) (major minor : ℤ) : Run Entry := do
  let ip ← ialloc type
  ilock ip
  let containerID := ((← get).proc p).containerID
  setInode ip fun x => { x with
    copy := { x.copy with major := major, minor := minor, nlink := 1 }
    containerID := containerID }
  iupdate ip
  modify fun s => s.setCreator (s.cache ip).inum (some containerID)
  return ip

/-- The entries `.` and `..` of a new directory. -/
def createDots (dp ip : Entry) : Run Unit := do
  incLink dp
  iupdate dp
  let s ← get
  if ← dirlink ip .dot (s.cache ip).inum then
    if ← dirlink ip .dotdot (s.cache dp).inum then pure () else throw (.panic "create dots")
  else throw (.panic "create dots")

def create (p : Slot) (path : CString) (type : FileType) (major minor : ℤ) :
    Run (Option Entry) := do
  match ← nameiparent p path with
  | none => return none
  | some (dp, name) =>
    ilock dp
    match ← dirlookup dp name with
    | some (ip, _) =>
      iunlockput dp
      ilock ip
      if type = .file ∧ ((← get).cache ip).copy.type = .file then return some ip
      else
        iunlockput ip
        return none
    | none =>
      let ip ← newInode p type major minor
      if type = .dir then createDots dp ip
      if ← dirlink dp name ((← get).cache ip).inum then
        iunlockput dp
        return some ip
      else throw (.panic "create: dirlink")

/-- The end of `sys_link` after a failure. -/
def linkBad (ip : Entry) : Run Unit := do
  ilock ip
  decLink ip
  iupdate ip
  iunlockput ip

/-- `sys_link`: whether it returns 0. -/
def sysLink (p : Slot) (old new : CString) : Run Bool := do
  match ← namei p old with
  | none => return false
  | some ip =>
    ilock ip
    if ((← get).cache ip).copy.type = .dir then
      iunlockput ip
      return false
    else
      incLink ip
      iupdate ip
      iunlock ip
      match ← nameiparent p new with
      | none =>
        linkBad ip
        return false
      | some (dp, name) =>
        ilock dp
        if ← dirlink dp name ((← get).cache ip).inum then
          iunlockput dp
          iput ip
          return true
        else
          iunlockput dp
          linkBad ip
          return false

def isdirempty (entries : List Dirent) : Bool := (entries.drop 2).all (·.isNone)

/-- `sys_unlink` once the entry has been found. -/
def unlinkEntry (dp ip : Entry) (off : ℕ) : Run Bool := do
  ilock ip
  let s ← get
  if (s.cache ip).copy.nlink < 1 then throw (.panic "unlink: nlink < 1")
  else if (s.cache ip).copy.type = .dir ∧ isdirempty (s.node (s.cache ip).inum).entries = false then
    iunlockput ip
    iunlockput dp
    return false
  else
    writeEntry dp off none
    if (s.cache ip).copy.type = .dir then
      decLink dp
      iupdate dp
    iunlockput dp
    decLink ip
    iupdate ip
    iunlockput ip
    return true

def sysUnlink (p : Slot) (path : CString) : Run Bool := do
  match ← nameiparent p path with
  | none => return false
  | some (dp, name) =>
    ilock dp
    if name = .dot ∨ name = .dotdot then
      iunlockput dp
      return false
    else
      match ← dirlookup dp name with
      | none =>
        iunlockput dp
        return false
      | some (ip, off) => unlinkEntry dp ip off

def filealloc : Run (Option FileId) := do
  let file := (← get).file
  match (List.finRange NFILE).find? fun f => (file f).ref = 0 with
  | some f =>
    modify fun s => s.setFile f { s.file f with ref := 1 }
    return some f
  | none => return none

def fdalloc (p : Slot) (f : FileId) : Run (Option Fd) := do
  let ofile := ((← get).proc p).ofile
  match (List.finRange NOFILE).find? fun fd => (ofile fd).isNone with
  | some fd =>
    modify fun s => s.setProc p { s.proc p with
      ofile := Function.update (s.proc p).ofile fd (some f) }
    return some fd
  | none => return none

def fileclose (f : FileId) : Run Unit := do
  let ff := (← get).file f
  if ff.ref < 1 then throw (.panic "fileclose")
  else if ff.ref - 1 > 0 then modify fun s => s.setFile f { ff with ref := ff.ref - 1 }
  else
    modify fun s => s.setFile f { ff with ref := 0, ip := none }
    match ff.ip with
    | some ip => iput ip
    | none => pure ()

def filedup (f : FileId) : Run Unit := do
  let x := (← get).file f
  if x.ref < 1 then throw (.panic "filedup")
  else modify fun s => s.setFile f { x with ref := x.ref + 1 }

def O_WRONLY : UInt32 := 0x001
def O_RDWR : UInt32 := 0x002
def O_CREATE : UInt32 := 0x200

/-- The inode of `sys_open`, locked. -/
def openInode (p : Slot) (path : CString) (omode : UInt32) : Run (Option Entry) := do
  let containerID := ((← get).proc p).containerID
  match openPath containerID path (omode &&& O_CREATE != 0) with
  | .error r => throw r
  | .ok path =>
    if omode &&& O_CREATE != 0 then create p path .file 0 0
    else
      match ← namei p path with
      | none => return none
      | some ip =>
        ilock ip
        if ((← get).cache ip).copy.type = .dir ∧ omode ≠ 0 then
          iunlockput ip
          return none
        else return some ip

def sysOpen (p : Slot) (path : CString) (omode : UInt32) : Run (Option Fd) := do
  match ← openInode p path omode with
  | none => return none
  | some ip =>
    match ← filealloc with
    | none =>
      iunlockput ip
      return none
    | some f =>
      match ← fdalloc p f with
      | none =>
        fileclose f
        iunlockput ip
        return none
      | some fd =>
        iunlock ip
        modify fun s => s.setFile f { s.file f with
          ip := some ip
          readable := omode &&& O_WRONLY == 0
          writable := omode &&& O_WRONLY != 0 || omode &&& O_RDWR != 0 }
        return some fd

/-- `sys_mkdir` and `sys_mknod`. -/
def sysMake (p : Slot) (path : CString) (type : FileType) (major minor : ℤ) : Run Bool := do
  match ← create p path type major minor with
  | none => return false
  | some ip =>
    iunlockput ip
    return true

def sysMkdir (p : Slot) (path : CString) : Run Bool := sysMake p path .dir 0 0

def sysMknod (p : Slot) (path : CString) (major minor : ℤ) : Run Bool :=
  sysMake p path .dev major minor

def setCwd (p : Slot) (cwd : Option Entry) : Run Unit :=
  modify fun s => s.setProc p { s.proc p with cwd := cwd }

/-- `iput(curproc->cwd)`. -/
def putCwd (p : Slot) : Run Unit := do
  match ((← get).proc p).cwd with
  | some cwd => iput cwd
  | none => throw .disabled

def sysChdir (p : Slot) (path : CString) : Run Bool := do
  match ← namei p path with
  | none => return false
  | some ip =>
    ilock ip
    if ((← get).cache ip).copy.type ≠ .dir then
      iunlockput ip
      return false
    else
      iunlock ip
      putCwd p
      setCwd p (some ip)
      return true

def setFd (p : Slot) (fd : Fd) (f : Option FileId) : Run Unit :=
  modify fun s => s.setProc p { s.proc p with ofile := Function.update (s.proc p).ofile fd f }

def sysClose (p : Slot) (fd : Fd) : Run Bool := do
  match ((← get).proc p).ofile fd with
  | none => return false
  | some f =>
    setFd p fd none
    fileclose f
    return true

/-- The files of `exit`. -/
def closeAll (p : Slot) : Run Unit :=
  (List.finRange NOFILE).forM fun fd => do
    match ((← get).proc p).ofile fd with
    | none => pure ()
    | some f =>
      fileclose f
      setFd p fd none

/-- The part of `exit` about files. -/
def exit (p : Slot) : Run Unit := do
  closeAll p
  putCwd p
  setCwd p none

/-- The part of `fork` and `joinContainer` about files: `q` gets the files of `p`, and the
container that the caller gives it. -/
def fork (p q : Slot) (containerID : ℤ) : Run Unit := do
  (List.finRange NOFILE).forM fun fd => do
    match ((← get).proc p).ofile fd with
    | none => pure ()
    | some f =>
      filedup f
      setFd q fd (some f)
  match ((← get).proc p).cwd with
  | none => throw .disabled
  | some cwd =>
    let cwd ← idup cwd
    modify fun s => s.setProc q { s.proc q with containerID := containerID, cwd := some cwd }

/-- `st.containerID` and `st.ino` of `sys_fstat`. -/
def sysFstat (p : Slot) (fd : Fd) : Run (Option (ℤ × Inum)) := do
  match ((← get).proc p).ofile fd with
  | none => return none
  | some f =>
    match ((← get).file f).ip with
    | none => return none
    | some ip =>
      ilock ip
      let x := (← get).cache ip
      iunlock ip
      return some (x.containerID, x.inum)

inductive Call where
  | open_ (p : Slot) (path : CString) (omode : UInt32)
  | mkdir (p : Slot) (path : CString)
  | mknod (p : Slot) (path : CString) (major minor : ℤ)
  | link (p : Slot) (old new : CString)
  | unlink (p : Slot) (path : CString)
  | chdir (p : Slot) (path : CString)
  | close (p : Slot) (fd : Fd)
  | fstat (p : Slot) (fd : Fd)
  | exit (p : Slot)
  | fork (p q : Slot) (containerID : ℤ)

def Call.proc : Call → Slot
  | .open_ p _ _ | .mkdir p _ | .mknod p _ _ _ | .link p _ _ | .unlink p _ | .chdir p _ | .close p _
  | .fstat p _ | .exit p | .fork p _ _ => p

def Call.run : Call → Run Unit
  | .open_ p path omode => discard (sysOpen p path omode)
  | .mkdir p path => discard (sysMkdir p path)
  | .mknod p path major minor => discard (sysMknod p path major minor)
  | .link p old new => discard (sysLink p old new)
  | .unlink p path => discard (sysUnlink p path)
  | .chdir p path => discard (sysChdir p path)
  | .close p fd => discard (sysClose p fd)
  | .fstat p fd => discard (sysFstat p fd)
  | .exit p => Names.exit p
  | .fork p q containerID => do
    if ((← get).proc q).cwd.isNone then Names.fork p q containerID else throw .disabled

def step (s : State) (c : Call) : Except Stop State :=
  if (s.proc c.proc).cwd.isNone then .error .disabled
  else
    match c.run s with
    | .ok _ t => .ok t
    | .error r _ => .error r

end Xv6Container.Names
