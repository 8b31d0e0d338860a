import Xv6Container.Ops.Model

/-! The calls of `sysfile.c` and `file.c` that change the disk, and `exit`. An argument that cannot be
fetched is `none`. -/

namespace Xv6Container.Ops

open Lib
open Fs (FileType Entry Stop CString openPath)
open Names (NOFILE NFILE SHRT_MAX Slot FileId Fd Name O_WRONLY O_RDWR O_CREATE)
open Log (MAXOPBLOCKS)

variable (sb : Superblock)

/-! ### Links -/

/-- `ip->nlink++`; a `short` that overflows stops the run. -/
def incLink (e : Entry) : Run Unit := do
  if ((← get).cache e).copy.nlink ≥ SHRT_MAX then throw .overflow
  else setCopy e fun d => { d with nlink := d.nlink + 1 }

def decLink (e : Entry) : Run Unit := setCopy e fun d => { d with nlink := d.nlink - 1 }

/-! ### `create` -/

/-- The new inode of `create`, locked. -/
def newInode (type : FileType) (major minor : ℤ) : Run Entry := do
  let ip ← ialloc sb type
  ilock ip
  setCopy ip fun d => { d with major := major, minor := minor, nlink := 1 }
  iupdate sb ip
  return ip

/-- The entries `.` and `..` of a new directory. -/
def createDots (dp ip : Entry) : Run Unit := do
  incLink dp
  iupdate sb dp
  let s ← get
  if ← dirlink sb ip .dot (s.cache ip).inum then
    if ← dirlink sb ip .dotdot (s.cache dp).inum then pure () else throw (.panic "create dots")
  else throw (.panic "create dots")

def create (p : Slot) (path : CString) (type : FileType) (major minor : ℤ) :
    Run (Option Entry) := do
  match ← nameiparent sb p path with
  | none => return none
  | some (dp, name) =>
    ilock dp
    match ← dirlookup sb dp name with
    | some (ip, _) =>
      iunlockput sb dp
      ilock ip
      if type = .file ∧ ((← get).cache ip).copy.type = .file then return some ip
      else
        iunlockput sb ip
        return none
    | none =>
      let ip ← newInode sb type major minor
      if type = .dir then createDots sb dp ip
      if ← dirlink sb dp name ((← get).cache ip).inum then
        iunlockput sb dp
        return some ip
      else throw (.panic "create: dirlink")

/-! ### Files -/

def filealloc : Run (Option FileId) := do
  let file := (← get).file
  match (List.finRange NFILE).find? fun f => (file f).ref = 0 with
  | some f =>
    modify fun s => s.setFile f { s.file f with ref := 1 }
    return some f
  | none => return none

def fdalloc (p : Slot) (f : FileId) : Run (Option Fd) := do
  let ofile := ((← get).proc p).ofile
  match (List.finRange NOFILE).find? fun fd => (ofile fd).isNone with
  | some fd =>
    modify fun s => s.setProc p { s.proc p with
      ofile := Function.update (s.proc p).ofile fd (some f) }
    return some fd
  | none => return none

def fileclose (f : FileId) : Run Unit := do
  let ff := (← get).file f
  if ff.ref < 1 then throw (.panic "fileclose")
  else if ff.ref - 1 > 0 then modify fun s => s.setFile f { ff with ref := ff.ref - 1 }
  else
    modify fun s => s.setFile f { ff with ref := 0, kind := .none }
    match ff.kind with
    | .inode ip =>
      beginOp
      iput sb ip
      endOp
    | .pipe | .none => pure ()

/-- `MAXOPBLOCKS` less the inode, the indirect block and two blocks of slop, for half of the rest. -/
def chunkMax : ℕ := (MAXOPBLOCKS - 1 - 1 - 2) / 2 * 512

/-- One pass of the loop of `filewrite`. -/
def writeChunk (f : FileId) (ip : Entry) (src : ℕ → UInt8) (n1 : ℕ) : Run ℤ := do
  beginOp
  ilock ip
  let r ← writei sb ip src ((← get).file f).off (.ofNat n1)
  if r > 0 then
    modify fun s => s.setFile f { s.file f with off := (s.file f).off + .ofNat r.toNat }
  iunlock ip
  endOp
  return r

/-- The loop of `filewrite`, which leaves the number of bytes written; a pass writes at least one. -/
def writeChunks (f : FileId) (ip : Entry) (addr : ℕ → UInt8) (n : ℕ) : ℕ → ℕ → Run ℕ
  | 0, i => return i
  | fuel + 1, i => do
    if i < n then
      let n1 := min (n - i) chunkMax
      let r ← writeChunk sb f ip (fun k => addr (i + k)) n1
      if r < 0 then return i
      else if r ≠ n1 then throw (.panic "short filewrite")
      else writeChunks f ip addr n fuel (i + n1)
    else return i

/-- `filewrite` on an inode; -1 is `none`. -/
def filewrite (f : FileId) (addr : ℕ → UInt8) (n : ℤ) : Run (Option ℤ) := do
  let x := (← get).file f
  if x.writable = false then return none
  else
    match x.kind with
    | .inode ip =>
      let i ← writeChunks sb f ip addr n.toNat n.toNat 0
      return if i = n then some n else none
    | .pipe => throw .disabled
    | .none => throw (.panic "filewrite")

/-! ### Calls -/

/-- The end of `sys_link` after a failure. -/
def linkBad (ip : Entry) : Run Bool := do
  ilock ip
  decLink ip
  iupdate sb ip
  iunlockput sb ip
  endOp
  return false

def sysLink (p : Slot) (old new : Option CString) : Run Bool := do
  match old, new with
  | some old, some new =>
    beginOp
    match ← namei sb p old with
    | none =>
      endOp
      return false
    | some ip =>
      ilock ip
      if ((← get).cache ip).copy.type = .dir then
        iunlockput sb ip
        endOp
        return false
      else
        incLink ip
        iupdate sb ip
        iunlock ip
        match ← nameiparent sb p new with
        | none => linkBad sb ip
        | some (dp, name) =>
          ilock dp
          if ← dirlink sb dp name ((← get).cache ip).inum then
            iunlockput sb dp
            iput sb ip
            endOp
            return true
          else
            iunlockput sb dp
            linkBad sb ip
  | _, _ => return false

def isdirempty (dp : Entry) : Run Bool := do
  let size := ((← get).cache dp).copy.size
  let de ← direntLoop sb dp (fun de => deInum de ≠ 0) "isdirempty: readi" size (2 * DIRENT)
  return de.isNone

/-- `sys_unlink` once the entry has been found. -/
def unlinkEntry (dp ip : Entry) (off : ℕ) : Run Bool := do
  ilock ip
  let copy := ((← get).cache ip).copy
  if copy.nlink < 1 then throw (.panic "unlink: nlink < 1")
  else
    if ← (do if copy.type = .dir then return !(← isdirempty sb ip) else return false) then
      iunlockput sb ip
      iunlockput sb dp
      endOp
      return false
    else
      let r ← writei sb dp (fun _ => 0) (.ofNat off) (.ofNat DIRENT)
      if r ≠ DIRENT then throw (.panic "unlink: writei")
      else
        if copy.type = .dir then
          decLink dp
          iupdate sb dp
        iunlockput sb dp
        decLink ip
        iupdate sb ip
        iunlockput sb ip
        endOp
        return true

def sysUnlink (p : Slot) (path : Option CString) : Run Bool := do
  match path with
  | none => return false
  | some path =>
    beginOp
    match ← nameiparent sb p path with
    | none =>
      endOp
      return false
    | some (dp, name) =>
      ilock dp
      if name = .dot ∨ name = .dotdot then
        iunlockput sb dp
        endOp
        return false
      else
        match ← dirlookup sb dp name with
        | none =>
          iunlockput sb dp
          endOp
          return false
        | some (ip, off) => unlinkEntry sb dp ip off

/-- The inode of `sys_open`, locked. -/
def openInode (p : Slot) (path : CString) (omode : UInt32) : Run (Option Entry) := do
  let containerID := ((← get).proc p).containerID
  match openPath containerID path (omode &&& O_CREATE != 0) with
  | .error r => throw r
  | .ok path =>
    if omode &&& O_CREATE != 0 then create sb p path .file 0 0
    else
      match ← namei sb p path with
      | none => return none
      | some ip =>
        ilock ip
        if ((← get).cache ip).copy.type = .dir ∧ omode ≠ 0 then
          iunlockput sb ip
          return none
        else return some ip

/-- The file and the descriptor of `sys_open`. -/
def openFile (p : Slot) : Run (Option (FileId × Fd)) := do
  match ← filealloc with
  | none => return none
  | some f =>
    match ← fdalloc p f with
    | none =>
      fileclose sb f
      return none
    | some fd => return some (f, fd)

def sysOpen (p : Slot) (path : Option CString) (omode : UInt32) : Run (Option Fd) := do
  match path with
  | none => return none
  | some path =>
    beginOp
    match ← openInode sb p path omode with
    | none =>
      endOp
      return none
    | some ip =>
      match ← openFile sb p with
      | none =>
        iunlockput sb ip
        endOp
        return none
      | some (f, fd) =>
        iunlock ip
        endOp
        modify fun s => s.setFile f { s.file f with
          kind := .inode ip
          off := 0
          readable := omode &&& O_WRONLY == 0
          writable := omode &&& O_WRONLY != 0 || omode &&& O_RDWR != 0 }
        return some fd

/-- `sys_mkdir` and `sys_mknod`. -/
def sysMake (p : Slot) (path : Option CString) (type : FileType) (major minor : ℤ) :
    Run Bool := do
  beginOp
  match path with
  | none =>
    endOp
    return false
  | some path =>
    match ← create sb p path type major minor with
    | none =>
      endOp
      return false
    | some ip =>
      iunlockput sb ip
      endOp
      return true

def sysMkdir (p : Slot) (path : Option CString) : Run Bool := sysMake sb p path .dir 0 0

def sysMknod (p : Slot) (path : Option CString) (major minor : ℤ) : Run Bool :=
  sysMake sb p path .dev major minor

def setCwd (p : Slot) (cwd : Option Entry) : Run Unit :=
  modify fun s => s.setProc p { s.proc p with cwd := cwd }

/-- `iput(curproc->cwd)` -/
def putCwd (p : Slot) : Run Unit := do
  match ((← get).proc p).cwd with
  | some cwd => iput sb cwd
  | none => throw .disabled

def sysChdir (p : Slot) (path : Option CString) : Run Bool := do
  beginOp
  match path with
  | none =>
    endOp
    return false
  | some path =>
    match ← namei sb p path with
    | none =>
      endOp
      return false
    | some ip =>
      ilock ip
      if ((← get).cache ip).copy.type ≠ .dir then
        iunlockput sb ip
        endOp
        return false
      else
        iunlock ip
        putCwd sb p
        endOp
        setCwd p (some ip)
        return true

def setFd (p : Slot) (fd : Fd) (f : Option FileId) : Run Unit :=
  modify fun s => s.setProc p { s.proc p with ofile := Function.update (s.proc p).ofile fd f }

/-- The files of `exit`. -/
def closeFd (p : Slot) (fd : Fd) : Run Unit := do
  match ((← get).proc p).ofile fd with
  | none => pure ()
  | some f =>
    fileclose sb f
    setFd p fd none

/-- The part of `exit` about files. -/
def exit (p : Slot) : Run Unit := do
  (List.finRange NOFILE).forM (closeFd sb p)
  beginOp
  putCwd sb p
  endOp
  setCwd p none

end Xv6Container.Ops
