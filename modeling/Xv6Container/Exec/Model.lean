import Xv6Container.Fs.Path
import Xv6Container.Paging.Vm

/-! `exec`: the headers of an ELF file, `loaduvm`, and the function itself, from the lookup of the path
to the new image or to the label `bad`. The calls to the file system are recorded; the inode that
`namei` returns is a regular file, whose content is fixed while it is locked. -/

namespace Xv6Container.Exec

open Lib
open Fs (CString)
open Memory (PGSIZE UINT PGROUNDUP)
open Memory.Copyout (PTE_ADDR P2V memmove)
open Paging (Kernel Kmem Stop walkpgdir setupkvm allocuvm clearpteu copyout freevm)

abbrev MAXARG : ℕ := 32
abbrev ELF_MAGIC : ℕ := 0x464C457F
abbrev ELF_PROG_LOAD : ℕ := 1

/-! ### Files -/

/-- A regular file; the size of an inode is a `uint`. -/
structure File where
  content : List UInt8
  length_lt : content.length < UINT

/-- The bytes of a buffer by number. -/
def bytes (l : List UInt8) (i : ℕ) : UInt8 := l.getD i 0

/-- `readi`: the bytes read, `none` for -1. -/
def readi (ip : File) (off n : ℕ) : Option (List UInt8) :=
  if off > ip.content.length ∨ (off + n) % UINT < off then none
  else
    let n := if (off + n) % UINT > ip.content.length then ip.content.length - off else n
    some ((ip.content.drop off).take n)

/-- A read of a whole header of `size` bytes. -/
def readHeader (ip : File) (off size : ℕ) : Option (ℕ → UInt8) :=
  ((readi ip off size).filter fun l => l.length = size).map bytes

/-- The `ushort` at `a`. -/
def half (m : ℕ → UInt8) (a : ℕ) : ℕ := (m a).toNat + 256 * (m (a + 1)).toNat

structure Elfhdr where
  magic : ℕ
  entry : ℕ
  phoff : ℕ
  phnum : ℕ

/-- `struct elfhdr` has 52 bytes. -/
def elfhdr (ip : File) : Option Elfhdr :=
  (readHeader ip 0 52).map fun m => ⟨word m 0, word m 24, word m 28, half m 44⟩

structure Proghdr where
  type : ℕ
  off : ℕ
  vaddr : ℕ
  filesz : ℕ
  memsz : ℕ

/-- `struct proghdr` has 32 bytes. -/
def proghdr (ip : File) (off : ℕ) : Option Proghdr :=
  (readHeader ip off 32).map fun m => ⟨word m 0, word m 4, word m 8, word m 16, word m 20⟩

/-! ### The image -/

/-- The loop of `loaduvm`; the result says whether it returns 0. -/
def loadLoop (pgdir addr : ℕ) (ip : File) (offset sz : ℕ) : ℕ → ℕ → Paging.Run Bool
  | 0, _ => throw .loops
  | fuel + 1, i => do
    if i < sz then
      match ← walkpgdir pgdir ((addr + i) % UINT) false with
      | none => throw (.panic "loaduvm: address should exist")
      | some pte =>
        let pa := PTE_ADDR (← Paging.load pte)
        let n := if sz - i < PGSIZE then sz - i else PGSIZE
        match readi ip ((offset + i) % UINT) n with
        | none => return false
        | some l =>
          modify fun s => { s with mem := memmove s.mem (P2V pa) (bytes l) 0 l.length }
          if l.length ≠ n then return false
          else loadLoop pgdir addr ip offset sz fuel ((i + PGSIZE) % UINT)
    else return true

def loaduvm (pgdir addr : ℕ) (ip : File) (offset sz : ℕ) : Paging.Run Bool :=
  if addr % PGSIZE ≠ 0 then throw (.panic "loaduvm: addr must be page aligned")
  else loadLoop pgdir addr ip offset sz (UINT / PGSIZE + 1) 0

/-- The loop over the program headers, with the number of those that are left: the size that the image
has then, `none` for a jump to `bad`. -/
def loadSegments (k : Kernel) (pgdir : ℕ) (ip : File) : ℕ → ℕ → ℕ → Paging.Run (Option ℕ)
  | 0, _, sz => return some sz
  | left + 1, off, sz => do
    match proghdr ip off with
    | none => return none
    | some ph =>
      if ph.type ≠ ELF_PROG_LOAD then loadSegments k pgdir ip left ((off + 32) % UINT) sz
      else if ph.memsz < ph.filesz then return none
      else if (ph.vaddr + ph.memsz) % UINT < ph.vaddr then return none
      else
        let sz ← allocuvm k pgdir sz ((ph.vaddr + ph.memsz) % UINT)
        if sz = 0 then return none
        else if ph.vaddr % PGSIZE ≠ 0 then return none
        else if ← loaduvm pgdir ph.vaddr ip ph.off ph.filesz then
          loadSegments k pgdir ip left ((off + 32) % UINT) sz
        else return none

/-- The loop that pushes the strings, with the pointers to those pushed before: the stack pointer and
all pointers, `none` for a jump to `bad`. -/
def pushStrings (pgdir : ℕ) : List CString → ℕ → List ℕ → Paging.Run (Option (ℕ × List ℕ))
  | [], sp, ptrs => return some (sp, ptrs)
  | arg :: argv, sp, ptrs => do
    if ptrs.length ≥ MAXARG then return none
    else
      let sp := (sp + (UINT - (arg.strlen + 1) % UINT)) % UINT / 4 * 4
      if ← copyout pgdir sp (bytes (arg.bytes ++ [0])) (arg.strlen + 1) then
        pushStrings pgdir argv sp (ptrs ++ [sp])
      else return none

/-- The bytes of an array of words. -/
def wordBytes (ws : List ℕ) (i : ℕ) : UInt8 := .ofNat (ws.getD (i / 4) 0 / 256 ^ (i % 4))

/-- The arguments on the stack of an image of size `sz`: the stack pointer, `none` for a jump to
`bad`. -/
def pushArgs (pgdir : ℕ) (argv : List CString) (sz : ℕ) : Paging.Run (Option ℕ) := do
  match ← pushStrings pgdir argv sz [] with
  | none => return none
  | some (sp, ptrs) =>
    let argc := ptrs.length
    let ustack := [0xffffffff, argc, (sp + (UINT - (argc + 1) * 4)) % UINT] ++ ptrs ++ [0]
    let sp := (sp + (UINT - (3 + argc + 1) * 4)) % UINT
    if ← copyout pgdir sp (wordBytes ustack) ((3 + argc + 1) * 4) then return some sp
    else return none

/-! ### `exec` -/

/-- What `exec` changes of a process. -/
structure Proc where
  pgdir : ℕ
  sz : ℕ
  name : ℕ → UInt8
  eip : ℕ
  esp : ℕ

/-- The calls to the log and the inode layer. -/
inductive Call where
  | begin_op
  | end_op
  | namei (found : Bool)
  | ilock
  | iunlockput
  deriving DecidableEq

structure State where
  kmem : Kmem
  proc : Proc
  calls : List Call

abbrev Run := EStateM Stop State

def call (c : Call) : Run Unit := modify fun s => { s with calls := s.calls ++ [c] }

def onKmem {α : Type} (x : Paging.Run α) : Run α := fun s =>
  match x s.kmem with
  | .ok a t => .ok a { s with kmem := t }
  | .error e t => .error e { s with kmem := t }

/-- Where the first part of `exec` ends: at `bad`, with `pgdir` (0 if there is none) and with or without
`ip`, or with a new image. -/
inductive Loading where
  | bad (pgdir : ℕ) (ip : Bool)
  | image (pgdir sz entry : ℕ)

/-- `exec` from the ELF header to the stack. -/
def loadImage (k : Kernel) (ip : File) : Run Loading := do
  match elfhdr ip with
  | none => return .bad 0 true
  | some elf =>
    if elf.magic ≠ ELF_MAGIC then return .bad 0 true
    else
      match ← onKmem (setupkvm k) with
      | none => return .bad 0 true
      | some pgdir =>
        match ← onKmem (loadSegments k pgdir ip elf.phnum elf.phoff 0) with
        | none => return .bad pgdir true
        | some sz =>
          call .iunlockput
          call .end_op
          let sz := PGROUNDUP sz
          let sz ← onKmem (allocuvm k pgdir sz ((sz + 2 * PGSIZE) % UINT))
          if sz = 0 then return .bad pgdir false
          else
            onKmem (clearpteu pgdir ((sz + (UINT - 2 * PGSIZE)) % UINT))
            return .image pgdir sz elf.entry

/-- The label `bad`. -/
def bad (k : Kernel) (pgdir : ℕ) (ip : Bool) : Run ℤ := do
  if pgdir ≠ 0 then onKmem (freevm k pgdir)
  if ip then
    call .iunlockput
    call .end_op
  return -1

/-- The loop that finds the last part of the path. -/
def lastPart (last : List UInt8) : List UInt8 → List UInt8
  | [] => last
  | c :: s => if c = '/'.toUInt8 then lastPart s s else lastPart last s

/-- The loop of `safestrcpy`, with `n` characters to copy at most. -/
def safestrcpyLoop : ℕ → ℕ → List UInt8 → (ℕ → UInt8) → ℕ → UInt8
  | 0, i, _, s => Function.update s i 0
  | n + 1, i, t, s =>
    let s := Function.update s i (t.headD 0)
    if t.headD 0 ≠ 0 then safestrcpyLoop n (i + 1) t.tail s else Function.update s (i + 1) 0

def safestrcpy (s : ℕ → UInt8) (t : List UInt8) (n : ℕ) : ℕ → UInt8 :=
  if n = 0 then s else safestrcpyLoop (n - 1) 0 t s

/-- `exec(path, argv)`, where `namei` is the lookup of a path. -/
def exec (k : Kernel) (namei : CString → Option File) (path : CString) (argv : List CString) :
    Run ℤ := do
  call .begin_op
  call (.namei (namei path).isSome)
  match namei path with
  | none =>
    call .end_op
    return -1
  | some ip =>
    call .ilock
    match ← loadImage k ip with
    | .bad pgdir ip => bad k pgdir ip
    | .image pgdir sz entry =>
      match ← onKmem (pushArgs pgdir argv sz) with
      | none => bad k pgdir false
      | some sp =>
        let oldpgdir := (← get).proc.pgdir
        modify fun s => { s with proc :=
          { pgdir, sz, name := safestrcpy s.proc.name (lastPart path.bytes path.bytes) 16,
            eip := entry, esp := sp } }
        onKmem (freevm k oldpgdir)
        return 0

end Xv6Container.Exec
