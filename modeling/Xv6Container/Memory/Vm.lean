import Xv6Container.Containers.Tables
import Xv6Container.Lib.Ends

/-! Pages of memory and page tables: `kalloc.c`, the functions of `vm.c` that make, change,
copy and free the user part of a page table, and `growproc` and `exec`, which use them. The
page directory of a process has 512 entries below `KERNBASE`, each with a page table, and 512
above it; of the page tables above it only the pages are kept, nobody reads their entries.
What is in a page of user memory is left out. -/

namespace Xv6Container.Memory

open Lib

export Containers (Page Slot Stop NCONT MCONT)

abbrev PGSIZE : ℕ := 4096
abbrev KERNBASE : ℕ := 0x80000000
abbrev PHYSTOP : ℕ := 0xE000000
abbrev DEVSPACE : ℕ := 0xFE000000
abbrev UINT : ℕ := 0x100000000
abbrev NUPDE : ℕ := 512
abbrev NPTENTRIES : ℕ := 1024

/-! ### Physical memory -/

/-- `kmem`, and the symbol `end` of the kernel image. -/
structure Kmem where
  freelist : List Page
  kernelEnd : ℕ

abbrev Run := EStateM Stop Kmem

def V2P (a : ℕ) : ℕ := (a + (UINT - KERNBASE)) % UINT

def kalloc : Run (Option Page) := do
  match (← get).freelist with
  | [] => return none
  | r :: next =>
    modify fun m => { m with freelist := next }
    return some r

def kfree (v : Page) : Run Unit := do
  if v % PGSIZE ≠ 0 ∨ v < (← get).kernelEnd ∨ V2P v ≥ PHYSTOP then throw (.panic "kfree")
  else modify fun m => { m with freelist := v :: m.freelist }

/-! ### Page tables -/

/-- A present entry: the kernel address of its page, `PTE_W` and `PTE_U`. -/
structure Pte where
  mem : Page
  writable : Bool
  user : Bool

structure PageTable where
  page : Page
  pte : Fin NPTENTRIES → Option Pte

structure PageDir where
  page : Page
  user : Fin NUPDE → Option PageTable
  kernel : Fin NUPDE → Option Page

/-- `PDX` of a user address. -/
def PDX (va : ℕ) : Fin NUPDE := ⟨va / 0x400000 % NUPDE, Nat.mod_lt _ (by decide)⟩

def PTX (va : ℕ) : Fin NPTENTRIES := ⟨va / PGSIZE % NPTENTRIES, Nat.mod_lt _ (by decide)⟩

def PGROUNDUP (sz : ℕ) : ℕ := (sz + (PGSIZE - 1)) % UINT / PGSIZE * PGSIZE

namespace PageDir

def entry (d : PageDir) (l : Fin NUPDE × Fin NPTENTRIES) : Option Pte :=
  (d.user l.1).bind fun t => t.pte l.2

def setTable (d : PageDir) (i : Fin NUPDE) (t : Option PageTable) : PageDir :=
  { d with user := Function.update d.user i t }

/-- `*pte = x`. -/
def setEntry (d : PageDir) (l : Fin NUPDE × Fin NPTENTRIES) (x : Option Pte) : PageDir :=
  d.setTable l.1 ((d.user l.1).map fun t => { t with pte := Function.update t.pte l.2 x })

def setKernel (d : PageDir) (i : Fin NUPDE) (pgtab : Page) : PageDir :=
  { d with kernel := Function.update d.kernel i (some pgtab) }

end PageDir

/-- The place of the entry of a user address. -/
def walkpgdir (d : PageDir) (va : ℕ) (alloc : Bool) :
    Run (PageDir × Option (Fin NUPDE × Fin NPTENTRIES)) := do
  if va ≥ KERNBASE then throw .disabled
  else
    match d.user (PDX va) with
    | some _ => return (d, some (PDX va, PTX va))
    | none =>
      if alloc then
        match ← kalloc with
        | none => return (d, none)
        | some pgtab => return (d.setTable (PDX va) (some ⟨pgtab, fun _ => none⟩),
            some (PDX va, PTX va))
      else return (d, none)

/-- `mappages` for one page. -/
def mappages (d : PageDir) (va : ℕ) (pte : Pte) : Run (PageDir × Bool) := do
  match ← walkpgdir d va true with
  | (d, none) => return (d, false)
  | (d, some l) =>
    if (d.entry l).isSome then throw (.panic "remap")
    else return (d.setEntry l (some pte), true)

/-- The loop of `deallocuvm`. -/
def deallocLoop : ℕ → PageDir → ℕ → ℕ → Run PageDir
  | 0, d, _, _ => return d
  | fuel + 1, d, a, oldsz => do
    if a < oldsz then
      match ← walkpgdir d a false with
      | (_, none) => deallocLoop fuel d ((a / 0x400000 + 1) * 0x400000) oldsz
      | (_, some l) =>
        match d.entry l with
        | none => deallocLoop fuel d (a + PGSIZE) oldsz
        | some pte =>
          if V2P pte.mem = 0 then throw (.panic "kfree")
          else
            kfree pte.mem
            deallocLoop fuel (d.setEntry l none) (a + PGSIZE) oldsz
    else return d

def deallocuvm (d : PageDir) (oldsz newsz : ℕ) : Run (PageDir × ℕ) := do
  if newsz ≥ oldsz then return (d, oldsz)
  else
    let d ← deallocLoop (oldsz / PGSIZE + 1) d (PGROUNDUP newsz) oldsz
    return (d, newsz)

def freevm (d : PageDir) : Run Unit := do
  let (d, _) ← deallocuvm d KERNBASE 0
  ((List.finRange NUPDE).filterMap fun i => (d.user i).map PageTable.page).forM kfree
  ((List.finRange NUPDE).filterMap d.kernel).forM kfree
  kfree d.page

/-- The entries of the page directory for the ranges of `kmap`. -/
def kmap : List (Fin NUPDE) := (List.finRange NUPDE).filter fun i =>
  i.val * 0x400000 < PHYSTOP ∨ DEVSPACE ≤ KERNBASE + i.val * 0x400000

/-- `mappages` for the kernel: the page tables that are not there yet. -/
def mapKernel (d : PageDir) : List (Fin NUPDE) → Run (PageDir × Bool)
  | [] => return (d, true)
  | i :: is => do
    if (d.kernel i).isSome then mapKernel d is
    else
      match ← kalloc with
      | none => return (d, false)
      | some pgtab => mapKernel (d.setKernel i pgtab) is

def setupkvm : Run (Option PageDir) := do
  match ← kalloc with
  | none => return none
  | some page =>
    match ← mapKernel ⟨page, fun _ => none, fun _ => none⟩ kmap with
    | (d, true) => return some d
    | (d, false) =>
      freevm d
      return none

/-- The loop of `allocuvm`; the size is 0 when memory runs out. -/
def allocLoop : ℕ → PageDir → ℕ → ℕ → ℕ → Run (PageDir × ℕ)
  | 0, d, _, _, newsz => return (d, newsz)
  | fuel + 1, d, a, oldsz, newsz => do
    if a < newsz then
      match ← kalloc with
      | none =>
        let (d, _) ← deallocuvm d newsz oldsz
        return (d, 0)
      | some mem =>
        match ← mappages d a ⟨mem, true, true⟩ with
        | (d, true) => allocLoop fuel d (a + PGSIZE) oldsz newsz
        | (d, false) =>
          let (d, _) ← deallocuvm d newsz oldsz
          kfree mem
          return (d, 0)
    else return (d, newsz)

def allocuvm (d : PageDir) (oldsz newsz : ℕ) : Run (PageDir × ℕ) :=
  if newsz ≥ KERNBASE then return (d, 0)
  else if newsz < oldsz then return (d, oldsz)
  else allocLoop (newsz / PGSIZE + 1) d (PGROUNDUP oldsz) oldsz newsz

/-- The loop of `copyuvm`. -/
def copyLoop (pgdir : PageDir) : ℕ → PageDir → ℕ → ℕ → Run (Option PageDir)
  | 0, d, _, _ => return some d
  | fuel + 1, d, i, sz => do
    if i < sz then
      match ← walkpgdir pgdir i false with
      | (_, none) => throw (.panic "copyuvm: pte should exist")
      | (_, some l) =>
        match pgdir.entry l with
        | none => throw (.panic "copyuvm: page not present")
        | some pte =>
          match ← kalloc with
          | none =>
            freevm d
            return none
          | some mem =>
            match ← mappages d i { pte with mem := mem } with
            | (d, true) => copyLoop pgdir fuel d (i + PGSIZE) sz
            | (d, false) =>
              kfree mem
              freevm d
              return none
    else return some d

def copyuvm (pgdir : PageDir) (sz : ℕ) : Run (Option PageDir) := do
  match ← setupkvm with
  | none => return none
  | some d => copyLoop pgdir (sz / PGSIZE + 1) d 0 sz

/-! ### `growproc` and `exec` -/

/-- `sz + n` as a `uint`. -/
def addSize (sz : ℕ) (n : ℤ) : ℕ := ((sz + n) % UINT).toNat

/-- `growproc`; the size is `none` when it returns -1. -/
def growproc (d : PageDir) (sz : ℕ) (n : ℤ) : Run (PageDir × Option ℕ) := do
  if n > 0 then
    let (d, sz) ← allocuvm d sz (addSize sz n)
    return (d, if sz = 0 then none else some sz)
  else if n < 0 then
    let (d, sz) ← deallocuvm d sz (addSize sz n)
    return (d, if sz = 0 then none else some sz)
  else return (d, some sz)

structure Proghdr where
  load : Bool
  vaddr : ℕ
  filesz : ℕ
  memsz : ℕ

/-- A program header and what `readi` says: `hdr` is `none` when the header cannot be read,
and `loaded i` tells whether the page at offset `i` can. -/
structure Segment where
  hdr : Option Proghdr
  loaded : ℕ → Bool

/-- What `exec` finds: the segments of an ELF file, or `none`, and whether the arguments fit
on the stack. -/
structure Program where
  segments : Option (List Segment)
  arguments : Bool

def loadLoop (d : PageDir) (addr sz : ℕ) (loaded : ℕ → Bool) : ℕ → ℕ → Run Bool
  | 0, _ => return true
  | fuel + 1, i => do
    if i < sz then
      match ← walkpgdir d (addr + i) false with
      | (_, none) => throw (.panic "loaduvm: address should exist")
      | (_, some _) =>
        if loaded i then loadLoop d addr sz loaded fuel (i + PGSIZE) else return false
    else return true

def loaduvm (d : PageDir) (addr sz : ℕ) (loaded : ℕ → Bool) : Run Bool := do
  if addr % PGSIZE ≠ 0 then throw (.panic "loaduvm: addr must be page aligned")
  else loadLoop d addr sz loaded (sz / PGSIZE + 1) 0

/-- The loop of `exec` over the program headers; `none` is `goto bad`. -/
def loadSegments (d : PageDir) (sz : ℕ) : List Segment → Run (PageDir × Option ℕ)
  | [] => return (d, some sz)
  | seg :: rest => do
    match seg.hdr with
    | none => return (d, none)
    | some ph =>
      if ph.load = false then loadSegments d sz rest
      else if ph.memsz < ph.filesz then return (d, none)
      else if (ph.vaddr + ph.memsz) % UINT < ph.vaddr then return (d, none)
      else
        let (d, sz) ← allocuvm d sz ((ph.vaddr + ph.memsz) % UINT)
        if sz = 0 then return (d, none)
        else if ph.vaddr % PGSIZE ≠ 0 then return (d, none)
        else if ← loaduvm d ph.vaddr ph.filesz seg.loaded then loadSegments d sz rest
        else return (d, none)

def clearpteu (d : PageDir) (uva : ℕ) : Run PageDir := do
  match ← walkpgdir d uva false with
  | (_, none) => throw (.panic "clearpteu")
  | (_, some l) => return d.setEntry l ((d.entry l).map fun pte => { pte with user := false })

/-- `exec` with the page table it replaces; `none` is a return of -1. -/
def exec (oldpgdir : PageDir) (prog : Program) : Run (Option (PageDir × ℕ)) := do
  match prog.segments with
  | none => return none
  | some segments =>
    match ← setupkvm with
    | none => return none
    | some d =>
      match ← loadSegments d 0 segments with
      | (d, none) =>
        freevm d
        return none
      | (d, some sz) =>
        -- two pages at the next page boundary, the lower one inaccessible
        let (d, sz) ← allocuvm d (PGROUNDUP sz) ((PGROUNDUP sz + 2 * PGSIZE) % UINT)
        if sz = 0 then
          freevm d
          return none
        else
          let d ← clearpteu d (sz - 2 * PGSIZE)
          if prog.arguments then
            freevm oldpgdir
            return some (d, sz)
          else
            freevm d
            return none

end Xv6Container.Memory
