import Xv6Container.Lib.Ends
import Xv6Container.Lib.Words
import Xv6Container.Memory.Copyout

/-! Page tables in physical memory: `kalloc.c` and the functions of `vm.c` on the bytes of the pages.
A page directory and its page tables are pages of 1024 words, found and changed by address; memory is
addressed as the kernel does, above `KERNBASE`. The free list is kept as a list, without the link words
that `kfree` writes into the pages. A loop that goes on after a pass for each page of the address space
stops with `loops`, so that a run that returns has ended. -/

namespace Xv6Container.Paging

open Lib
open Memory (PGSIZE KERNBASE PHYSTOP DEVSPACE UINT NPTENTRIES V2P PGROUNDUP)
open Memory.Copyout (PTE_P PTE_U flag PTE_ADDR P2V PDX PTX memmove)

abbrev EXTMEM : ℕ := 0x100000
abbrev KERNLINK : ℕ := KERNBASE + EXTMEM
abbrev PTE_W : ℕ := 0x002

/-- The symbols `data` and `end` of the kernel image, as `kernel.ld` places them. -/
structure Kernel where
  data : ℕ
  kernelEnd : ℕ
  data_aligned : data % PGSIZE = 0
  text_lt : KERNLINK < data
  data_le : data ≤ kernelEnd
  end_le : kernelEnd ≤ KERNBASE + PHYSTOP

inductive Stop where
  | panic (msg : String)
  /-- A loop has made more passes than there are pages. -/
  | loops
  /-- A null pointer is followed. -/
  | null
  deriving DecidableEq

/-- The free pages, and the bytes of physical memory by kernel address. -/
structure Kmem where
  freelist : List ℕ
  mem : ℕ → UInt8

abbrev Run := EStateM Stop Kmem

def load (a : ℕ) : Run ℕ := do return word (← get).mem a

def store (a w : ℕ) : Run Unit := modify fun s => { s with mem := setWord s.mem a w }

def memset (a : ℕ) (v : UInt8) (n : ℕ) : Run Unit :=
  modify fun s => { s with mem := fill s.mem a v n }

/-! ### `kalloc.c` -/

def kalloc : Run (Option ℕ) := do
  match (← get).freelist with
  | [] => return none
  | r :: next =>
    modify fun s => { s with freelist := next }
    return some r

def kfree (k : Kernel) (v : ℕ) : Run Unit := do
  if v % PGSIZE ≠ 0 ∨ v < k.kernelEnd ∨ V2P v ≥ PHYSTOP then throw (.panic "kfree")
  else
    memset v 1 PGSIZE
    modify fun s => { s with freelist := v :: s.freelist }

/-! ### Page tables -/

def PGROUNDDOWN (a : ℕ) : ℕ := a / PGSIZE * PGSIZE

/-- `PGADDR(d, t, o)` -/
def PGADDR (d t o : ℕ) : ℕ := (d <<< 22 ||| t <<< 12 ||| o) % UINT

def PTE_FLAGS (pte : ℕ) : ℕ := pte % PGSIZE

/-- The address of the page table entry of `va`. -/
def walkpgdir (pgdir : ℕ) (va : ℕ) (alloc : Bool) : Run (Option ℕ) := do
  let pde := pgdir + 4 * PDX va
  let w ← load pde
  if flag w PTE_P then return some (P2V (PTE_ADDR w) + 4 * PTX va)
  else if alloc = false then return none
  else
    match ← kalloc with
    | none => return none
    | some pgtab =>
      memset pgtab 0 PGSIZE
      store pde (V2P pgtab ||| PTE_P ||| PTE_W ||| PTE_U)
      return some (pgtab + 4 * PTX va)

/-- The loop of `mappages`. -/
def mapLoop (pgdir : ℕ) (last perm : ℕ) : ℕ → ℕ → ℕ → Run Bool
  | 0, _, _ => throw .loops
  | fuel + 1, a, pa => do
    match ← walkpgdir pgdir a true with
    | none => return false
    | some pte =>
      if flag (← load pte) PTE_P then throw (.panic "remap")
      else
        store pte (pa ||| perm ||| PTE_P)
        if a = last then return true
        else mapLoop pgdir last perm fuel ((a + PGSIZE) % UINT) ((pa + PGSIZE) % UINT)

/-- `mappages(pgdir, va, size, pa, perm)`; the result says whether it returns 0. -/
def mappages (pgdir : ℕ) (va size pa perm : ℕ) : Run Bool :=
  mapLoop pgdir (PGROUNDDOWN ((va + size + (UINT - 1)) % UINT)) perm (UINT / PGSIZE + 1)
    (PGROUNDDOWN va) pa

/-- The loop of `deallocuvm`. -/
def deallocLoop (k : Kernel) (pgdir : ℕ) (oldsz : ℕ) : ℕ → ℕ → Run Unit
  | 0, _ => throw .loops
  | fuel + 1, a => do
    if a < oldsz then
      match ← walkpgdir pgdir a false with
      | none =>
        deallocLoop k pgdir oldsz fuel
          (((PGADDR (PDX a + 1) 0 0 + (UINT - PGSIZE)) % UINT + PGSIZE) % UINT)
      | some pte =>
        let w ← load pte
        if flag w PTE_P then
          if PTE_ADDR w = 0 then throw (.panic "kfree")
          else
            kfree k (P2V (PTE_ADDR w))
            store pte 0
            deallocLoop k pgdir oldsz fuel ((a + PGSIZE) % UINT)
        else deallocLoop k pgdir oldsz fuel ((a + PGSIZE) % UINT)
    else return

def deallocuvm (k : Kernel) (pgdir : ℕ) (oldsz newsz : ℕ) : Run ℕ := do
  if newsz ≥ oldsz then return oldsz
  else
    deallocLoop k pgdir oldsz (UINT / PGSIZE + 1) (PGROUNDUP newsz)
    return newsz

/-- One pass of the loop of `freevm`. -/
def freeTable (k : Kernel) (pgdir : ℕ) (i : ℕ) : Run Unit := do
  let w ← load (pgdir + 4 * i)
  if flag w PTE_P then kfree k (P2V (PTE_ADDR w))

def freevm (k : Kernel) (pgdir : ℕ) : Run Unit := do
  if pgdir = 0 then throw (.panic "freevm: no pgdir")
  else
    let _ ← deallocuvm k pgdir KERNBASE 0
    (List.range NPTENTRIES).forM (freeTable k pgdir)
    kfree k pgdir

/-- An entry of the table `kmap`. -/
structure Kmap where
  virt : ℕ
  phys_start : ℕ
  phys_end : ℕ
  perm : ℕ

def kmap (k : Kernel) : List Kmap :=
  [⟨KERNBASE, 0, EXTMEM, PTE_W⟩,
   ⟨KERNLINK, V2P KERNLINK, V2P k.data, 0⟩,
   ⟨k.data, V2P k.data, PHYSTOP, PTE_W⟩,
   ⟨DEVSPACE, DEVSPACE, 0, PTE_W⟩]

/-- The loop of `setupkvm`. -/
def mapKernel (k : Kernel) (pgdir : ℕ) : List Kmap → Run (Option ℕ)
  | [] => return some pgdir
  | m :: ms => do
    let size := (m.phys_end + (UINT - m.phys_start)) % UINT
    if ← mappages pgdir m.virt size m.phys_start m.perm then mapKernel k pgdir ms
    else
      freevm k pgdir
      return none

def setupkvm (k : Kernel) : Run (Option ℕ) := do
  match ← kalloc with
  | none => return none
  | some pgdir =>
    memset pgdir 0 PGSIZE
    if P2V PHYSTOP > DEVSPACE then throw (.panic "PHYSTOP too high")
    else mapKernel k pgdir (kmap k)

/-- The loop of `allocuvm`. -/
def allocLoop (k : Kernel) (pgdir : ℕ) (oldsz newsz : ℕ) : ℕ → ℕ → Run ℕ
  | 0, _ => throw .loops
  | fuel + 1, a => do
    if a < newsz then
      match ← kalloc with
      | none =>
        let _ ← deallocuvm k pgdir newsz oldsz
        return 0
      | some mem =>
        memset mem 0 PGSIZE
        if ← mappages pgdir a PGSIZE (V2P mem) (PTE_W ||| PTE_U) then
          allocLoop k pgdir oldsz newsz fuel ((a + PGSIZE) % UINT)
        else
          let _ ← deallocuvm k pgdir newsz oldsz
          kfree k mem
          return 0
    else return newsz

def allocuvm (k : Kernel) (pgdir : ℕ) (oldsz newsz : ℕ) : Run ℕ :=
  if newsz ≥ KERNBASE then return 0
  else if newsz < oldsz then return oldsz
  else allocLoop k pgdir oldsz newsz (UINT / PGSIZE + 1) (PGROUNDUP oldsz)

def clearpteu (pgdir : ℕ) (uva : ℕ) : Run Unit := do
  match ← walkpgdir pgdir uva false with
  | none => throw (.panic "clearpteu")
  | some pte => store pte ((← load pte) &&& (UINT - 1 - PTE_U))

/-- The loop of `copyuvm`. -/
def copyLoop (k : Kernel) (pgdir d : ℕ) (sz : ℕ) : ℕ → ℕ → Run (Option ℕ)
  | 0, _ => throw .loops
  | fuel + 1, i => do
    if i < sz then
      match ← walkpgdir pgdir i false with
      | none => throw (.panic "copyuvm: pte should exist")
      | some pte =>
        let w ← load pte
        if flag w PTE_P = false then throw (.panic "copyuvm: page not present")
        else
          match ← kalloc with
          | none =>
            freevm k d
            return none
          | some mem =>
            modify fun s =>
              { s with mem := memmove s.mem mem s.mem (P2V (PTE_ADDR w)) PGSIZE }
            if ← mappages d i PGSIZE (V2P mem) (PTE_FLAGS w) then
              copyLoop k pgdir d sz fuel ((i + PGSIZE) % UINT)
            else
              kfree k mem
              freevm k d
              return none
    else return some d

def copyuvm (k : Kernel) (pgdir : ℕ) (sz : ℕ) : Run (Option ℕ) := do
  match ← setupkvm k with
  | none => return none
  | some d => copyLoop k pgdir d sz (UINT / PGSIZE + 1) 0

/-- `uva2ka`; the result is 0 for a page that the user may not reach. -/
def uva2ka (pgdir : ℕ) (uva : ℕ) : Run ℕ := do
  match ← walkpgdir pgdir uva false with
  | none => throw .null
  | some pte =>
    let w ← load pte
    if flag w PTE_P = false then return 0
    else if flag w PTE_U = false then return 0
    else return P2V (PTE_ADDR w)

/-- The loop of `copyout`, with `len` bytes of `p` from `buf` on to copy. -/
def copyoutLoop (pgdir : ℕ) (p : ℕ → UInt8) : ℕ → ℕ → ℕ → ℕ → Run Bool
  | 0, _, _, _ => throw .loops
  | fuel + 1, va, buf, len => do
    if len > 0 then
      let va0 := PGROUNDDOWN va
      let pa0 ← uva2ka pgdir va0
      if pa0 = 0 then return false
      else
        let n := min (PGSIZE - (va - va0)) len
        modify fun s => { s with mem := memmove s.mem (pa0 + (va - va0)) p buf n }
        copyoutLoop pgdir p fuel ((va0 + PGSIZE) % UINT) (buf + n) (len - n)
    else return true

/-- `copyout(pgdir, va, p, len)`; the result says whether it returns 0. -/
def copyout (pgdir : ℕ) (va : ℕ) (p : ℕ → UInt8) (len : ℕ) : Run Bool :=
  copyoutLoop pgdir p (len + 1) va 0 len

end Xv6Container.Paging
