import Xv6Container.Malloc.Requests
import Xv6Container.Memory.Vm

/-! `malloc` with the system call below it: `sys_sbrk` and `growproc`, of which only the sizes are
kept. The units of a request become bytes in 32 bits, and `sbrk` takes them for an `int`. The memory
that the free blocks cover comes from `sbrk`, and so does what `malloc` cuts from them. -/

namespace Xv6Container.Malloc

open Function Lib
open Memory (KERNBASE UINT addSize)

/-! ### Sizes -/

/-- A `uint` as an `int`. -/
def toInt (x : ℕ) : ℤ := if x < 2 ^ 31 then x else (x : ℤ) - 2 ^ 32

/-- The size that `allocuvm` returns; `room` tells whether the kernel has the pages for it. -/
def allocuvm (room : ℕ → ℕ → Bool) (oldsz newsz : ℕ) : ℕ :=
  if newsz ≥ KERNBASE then 0
  else if newsz < oldsz then oldsz
  else if room oldsz newsz then newsz else 0

/-- The size that `deallocuvm` returns. -/
def deallocuvm (oldsz newsz : ℕ) : ℕ := if newsz ≥ oldsz then oldsz else newsz

/-- The size after `growproc`, or nothing when it returns -1. -/
def growproc (room : ℕ → ℕ → Bool) (sz : ℕ) (n : ℤ) : Option ℕ :=
  if n > 0 then
    let sz := allocuvm room sz (addSize sz n)
    if sz = 0 then none else some sz
  else if n < 0 then
    let sz := deallocuvm sz (addSize sz n)
    if sz = 0 then none else some sz
  else some sz

theorem allocLoop_size (fuel : ℕ) (d : Memory.PageDir) (a oldsz newsz : ℕ) (m : Memory.Kmem) :
    Ends (fun r _ => r.2 = 0 ∨ r.2 = newsz) (fun _ => True)
      (Memory.allocLoop fuel d a oldsz newsz m) := by
  induction fuel generalizing d a m with
  | zero => exact ends_ok.2 (.inr rfl)
  | succ fuel ih =>
    rw [Memory.allocLoop]
    split_ifs
    · refine (Ends.any _).bind fun mem m _ => ?_
      cases mem with
      | none => exact (Ends.any _).bind fun _ _ _ => ends_ok.2 (.inl rfl)
      | some mem =>
        refine (Ends.any _).bind fun mapped m _ => ?_
        obtain ⟨d, _ | _⟩ := mapped
        · exact (Ends.any _).bind fun _ _ _ => (Ends.any _).bind fun _ _ _ => ends_ok.2 (.inl rfl)
        · exact ih d (a + Memory.PGSIZE) m
    · exact ends_ok.2 (.inr rfl)

/-- The sizes are those of `growproc` with its page table. -/
theorem growproc_sizes (d : Memory.PageDir) (sz : ℕ) (n : ℤ) (m : Memory.Kmem) :
    Ends (fun r _ => ∃ room, r.2 = growproc room sz n) (fun _ => True)
      (Memory.growproc d sz n m) := by
  unfold Memory.growproc growproc
  split_ifs with hpos hneg
  · have halloc : Ends (fun r _ => ∃ room, r.2 = allocuvm room sz (addSize sz n)) (fun _ => True)
        (Memory.allocuvm d sz (addSize sz n) m) := by
      unfold Memory.allocuvm allocuvm
      split_ifs with hbig hless
      · exact ends_ok.2 ⟨fun _ _ => true, rfl⟩
      · exact ends_ok.2 ⟨fun _ _ => true, rfl⟩
      · refine (allocLoop_size ..).post fun r _ hr => ?_
        obtain h | h := hr
        · exact ⟨fun _ _ => false, h⟩
        · exact ⟨fun _ _ => true, h⟩
    refine halloc.bind fun r _ hr => ends_ok.2 ?_
    obtain ⟨room, hr⟩ := hr
    exact ⟨room, by rw [← hr]⟩
  · have hdealloc : Ends (fun r _ => r.2 = deallocuvm sz (addSize sz n)) (fun _ => True)
        (Memory.deallocuvm d sz (addSize sz n) m) := by
      unfold Memory.deallocuvm deallocuvm
      split_ifs with hle
      · exact ends_ok.2 rfl
      · exact (Ends.any _).bind fun _ _ _ => ends_ok.2 rfl
    refine hdealloc.bind fun r _ hr => ends_ok.2 ⟨fun _ _ => true, ?_⟩
    rw [← hr]
  · exact ends_ok.2 ⟨fun _ _ => true, rfl⟩

/-- A process with the heap, and what the call at hand has asked of `sbrk`. -/
structure Process where
  heap : Heap
  sz : ℕ
  asked : List ℤ

namespace Process

/-- `sys_sbrk`: the old size, or nothing for -1. -/
def sbrk (room : ℕ → ℕ → Bool) (s : Process) (n : ℤ) : Process × Option ℕ :=
  let s := { s with asked := n :: s.asked }
  match growproc room s.sz n with
  | none => (s, none)
  | some sz => ({ s with sz := sz }, some s.sz)

/-- The argument of `sbrk` in `morecore`. -/
def amount (nu : ℕ) : ℤ := toInt (8 * (if nu < 4096 then 4096 else nu) % UINT)

def morecore (room : ℕ → ℕ → Bool) (fuel : ℕ) (s : Process) (nu : ℕ) :
    Option (Process × Option ℕ) :=
  let (s, r) := s.sbrk room (amount nu)
  (Malloc.morecore fuel s.heap nu r).map fun (h, p) => ({ s with heap := h }, p)

/-- The loop of `malloc`, for `fuel` steps at most. -/
def mallocLoop (room : ℕ → ℕ → Bool) (nunits : ℕ) :
    ℕ → Process → ℕ → ℕ → Option (Process × Option ℕ)
  | 0, _, _, _ => none
  | fuel + 1, s, prevp, p =>
    if nunits ≤ s.heap.size p then
      let (h, ap) := take s.heap nunits prevp p
      some ({ s with heap := h }, some ap)
    else if s.heap.freep = some p then
      match s.morecore room fuel nunits with
      | none => none
      | some (s, none) => some (s, none)
      | some (s, some p) => mallocLoop room nunits fuel s p (s.heap.ptr p)
    else mallocLoop room nunits fuel s p (s.heap.ptr p)

def malloc (room : ℕ → ℕ → Bool) (base fuel : ℕ) (s : Process) (nbytes : ℕ) :
    Option (Process × Option ℕ) :=
  let (h, prevp) := start base s.heap
  mallocLoop room (nunits nbytes) fuel { s with heap := h } prevp (h.ptr prevp)

end Process

/-! ### The memory that the blocks cover -/

variable {base p q bp n fuel : ℕ} {h h' : Heap} {S : Set ℕ} {got : ℕ → Prop} {rs : List (Option ℕ)}
  {res : Option ℕ}

/-- The bytes of the block at `a`. -/
def Covered (got : ℕ → Prop) (h : Heap) (a : ℕ) : Prop := ∀ x, a ≤ x → x < h.limit a → got x

/-- A set of headers that the pointers do not leave, with blocks in the memory `got`. -/
structure Covers (got : ℕ → Prop) (h : Heap) (S : Set ℕ) : Prop where
  ptr : ∀ a ∈ S, h.ptr a ∈ S
  bytes : ∀ a ∈ S, Covered got h a

theorem limit_setSize (h : Heap) (a n : ℕ) : (h.setSize a n).limit a = a + 8 * n :=
  congrArg (a + 8 * ·) (update_self ..)

theorem walk_mem {f : ℕ → ℕ} {stop : ℕ → Prop} [DecidablePred stop] (hf : ∀ a ∈ S, f a ∈ S)
    (hp : p ∈ S) (hq : walk f stop n p = some q) : q ∈ S := by
  induction n generalizing p with
  | zero => cases hq
  | succ n ih =>
    rw [walk] at hq
    split_ifs at hq with hstop
    · exact Option.some.inj hq ▸ hp
    · exact ih (hf p hp) hq

namespace Covers

theorem mono {got' : ℕ → Prop} (hc : Covers got h S) (hgot : ∀ x, got x → got' x) :
    Covers got' h S :=
  ⟨hc.ptr, fun a ha x h1 h2 => hgot x (hc.bytes a ha x h1 h2)⟩

theorem setPtr (hc : Covers got h S) (hq : q ∈ S) : Covers got (h.setPtr p q) S := by
  refine ⟨fun a ha => ?_, hc.bytes⟩
  change update h.ptr p q a ∈ S
  by_cases hap : a = p
  · rwa [hap, update_self]
  · rw [update_of_ne hap]
    exact hc.ptr a ha

/-- A block takes one that begins where it ends. -/
theorem setSize (hc : Covers got h S) (hp : p ∈ S) (hq : q ∈ S) (hpq : h.limit p = q) :
    Covers got (h.setSize p (h.size p + h.size q)) S := by
  refine ⟨hc.ptr, fun a ha x h1 h2 => ?_⟩
  by_cases hap : a = p
  · subst hap
    rw [limit_setSize] at h2
    by_cases hx : x < h.limit a
    · exact hc.bytes a ha x h1 hx
    · refine hc.bytes q hq x (by omega) ?_
      rw [Heap.limit] at hpq ⊢
      omega
  · rw [limit_congr (update_of_ne hap ..)] at h2
    exact hc.bytes a ha x h1 h2

/-- A block that is to be freed gets its pointer. -/
theorem extend (hc : Covers got h S) (hbp : Covered got h bp) (hq : q ∈ S) :
    Covers got (h.setPtr bp q) (insert bp S) := by
  constructor
  · intro a ha
    change update h.ptr bp q a ∈ _
    by_cases hab : a = bp
    · rw [hab, update_self]
      exact Set.mem_insert_of_mem bp hq
    · rw [update_of_ne hab]
      exact Set.mem_insert_of_mem bp (hc.ptr a (ha.resolve_left hab))
  · rintro a (rfl | ha)
    · exact hbp
    · exact hc.bytes a ha

theorem joinUpper (hc : Covers got h S) (hbp : Covered got h bp) (hp : p ∈ S) :
    Covers got (joinUpper h bp p) (insert bp S) := by
  have hnext := hc.ptr p hp
  unfold Malloc.joinUpper
  split_ifs with hlimit
  · have hins := hc.extend hbp (hc.ptr _ hnext)
    exact hins.setSize (p := bp) (q := h.ptr p) (Set.mem_insert bp S)
      (Set.mem_insert_of_mem bp hnext) hlimit
  · exact hc.extend hbp hnext

theorem joinLower (hc : Covers got h S) (hp : p ∈ S) (hbp : bp ∈ S) :
    Covers got (joinLower h bp p) S := by
  unfold Malloc.joinLower
  split_ifs with hlimit
  · exact (hc.setSize hp hbp hlimit).setPtr (hc.ptr bp hbp)
  · exact hc.setPtr hbp

/-- `free` gives the list nothing but the block. -/
theorem free (hc : Covers got h S) (hbp : Covered got h bp) (hS : ∀ p, h.freep = some p → p ∈ S)
    (hfree : free fuel h (bp + 8) = some h') :
    Covers got h' (insert bp S) ∧ ∀ p, h'.freep = some p → p ∈ insert bp S := by
  rw [Malloc.free, Nat.add_sub_cancel] at hfree
  simp only [Option.bind_eq_bind, Option.bind_eq_some_iff, Option.pure_def, Option.some.injEq] at hfree
  obtain ⟨q, hq, p, hp, rfl⟩ := hfree
  have hpS := walk_mem hc.ptr (hS q hq) hp
  have hup := hc.joinUpper hbp hpS
  have hlow := hup.joinLower (Set.mem_insert_of_mem bp hpS) (Set.mem_insert bp S)
  refine ⟨⟨hlow.ptr, hlow.bytes⟩, fun p' hp' => ?_⟩
  cases hp'
  exact Set.mem_insert_of_mem bp hpS

/-- What is cut from a block lies in it. -/
theorem take (hc : Covers got h S) (hp : p ∈ S) (hn : n ≤ h.size p) {h' : Heap} {ap prevp : ℕ}
    (htake : take h n prevp p = (h', ap)) : 8 ≤ ap ∧ h'.size (ap - 8) = n ∧ Covered got h' (ap - 8) := by
  unfold Malloc.take at htake
  split_ifs at htake with hsize
  · cases htake
    rw [Nat.add_sub_cancel]
    exact ⟨by omega, hsize, hc.bytes p hp⟩
  · dsimp only at htake
    rw [limit_setSize] at htake
    cases htake
    rw [Nat.add_sub_cancel]
    refine ⟨by omega, update_self .., fun x h1 h2 => hc.bytes p hp x (by omega) ?_⟩
    have hlt : x < p + 8 * (h.size p - n) + 8 * n := h2.trans_eq (limit_setSize ..)
    rw [Heap.limit]
    omega

end Covers

end Xv6Container.Malloc
