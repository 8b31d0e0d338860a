import Xv6Container.Lib.Links
import Mathlib.Data.Nat.Basic

/-! The user allocator of `umalloc.c`. Blocks begin with a header of one unit, 8 bytes; the free ones
stand on a circular list that starts at the static header `base`. Addresses are byte addresses and
a header is written at its first byte. `sbrk` is not part of the allocator: its results are given to
the calls. -/

namespace Xv6Container.Malloc

open Function Lib

structure Heap where
  /-- `p->s.ptr` -/
  ptr : ℕ → ℕ
  /-- `p->s.size`, in units -/
  size : ℕ → ℕ
  /-- Null before the first call. -/
  freep : Option ℕ
  /-- The end of the memory that `sbrk` has returned. -/
  brk : ℕ
  /-- What `sbrk` has returned, in units. -/
  units : ℕ

namespace Heap

def setPtr (h : Heap) (p q : ℕ) : Heap := { h with ptr := update h.ptr p q }

def setSize (h : Heap) (p n : ℕ) : Heap := { h with size := update h.size p n }

/-- `p + p->s.size` -/
def limit (h : Heap) (p : ℕ) : ℕ := p + 8 * h.size p

end Heap

/-! ### free -/

/-- The tests of the loop of `free` at `p`. -/
def Place (h : Heap) (bp p : ℕ) : Prop :=
  (p < bp ∧ bp < h.ptr p) ∨ (h.ptr p ≤ p ∧ (p < bp ∨ bp < h.ptr p))

instance (h : Heap) (bp : ℕ) : DecidablePred (Place h bp) := fun _ =>
  inferInstanceAs (Decidable (_ ∨ _))

/-- `bp` takes the free block after it. -/
def joinUpper (h : Heap) (bp p : ℕ) : Heap :=
  if h.limit bp = h.ptr p then
    let h := h.setSize bp (h.size bp + h.size (h.ptr p))
    h.setPtr bp (h.ptr (h.ptr p))
  else h.setPtr bp (h.ptr p)

/-- `p` takes `bp`, or leads to it. -/
def joinLower (h : Heap) (bp p : ℕ) : Heap :=
  if h.limit p = bp then
    let h := h.setSize p (h.size p + h.size bp)
    h.setPtr p (h.ptr bp)
  else h.setPtr p bp

@[simp] theorem joinUpper_brk (h : Heap) (bp p : ℕ) : (joinUpper h bp p).brk = h.brk := by
  rw [joinUpper]
  split_ifs <;> rfl

@[simp] theorem joinUpper_units (h : Heap) (bp p : ℕ) : (joinUpper h bp p).units = h.units := by
  rw [joinUpper]
  split_ifs <;> rfl

@[simp] theorem joinLower_brk (h : Heap) (bp p : ℕ) : (joinLower h bp p).brk = h.brk := by
  rw [joinLower]
  split_ifs <;> rfl

@[simp] theorem joinLower_units (h : Heap) (bp p : ℕ) : (joinLower h bp p).units = h.units := by
  rw [joinLower]
  split_ifs <;> rfl

/-- `free(ap)`, walking `fuel` steps of the list at most. The result is missing if the walk goes on,
or if there is no list. -/
def free (fuel : ℕ) (h : Heap) (ap : ℕ) : Option Heap := do
  let bp := ap - 8
  let p ← walk h.ptr (Place h bp) fuel (← h.freep)
  let h := joinLower (joinUpper h bp p) bp p
  return { h with freep := some p }

/-! ### malloc -/

/-- `sbrk(8 * nu)` has returned `p`. -/
def sbrk (h : Heap) (nu p : ℕ) : Heap := { h with brk := p + 8 * nu, units := h.units + nu }

/-- `morecore(nu)`, with what `sbrk` returns: an address, or nothing if it fails. -/
def morecore (fuel : ℕ) (h : Heap) (nu : ℕ) (r : Option ℕ) : Option (Heap × Option ℕ) :=
  let nu := if nu < 4096 then 4096 else nu
  match r with
  | none => some (h, none)
  | some hp => do
    let h ← free fuel ((sbrk h nu hp).setSize hp nu) (hp + 8)
    return (h, h.freep)

/-- `malloc` has found `p`, the block after `prevp`, with `nunits` or more. -/
def take (h : Heap) (nunits prevp p : ℕ) : Heap × ℕ :=
  if h.size p = nunits then
    ({ h.setPtr prevp (h.ptr p) with freep := some prevp }, p + 8)
  else
    let h := h.setSize p (h.size p - nunits)
    let p := h.limit p
    ({ h.setSize p nunits with freep := some prevp }, p + 8)

/-- The loop of `malloc`, for `fuel` steps at most, and what the calls of `sbrk` return. -/
def mallocLoop (nunits : ℕ) : ℕ → List (Option ℕ) → Heap → ℕ → ℕ → Option (Heap × Option ℕ)
  | 0, _, _, _, _ => none
  | fuel + 1, rs, h, prevp, p =>
    if nunits ≤ h.size p then
      let (h, ap) := take h nunits prevp p
      some (h, some ap)
    else if h.freep = some p then
      match rs with
      | [] => none
      | r :: rs =>
        match morecore fuel h nunits r with
        | none => none
        | some (h, none) => some (h, none)
        | some (h, some p) => mallocLoop nunits fuel rs h p (h.ptr p)
    else mallocLoop nunits fuel rs h p (h.ptr p)

/-- The units for a request and the header, in 32 bits. -/
def nunits (nbytes : ℕ) : ℕ := (nbytes + 8 - 1) % 2 ^ 32 / 8 + 1

/-- The first call makes the list of `base` alone. -/
def start (base : ℕ) (h : Heap) : Heap × ℕ :=
  match h.freep with
  | some prevp => (h, prevp)
  | none => ({ (h.setPtr base base).setSize base 0 with freep := some base }, base)

def malloc (base fuel : ℕ) (h : Heap) (nbytes : ℕ) (rs : List (Option ℕ)) :
    Option (Heap × Option ℕ) :=
  let (h, prevp) := start base h
  mallocLoop (nunits nbytes) fuel rs h prevp (h.ptr prevp)

/-! ### A program -/

/-- The heap, and the blocks that the program has: what `malloc` returned, and the request. -/
structure State where
  heap : Heap
  live : List (ℕ × ℕ)

inductive Act
  /-- A request, and what `sbrk` would return. -/
  | malloc (nbytes : ℕ) (r : Option ℕ)
  | free (b : ℕ × ℕ)
  /-- The program writes to its blocks. -/
  | write (ptr size : ℕ → ℕ)

/-- The argument of `sbrk` for a request is an `int`, and memory is given in order; what is freed is
live; what is written is in the live blocks, so that headers outside of them stay. -/
def Allowed (s : State) : Act → Prop
  | .malloc nbytes r =>
    8 * max 4096 ((nbytes + 7) / 8 + 1) < 2 ^ 31 ∧ ∀ p, r = some p → s.heap.brk ≤ p
  | .free b => b ∈ s.live
  | .write ptr size => ∀ p, (∀ b ∈ s.live, p + 8 ≤ b.1 ∨ b.1 + b.2 ≤ p) →
      ptr p = s.heap.ptr p ∧ size p = s.heap.size p

/-- More steps than any loop takes. -/
def fuel (h : Heap) : ℕ := 2 * h.units + 8

/-- A step, missing if the call does not return. -/
def step (base : ℕ) (s : State) : Act → Option State
  | .malloc nbytes r =>
    match malloc base (fuel s.heap) s.heap nbytes [r] with
    | none => none
    | some (h, none) => some { s with heap := h }
    | some (h, some ap) => some ⟨h, (ap, nbytes) :: s.live⟩
  | .free b => (free (fuel s.heap) s.heap b.1).map fun h => ⟨h, s.live.erase b⟩
  | .write ptr size => some { s with heap := { s.heap with ptr, size } }

/-- Runs from a state in which the allocator has not been called. -/
inductive Reach (base : ℕ) : State → Prop
  | start {h : Heap} (hbase : base + 8 ≤ h.brk) (hfreep : h.freep = none) (hunits : h.units = 0) :
    Reach base ⟨h, []⟩
  | step {s t : State} {a : Act} (hs : Reach base s) (ha : Allowed s a)
      (ht : step base s a = some t) : Reach base t

end Xv6Container.Malloc
