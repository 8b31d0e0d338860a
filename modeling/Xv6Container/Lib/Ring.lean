import Mathlib.Logic.Function.Basic
import Mathlib.Data.Fin.Basic
import Mathlib.Algebra.Ring.Nat

/-! Ring buffers with free-running counters: `head` and `tail` count what has been taken and put
modulo `2 ^ w`, and are reduced modulo the number of cells `N` where a cell is chosen. If `N`
divides `2 ^ w` and is less, a wrap of the counters cannot be seen: the buffer is a queue of at
most `N` elements. -/

namespace Xv6Container.Lib

variable {w N : ℕ} [NeZero N] {α : Type*}

structure Ring (w N : ℕ) (α : Type*) where
  data : Fin N → α
  head : BitVec w
  tail : BitVec w

namespace Ring

/-- The cell that a counter stands for. -/
def slot (N : ℕ) [NeZero N] (i : BitVec w) : Fin N := Fin.ofNat N i.toNat

def count (r : Ring w N α) : ℕ := (r.tail - r.head).toNat

def put (r : Ring w N α) (x : α) : Ring w N α :=
  { r with data := Function.update r.data (slot N r.tail) x, tail := r.tail + 1 }

def first (r : Ring w N α) : α := r.data (slot N r.head)

def drop (r : Ring w N α) : Ring w N α := { r with head := r.head + 1 }

/-- Take the last element back. -/
def unput (r : Ring w N α) : Ring w N α := { r with tail := r.tail - 1 }

def last (r : Ring w N α) : α := r.data (slot N (r.tail - 1))

/-- The queue. -/
def contents (r : Ring w N α) : List α :=
  (List.range r.count).map fun k => r.data (slot N (r.head + BitVec.ofNat w k))

@[simp] theorem length_contents (r : Ring w N α) : r.contents.length = r.count := by
  rw [contents, List.length_map, List.length_range]

/-! ### Counters -/

omit [NeZero N] in
theorem tail_eq (r : Ring w N α) : r.tail = r.head + BitVec.ofNat w r.count := by
  rw [count, BitVec.ofNat_toNat, BitVec.setWidth_eq, BitVec.add_comm, BitVec.sub_add_cancel]

omit [NeZero N] in
theorem count_eq {r : Ring w N α} {k : ℕ} (hk : k < 2 ^ w) :
    r.count = k ↔ r.tail = r.head + BitVec.ofNat w k := by
  constructor
  · rintro rfl
    exact r.tail_eq
  · intro h
    rw [count, h, BitVec.add_comm, BitVec.add_sub_cancel, BitVec.toNat_ofNat, Nat.mod_eq_of_lt hk]

omit [NeZero N] in
theorem count_eq_zero {r : Ring w N α} : r.count = 0 ↔ r.head = r.tail := by
  rw [count_eq (Nat.two_pow_pos w), eq_comm]
  show _ + 0#w = _ ↔ _
  rw [BitVec.add_zero]

theorem count_put {r : Ring w N α} (h : r.count + 1 < 2 ^ w) (x : α) :
    (r.put x).count = r.count + 1 := by
  rw [count_eq h, BitVec.ofNat_add, ← BitVec.add_assoc]
  show r.tail + 1#w = r.head + BitVec.ofNat w r.count + 1#w
  rw [← tail_eq]

omit [NeZero N] in
theorem count_drop {r : Ring w N α} (h : r.count ≠ 0) : r.drop.count + 1 = r.count := by
  obtain ⟨k, hk⟩ := Nat.exists_eq_add_one_of_ne_zero h
  have hlt : r.count < 2 ^ w := (r.tail - r.head).isLt
  have htail := r.tail_eq
  rw [hk, Nat.add_comm, BitVec.ofNat_add, ← BitVec.add_assoc] at htail
  rw [hk, (count_eq (by omega)).2 htail]

omit [NeZero N] in
theorem count_unput {r : Ring w N α} (h : r.count ≠ 0) : r.unput.count + 1 = r.count := by
  obtain ⟨k, hk⟩ := Nat.exists_eq_add_one_of_ne_zero h
  have hlt : r.count < 2 ^ w := (r.tail - r.head).isLt
  have htail := r.tail_eq
  rw [hk, BitVec.ofNat_add, ← BitVec.add_assoc] at htail
  have hcount : r.unput.count = k := by
    rw [count_eq (by omega)]
    show r.tail - 1#w = r.head + _
    rw [htail]
    exact BitVec.add_sub_cancel ..
  rw [hcount, hk]

/-! ### The queue -/

theorem slot_add (hN : N ∣ 2 ^ w) (i : BitVec w) (k : ℕ) :
    slot N (i + BitVec.ofNat w k) = Fin.ofNat N (i.toNat + k) := by
  apply Fin.ext
  simp only [slot, Fin.val_ofNat, BitVec.toNat_add, BitVec.toNat_ofNat]
  rw [Nat.mod_mod_of_dvd _ hN, Nat.add_mod, Nat.mod_mod_of_dvd _ hN, ← Nat.add_mod]

/-- Cells less than a round apart differ. -/
theorem slot_ne (hN : N ∣ 2 ^ w) (i : BitVec w) {j k : ℕ} (hjk : j < k) (hk : k < j + N) :
    slot N (i + BitVec.ofNat w j) ≠ slot N (i + BitVec.ofNat w k) := by
  rw [slot_add hN, slot_add hN]
  intro h
  have hmod : (i.toNat + j) % N = (i.toNat + k) % N := congrArg Fin.val h
  have hj := Nat.div_add_mod (i.toNat + j) N
  have hk := Nat.div_add_mod (i.toNat + k) N
  have hround : N * ((i.toNat + j) / N) < N * ((i.toNat + k) / N) := by omega
  have hnext := Nat.mul_le_mul_left N (Nat.lt_of_mul_lt_mul_left hround)
  rw [Nat.mul_succ] at hnext
  omega

theorem contents_put {r : Ring w N α} (hN : N ∣ 2 ^ w) (h : r.count < N) (hw : N < 2 ^ w) (x : α) :
    (r.put x).contents = r.contents ++ [x] := by
  have hcell : slot N r.tail = slot N (r.head + BitVec.ofNat w r.count) := by rw [← tail_eq]
  rw [contents, count_put (by omega), List.range_succ, List.map_append, List.map_singleton]
  congr 1
  · refine List.map_congr_left fun k hk => ?_
    have hk := List.mem_range.1 hk
    show Function.update r.data (slot N r.tail) x _ = _
    rw [hcell]
    exact Function.update_of_ne (slot_ne hN r.head hk (by omega)) ..
  · show [Function.update r.data (slot N r.tail) x _] = _
    rw [hcell]
    congr 1
    exact Function.update_self ..

theorem contents_drop {r : Ring w N α} (h : r.count ≠ 0) :
    r.contents = r.first :: r.drop.contents := by
  rw [contents, ← count_drop h, List.range_succ_eq_map, List.map_cons, List.map_map]
  congr 1
  · show r.data (slot N (r.head + 0#w)) = _
    rw [BitVec.add_zero]
    rfl
  · refine List.map_congr_left fun k _ => ?_
    show r.data _ = r.data _
    rw [Nat.succ_eq_add_one, Nat.add_comm, BitVec.ofNat_add, ← BitVec.add_assoc]
    rfl

theorem contents_unput {r : Ring w N α} (h : r.count ≠ 0) :
    r.contents = r.unput.contents ++ [r.last] := by
  have hcount := count_unput h
  have hlast : r.tail - 1#w = r.head + BitVec.ofNat w r.unput.count := r.unput.tail_eq
  rw [contents, ← hcount, List.range_succ, List.map_append, List.map_singleton, last]
  show _ ++ [r.data (slot N _)] = _ ++ [r.data (slot N (r.tail - 1#w))]
  rw [hlast]
  rfl

theorem count_split {h m t : BitVec w} (hm : (m - h).toNat ≤ (t - h).toNat) :
    (t - h).toNat = (m - h).toNat + (t - m).toNat := by
  have hsub : t - m = (t - h) - (m - h) := by
    rw [BitVec.sub_sub, BitVec.add_comm h, BitVec.sub_add_cancel]
  rw [hsub, BitVec.toNat_sub_of_le hm]
  omega

/-- A counter on the way from the head to the tail splits the queue. -/
theorem contents_split {d : Fin N → α} {h m t : BitVec w} (hm : (m - h).toNat ≤ (t - h).toNat) :
    (⟨d, h, t⟩ : Ring w N α).contents =
      (⟨d, h, m⟩ : Ring w N α).contents ++ (⟨d, m, t⟩ : Ring w N α).contents := by
  have hmid : m = h + BitVec.ofNat w (m - h).toNat := (⟨d, h, m⟩ : Ring w N α).tail_eq
  simp only [contents, count]
  rw [count_split hm, List.range_add, List.map_append, List.map_map]
  congr 1
  refine List.map_congr_left fun k _ => ?_
  show d _ = d _
  congr 2
  calc h + BitVec.ofNat w ((m - h).toNat + k)
      = h + BitVec.ofNat w (m - h).toNat + BitVec.ofNat w k := by
        rw [BitVec.ofNat_add, BitVec.add_assoc]
    _ = m + BitVec.ofNat w k := by rw [← hmid]

end Ring

end Xv6Container.Lib
