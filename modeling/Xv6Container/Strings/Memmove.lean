import Xv6Container.Memory.Copyout

/-! The two functions `memmove`: that of `string.c`, which copies backwards where the destination
begins inside of the source, and that of `ulib.c`, which always copies forwards. Pointers are
addresses of 32 bits. -/

namespace Xv6Container.Strings

open Function
open Memory (UINT)
open Memory.Copyout (byteAt)

variable {m m' m'' : ℕ → UInt8} {d s k n a i j : ℕ}

/-! ### The source -/

/-- `++p` -/
def next (p : ℕ) : ℕ := (p + 1) % UINT

/-- `--p` -/
def prev (p : ℕ) : ℕ := if p = 0 then UINT - 1 else p - 1

/-- `while(n-- > 0) *d++ = *s++` -/
def copyLoop : ℕ → (ℕ → UInt8) → ℕ → ℕ → ℕ → UInt8
  | 0, m, _, _ => m
  | n + 1, m, d, s => copyLoop n (update m d (m s)) (next d) (next s)

/-- `while(n-- > 0) *--d = *--s` -/
def backLoop : ℕ → (ℕ → UInt8) → ℕ → ℕ → ℕ → UInt8
  | 0, m, _, _ => m
  | n + 1, m, d, s => backLoop n (update m (prev d) (m (prev s))) (prev d) (prev s)

/-- `memmove` of `string.c`. -/
def memmove (m : ℕ → UInt8) (dst src n : ℕ) : ℕ → UInt8 :=
  if src < dst ∧ (src + n) % UINT > dst then
    backLoop n m ((dst + n) % UINT) ((src + n) % UINT)
  else copyLoop n m dst src

/-- `memmove` of `ulib.c`. -/
def Ulib.memmove (m : ℕ → UInt8) (dst src n : ℕ) : ℕ → UInt8 := copyLoop n m dst src

/-- The destination holds what was in the source, and nothing else has changed. -/
structure Moved (m : ℕ → UInt8) (dst src n : ℕ) (m' : ℕ → UInt8) : Prop where
  bytes : ∀ i < n, m' (byteAt dst i) = m (byteAt src i)
  others : ∀ a, (∀ i < n, a ≠ byteAt dst i) → m' a = m a

theorem Moved.unique (h : Moved m d s n m') (h' : Moved m d s n m'') : m' = m'' := by
  funext a
  by_cases ha : ∀ i < n, a ≠ byteAt d i
  · rw [h.others a ha, h'.others a ha]
  · push Not at ha
    obtain ⟨i, hi, rfl⟩ := ha
    rw [h.bytes i hi, h'.bytes i hi]

/-! ### Addresses -/

theorem UINT_eq : UINT = 2 ^ 31 + 2 ^ 31 := rfl

theorem UINT_pos : 0 < UINT := by decide

theorem byteAt_lt : byteAt d i < UINT := Nat.mod_lt _ UINT_pos

theorem byteAt_zero (hd : d < UINT) : byteAt d 0 = d := Nat.mod_eq_of_lt hd

theorem byteAt_byteAt : byteAt (byteAt d i) j = byteAt d (i + j) := by
  rw [byteAt, byteAt, byteAt, Nat.mod_add_mod, Nat.add_assoc]

theorem next_lt : next d < UINT := Nat.mod_lt _ UINT_pos

theorem byteAt_next : byteAt (next d) i = byteAt d (i + 1) := by
  rw [Nat.add_comm, ← byteAt_byteAt]
  rfl

theorem next_byteAt : next (byteAt s k) = byteAt (next s) k := by
  rw [byteAt_next, ← byteAt_byteAt]
  rfl

theorem prev_byteAt : prev (byteAt d (n + 1)) = byteAt d n := by
  have hnext : byteAt d (n + 1) = next (byteAt d n) := byteAt_byteAt.symm
  rw [hnext, next, prev]
  rcases (Nat.succ_le_of_lt (byteAt_lt (d := d) (i := n))).lt_or_eq with hlt | heq
  · rw [Nat.mod_eq_of_lt hlt, if_neg (Nat.succ_ne_zero _)]
    rfl
  · rw [Nat.succ_eq_add_one] at heq
    rw [heq, Nat.mod_self, if_pos rfl, ← heq, Nat.add_sub_cancel]

theorem byteAt_inj (hi : i < UINT) (hj : j < UINT) (h : byteAt d i = byteAt d j) : i = j := by
  have hmod : i % UINT = j % UINT := Nat.ModEq.add_left_cancel' d h
  rwa [Nat.mod_eq_of_lt hi, Nat.mod_eq_of_lt hj] at hmod

/-- How far the destination is ahead of the source. -/
theorem byteAt_dist (hs : s < UINT) (hd : d < UINT) : byteAt s ((d + (UINT - s)) % UINT) = d := by
  have hsum : s + (d + (UINT - s)) = d + UINT := by omega
  rw [byteAt, Nat.add_mod_mod, hsum, Nat.add_mod_right, Nat.mod_eq_of_lt hd]

/-! ### Copying forwards -/

theorem copyLoop_others (hd : d < UINT) (ha : ∀ i < n, a ≠ byteAt d i) :
    copyLoop n m d s a = m a := by
  induction n generalizing m d s with
  | zero => rfl
  | succ n ih =>
    have hne : a ≠ d := byteAt_zero hd ▸ ha 0 (Nat.succ_pos n)
    rw [copyLoop, ih next_lt fun i hi => ?_, update_of_ne hne]
    rw [byteAt_next]
    exact ha (i + 1) (Nat.succ_lt_succ hi)

/-- The first byte is not written again. -/
theorem copyLoop_first (hd : d < UINT) (hn : n < UINT) :
    copyLoop (n + 1) m d s d = m s := by
  rw [copyLoop, copyLoop_others next_lt fun i hi => ?_, update_self]
  intro heq
  rw [byteAt_next] at heq
  have h0 := byteAt_inj UINT_pos (Nat.lt_of_le_of_lt hi hn) ((byteAt_zero hd).trans heq)
  exact absurd h0.symm (Nat.succ_ne_zero i)

/-- A byte in front of the destination is still there when it is read. -/
theorem copyLoop_ahead (hs : s < UINT) (hk : k < UINT) (hd : d = byteAt s k) (hn : n ≤ UINT)
    (hj : j < n) (hjk : j < k ∨ k = 0) : copyLoop n m d s (byteAt d j) = m (byteAt s j) := by
  induction j generalizing n m d s with
  | zero =>
    cases n with
    | zero => exact absurd hj (Nat.not_lt_zero 0)
    | succ n =>
      have hdlt : d < UINT := hd ▸ byteAt_lt
      rw [byteAt_zero hdlt, byteAt_zero hs, copyLoop_first hdlt hn]
  | succ j ih =>
    cases n with
    | zero => exact absurd hj (Nat.not_lt_zero _)
    | succ n =>
      have hnext : next d = byteAt (next s) k := by rw [hd, next_byteAt]
      have hne : byteAt s (j + 1) ≠ d := by
        intro heq
        have := byteAt_inj (by omega) hk (heq.trans hd)
        omega
      have hread := ih (m := update m d (m s)) next_lt hnext (by omega) (Nat.lt_of_succ_lt_succ hj)
        (by omega)
      rw [byteAt_next, byteAt_next, update_of_ne hne] at hread
      exact hread

/-- A byte behind it has been written over, by the byte that many places in front of it. -/
theorem copyLoop_behind (hs : s < UINT) (hk : k < UINT) (hk0 : 0 < k) (hd : d = byteAt s k)
    (hn : n ≤ UINT) (hj : j < n) (hjk : k ≤ j) :
    copyLoop n m d s (byteAt d j) = copyLoop n m d s (byteAt d (j - k)) := by
  induction n generalizing m d s j with
  | zero => exact absurd hj (Nat.not_lt_zero j)
  | succ n ih =>
    obtain ⟨j, rfl⟩ : ∃ i, j = i + 1 := ⟨j - 1, by omega⟩
    have hdlt : d < UINT := hd ▸ byteAt_lt
    have hnext : next d = byteAt (next s) k := by rw [hd, next_byteAt]
    rcases hjk.lt_or_eq with hlt | heq
    · have hsub : j + 1 - k = j - k + 1 := by omega
      have hsame := ih (m := update m d (m s)) (j := j) next_lt hnext (by omega) (by omega)
        (by omega)
      rw [byteAt_next, byteAt_next] at hsame
      rw [hsub]
      exact hsame
    · have hread := copyLoop_ahead (m := update m d (m s)) (n := n) (j := j) next_lt hk hnext
        (by omega) (by omega) (by omega)
      rw [byteAt_next, byteAt_next, ← heq, ← hd, update_self] at hread
      rw [← heq, Nat.sub_self, byteAt_zero hdlt, copyLoop_first hdlt hn]
      exact hread

/-- Copying forwards is right just when the source repeats itself where the destination begins
inside of it. -/
theorem copyLoop_moved_iff (hs : s < UINT) (hk : k < UINT) (hd : d = byteAt s k) (hn : n ≤ UINT) :
    Moved m d s n (copyLoop n m d s) ↔ ∀ i, i + k < n → m (byteAt d i) = m (byteAt s i) := by
  have hat : ∀ i, byteAt d i = byteAt s (i + k) := by
    intro i
    rw [hd, byteAt_byteAt, Nat.add_comm]
  constructor
  · intro h i hi
    rcases Nat.eq_zero_or_pos k with h0 | h0
    · rw [hat, h0, Nat.add_zero]
    · have hsame := copyLoop_behind (m := m) (j := i + k) hs hk h0 hd hn hi (Nat.le_add_left k i)
      rw [Nat.add_sub_cancel, h.bytes _ hi, h.bytes i (by omega)] at hsame
      rw [hat, hsame]
  · intro h
    refine ⟨fun j => ?_, fun a ha => copyLoop_others (hd ▸ byteAt_lt) ha⟩
    induction j using Nat.strong_induction_on with
    | _ j ih =>
      intro hj
      by_cases hjk : j < k ∨ k = 0
      · exact copyLoop_ahead hs hk hd hn hj hjk
      · have hback : j - k + k = j := by omega
        have hsame := h (j - k) (by omega)
        rw [hat, hback] at hsame
        rw [copyLoop_behind hs hk (by omega) hd hn hj (by omega), ih (j - k) (by omega) (by omega),
          hsame]

/-! ### Copying backwards -/

/-- The destination is ahead of the source: what is read next has not been written. -/
theorem backLoop_moved (hd : d = byteAt s k) (hk : 0 < k) (hn : k + n ≤ UINT) :
    Moved m d s n (backLoop n m (byteAt d n) (byteAt s n)) := by
  induction n generalizing m with
  | zero => exact ⟨fun i hi => absurd hi (Nat.not_lt_zero i), fun _ _ => rfl⟩
  | succ n ih =>
    rw [backLoop, prev_byteAt, prev_byteAt]
    have h := ih (m := update m (byteAt d n) (m (byteAt s n))) (by omega)
    constructor
    case bytes =>
      intro i hi
      rcases (Nat.lt_succ_iff.1 hi).lt_or_eq with hlt | rfl
      · have hne : byteAt s i ≠ byteAt d n := by
          intro heq
          rw [hd, byteAt_byteAt] at heq
          have := byteAt_inj (by omega) (by omega) heq
          omega
        rw [h.bytes i hlt, update_of_ne hne]
      · have hne : ∀ j < i, byteAt d i ≠ byteAt d j := by
          intro j hj heq
          have := byteAt_inj (by omega) (by omega) heq
          omega
        rw [h.others _ hne, update_self]
    case others =>
      intro a ha
      rw [h.others a fun i hi => ha i (Nat.lt_succ_of_lt hi), update_of_ne (ha n (Nat.lt_succ_self n))]

/-! ### The functions -/

/-- The kernel goes backwards only where that is right. -/
theorem memmove_cases (hs : s < UINT) (hd : d < UINT) (hn : n < 2 ^ 31) :
    ¬ (s < d ∧ (s + n) % UINT > d) ∧ memmove m d s n = copyLoop n m d s ∨
      Moved m d s n (memmove m d s n) := by
  have h32 := UINT_eq
  by_cases h : s < d ∧ (s + n) % UINT > d
  · right
    have hsum : s + n < UINT := by
      by_contra hge
      have hwrap : (s + n) % UINT = s + n - UINT := by
        rw [Nat.mod_eq_sub_mod (Nat.le_of_not_lt hge)]
        exact Nat.mod_eq_of_lt (by omega)
      omega
    have hlt : d < s + n := by
      rw [Nat.mod_eq_of_lt hsum] at h
      exact h.2
    have hat : d = byteAt s (d - s) := by
      rw [byteAt, Nat.add_sub_cancel' h.1.le, Nat.mod_eq_of_lt hd]
    rw [memmove, if_pos h]
    exact backLoop_moved hat (by omega) (by omega)
  · exact .inl ⟨h, if_neg h⟩

/-- The kernel's `memmove` on regions inside of the address space, in the form in which the page
tables and the copies of pages use it. -/
theorem memmove_eq (hs : s + n < UINT) (hd : d + n < UINT) (hn : n < 2 ^ 31) :
    memmove m d s n = Memory.Copyout.memmove m d m s n := by
  have hat : ∀ p i, p + n < UINT → i < n → byteAt p i = p + i := by
    intro p i hp hi
    exact Nat.mod_eq_of_lt (by omega)
  have hclosed : Moved m d s n (Memory.Copyout.memmove m d m s n) := by
    constructor
    case bytes =>
      intro i hi
      rw [hat d i hd hi, hat s i hs hi, Memory.Copyout.memmove, if_pos (by omega),
        Nat.add_sub_cancel_left]
    case others =>
      intro a ha
      refine if_neg fun hin => ?_
      have hne := ha (a - d) (by omega)
      rw [hat d _ hd (by omega)] at hne
      omega
  suffices h : Moved m d s n (memmove m d s n) from h.unique hclosed
  have hd' : d < UINT := by omega
  have hs' : s < UINT := by omega
  obtain ⟨hback, hforward⟩ | h := memmove_cases (m := m) hs' hd' hn
  · rw [hforward, copyLoop_moved_iff hs' (Nat.mod_lt _ UINT_pos) (byteAt_dist hs' hd').symm
      (by omega)]
    intro i hi
    rw [Nat.mod_eq_of_lt hs, not_and, not_lt] at hback
    rcases Nat.lt_trichotomy d s with hlt | rfl | hlt
    · rw [Nat.mod_eq_of_lt (by omega)] at hi
      omega
    · rfl
    · have hdist : (d + (UINT - s)) % UINT = d - s := by
        have hsum : d + (UINT - s) = d - s + UINT := by omega
        rw [hsum, Nat.add_mod_right, Nat.mod_eq_of_lt (by omega)]
      have := hback hlt
      omega
  · exact h

/-- The two functions leave the same memory, with what was in the source in the destination and
nothing else changed, just when the part of the source in which the destination lies repeats the
bytes that are that far in front of it. -/
theorem memmoves_agree_iff (m : ℕ → UInt8) {dst src n : ℕ} (hdst : dst < UINT) (hsrc : src < UINT)
    (hn : n < 2 ^ 31) :
    (Ulib.memmove m dst src n = memmove m dst src n ∧
      Moved m dst src n (Ulib.memmove m dst src n)) ↔
      ∀ i, i + (dst + (UINT - src)) % UINT < n → m (byteAt dst i) = m (byteAt src i) := by
  have h32 := UINT_eq
  have hiff := copyLoop_moved_iff (m := m) hsrc (Nat.mod_lt (dst + (UINT - src)) UINT_pos)
    (byteAt_dist hsrc hdst).symm (by omega : n ≤ UINT)
  rw [Ulib.memmove, ← hiff]
  constructor
  · exact And.right
  · intro h
    obtain ⟨-, hforward⟩ | hmoved := memmove_cases (m := m) hsrc hdst hn
    · exact ⟨hforward.symm, h⟩
    · exact ⟨h.unique hmoved, h⟩

/-- Two bytes are moved up by one. -/
theorem memmoves_agree_iff_two : let m := fun a => UInt8.ofNat a
    (Ulib.memmove m 11 10 2 = memmove m 11 10 2 ∧ Moved m 11 10 2 (Ulib.memmove m 11 10 2)) ↔
      ∀ i, i + (11 + (UINT - 10)) % UINT < 2 → m (byteAt 11 i) = m (byteAt 10 i) :=
  memmoves_agree_iff (fun a => UInt8.ofNat a) (by decide) (by decide) (by decide)

/-- The library leaves the first byte in all three places. -/
theorem memmoves_differ : let m := fun a => UInt8.ofNat a
    Ulib.memmove m 11 10 2 12 = 10 ∧ memmove m 11 10 2 12 = 11 ∧
      ¬ (Ulib.memmove m 11 10 2 = memmove m 11 10 2 ∧
        Moved m 11 10 2 (Ulib.memmove m 11 10 2)) := by
  intro m
  have hulib : Ulib.memmove m 11 10 2 12 = 10 := by decide
  have hkernel : memmove m 11 10 2 12 = 11 := by decide
  refine ⟨hulib, hkernel, fun h => ?_⟩
  rw [h.1, hkernel] at hulib
  exact absurd hulib (by decide)

end Xv6Container.Strings
