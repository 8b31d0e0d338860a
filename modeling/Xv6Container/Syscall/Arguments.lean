import Mathlib.Data.UInt
import Xv6Container.Lib.Words
import Xv6Container.Memory.Vm

/-! The arguments of system calls: `fetchint`, `fetchstr`, `argint`, `argptr`, `argstr` and
`argintar` of `syscall.c`. An address is a `uint` and an `int` is kept as its 32 bits where it stands
for an address. A call returns its result and what it leaves in the variable of the caller. -/

namespace Xv6Container.Syscall

open Lib
open Memory (KERNBASE UINT)

/-- What the functions read of a process: its size, the saved `esp`, and the bytes of its memory. -/
structure Proc where
  sz : UInt32
  esp : UInt32
  mem : ℕ → UInt8

def fetchint (p : Proc) (addr ip : UInt32) : Int32 × UInt32 :=
  if addr ≥ p.sz ∨ addr + 4 > p.sz then (-1, ip)
  else (0, .ofNat (word p.mem addr.toNat))

/-- The loop of `fetchstr` at `s`. -/
def scan (p : Proc) (pp s : UInt32) : Int32 :=
  if _h : s < p.sz then
    if p.mem s.toNat = 0 then (s - pp).toInt32 else scan p pp (s + 1)
  else -1
termination_by p.sz.toNat - s.toNat
decreasing_by
  have hlt := UInt32.lt_iff_toNat_lt.1 _h
  have hsz := p.sz.toNat_lt
  have hone : (1 : UInt32).toNat = 1 := rfl
  rw [UInt32.toNat_add, hone]
  omega

def fetchstr (p : Proc) (addr pp : UInt32) : Int32 × UInt32 :=
  if addr ≥ p.sz then (-1, pp) else (scan p addr addr, addr)

/-- Where the `n`th argument stands. -/
def argaddr (p : Proc) (n : Int32) : UInt32 := p.esp + 4 + (4 * n).toUInt32

def argint (p : Proc) (n : Int32) (ip : UInt32) : Int32 × UInt32 := fetchint p (argaddr p n) ip

def argptr (p : Proc) (n : Int32) (pp : UInt32) (size : Int32) : Int32 × UInt32 :=
  let (ret, i) := argint p n 0
  if ret < 0 then (-1, pp)
  else if size < 0 ∨ i ≥ p.sz ∨ i + size.toUInt32 > p.sz then (-1, pp)
  else (0, i)

def argstr (p : Proc) (n : Int32) (pp : UInt32) : Int32 × UInt32 :=
  let (ret, addr) := argint p n 0
  if ret < 0 then (-1, pp) else fetchstr p addr pp

/-- `argintar`, with the test of `argptr`. -/
def argintar (p : Proc) (n : Int32) (ar : UInt32) (size : Int32) : Int32 × UInt32 :=
  let (ret, i) := argint p n 0
  if ret < 0 then (-1, ar)
  else if size < 0 ∨ i ≥ p.sz ∨ i + size.toUInt32 > p.sz then (-1, ar)
  else (0, i)

/-! ### Objects in the memory of a process -/

variable {p : Proc} {n size : Int32} {addr s v i : UInt32} {len : ℕ}

/-- `n` bytes from `a` on. -/
def Inside (p : Proc) (a n : ℕ) : Prop := a + n ≤ p.sz.toNat

instance (p : Proc) (a n : ℕ) : Decidable (Inside p a n) := inferInstanceAs (Decidable (_ ≤ _))

/-- A string of `len` bytes, whose first NUL lies in the memory too. -/
structure StringAt (p : Proc) (a len : ℕ) : Prop where
  inside : Inside p a (len + 1)
  stops : p.mem (a + len) = 0
  first : ∀ j < len, p.mem (a + j) ≠ 0

/-- The word of the `n`th argument. -/
def argword (p : Proc) (n : Int32) : UInt32 := .ofNat (word p.mem (argaddr p n).toNat)

/-- The result is 0 exactly if the object is there, and then `out` is the answer; else it is -1. -/
def Answers (ok : Prop) (out : UInt32) (r : Int32 × UInt32) : Prop :=
  ok ∧ r = (0, out) ∨ ¬ ok ∧ r.1 = -1

theorem Answers.congr {ok ok' : Prop} {r : Int32 × UInt32} (h : Answers ok v r) (hok : ok ↔ ok') :
    Answers ok' v r := by
  rwa [Answers, ← hok]

/-- A test that fails exactly if the object is not there. -/
theorem answers_ite {ok bad : Prop} [Decidable bad] (h : bad ↔ ¬ ok) (old out : UInt32) :
    Answers ok out (if bad then (-1, old) else (0, out)) := by
  split_ifs with hbad
  · exact .inr ⟨h.1 hbad, rfl⟩
  · exact .inl ⟨not_not.1 fun hok => hbad (h.2 hok), rfl⟩

/-- The second test of a function that has fetched a word. -/
theorem Answers.fetch {ok ok' : Prop} {r : Int32 × UInt32} {f : UInt32 → Int32 × UInt32}
    (h : Answers ok v r) (hf : Answers ok' i (f v)) (old : UInt32) :
    Answers (ok ∧ ok') i (if r.1 < 0 then (-1, old) else f r.2) := by
  obtain ⟨hok, rfl⟩ | ⟨hno, hr⟩ := h
  · rw [if_neg (show ¬ (0 : Int32) < 0 by decide)]
    exact hf.congr ⟨fun h => ⟨hok, h⟩, And.right⟩
  · rw [if_pos (by rw [hr]; decide)]
    exact .inr ⟨fun h => hno h.1, rfl⟩

/-! ### The functions -/

theorem fetchint_answers (hsz : p.sz.toNat < KERNBASE) (addr ip : UInt32) :
    Answers (Inside p addr.toNat 4) (.ofNat (word p.mem addr.toNat)) (fetchint p addr ip) := by
  refine answers_ite ?_ ip _
  have hfour : (4 : UInt32).toNat = 4 := rfl
  rw [ge_iff_le, gt_iff_lt, UInt32.le_iff_toNat_le, UInt32.lt_iff_toNat_lt, UInt32.toNat_add, hfour,
    Inside]
  dsimp only [KERNBASE] at hsz
  omega

theorem argint_answers (hsz : p.sz.toNat < KERNBASE) (n : Int32) (ip : UInt32) :
    Answers (Inside p (argaddr p n).toNat 4) (argword p n) (argint p n ip) :=
  fetchint_answers hsz (argaddr p n) ip

theorem toNat_size (hsize : ¬ size < 0) : (size.toUInt32.toNat : ℤ) = size.toInt := by
  have hle : 0 ≤ size := Int32.not_lt.1 hsize
  rw [Int32.toNat_toUInt32_of_le hle, Int32.toInt_eq_toNatClampNeg hle]

/-- The test of `argptr`, which `argintar` makes as well. -/
theorem size_test (hsz : p.sz.toNat < KERNBASE) (i : UInt32) (size : Int32) :
    (size < 0 ∨ i ≥ p.sz ∨ i + size.toUInt32 > p.sz) ↔
      ¬ (0 ≤ size.toInt ∧ i < p.sz ∧ Inside p i.toNat size.toInt.toNat) := by
  by_cases hneg : size < 0
  · refine ⟨fun _ h => ?_, fun _ => .inl hneg⟩
    rw [Int32.lt_iff_toInt_lt] at hneg
    exact absurd h.1 (not_le.2 hneg)
  · have hnat := toNat_size hneg
    have hlt := size.toInt_lt
    rw [or_iff_right hneg, ge_iff_le, gt_iff_lt, UInt32.le_iff_toNat_le, UInt32.lt_iff_toNat_lt,
      UInt32.toNat_add, UInt32.lt_iff_toNat_lt, Inside]
    dsimp only [KERNBASE] at hsz
    omega

theorem argptr_answers (hsz : p.sz.toNat < KERNBASE) (n : Int32) (pp : UInt32) (size : Int32) :
    Answers (Inside p (argaddr p n).toNat 4 ∧ 0 ≤ size.toInt ∧ argword p n < p.sz ∧
        Inside p (argword p n).toNat size.toInt.toNat)
      (argword p n) (argptr p n pp size) := by
  have hword := argint_answers hsz n 0
  have htest := answers_ite (size_test hsz (argword p n) size) pp (argword p n)
  exact hword.fetch (f := fun i => if size < 0 ∨ i ≥ p.sz ∨ i + size.toUInt32 > p.sz then (-1, pp)
    else (0, i)) htest pp

/-! ### Strings -/

/-- The loop finds the first NUL that lies in the memory. -/
theorem scan_eq (hsz : p.sz.toNat < KERNBASE) (a : UInt32) (k : ℕ) (hs : s.toNat = a.toNat + k)
    (hbefore : ∀ j < k, p.mem (a.toNat + j) ≠ 0) :
    (∃ len, StringAt p a.toNat len ∧ scan p a s = .ofNat len) ∨
      (¬ ∃ len, StringAt p a.toNat len) ∧ scan p a s = -1 := by
  induction hm : p.sz.toNat - s.toNat generalizing s k with
  | zero =>
    refine .inr ⟨?_, ?_⟩
    · rintro ⟨len, ⟨hin, hstop, -⟩⟩
      refine hbefore len ?_ hstop
      rw [Inside] at hin
      omega
    · rw [scan, dif_neg]
      rw [UInt32.lt_iff_toNat_lt]
      omega
  | succ m ih =>
    have hlt : s < p.sz := UInt32.lt_iff_toNat_lt.2 (by omega)
    rw [scan, dif_pos hlt]
    split_ifs with hnul
    · refine .inl ⟨k, ⟨?_, by rwa [← hs], hbefore⟩, ?_⟩
      · rw [Inside]
        omega
      · have hsub : s - a = .ofNat k := by
          rw [← UInt32.toNat_inj, UInt32.toNat_sub_of_le _ _ (UInt32.le_iff_toNat_le.2 (by omega)),
            UInt32.toNat_ofNat_of_lt' (by dsimp only [KERNBASE, UInt32.size] at *; omega)]
          omega
        rw [hsub]
        rfl
    · have hone : (1 : UInt32).toNat = 1 := rfl
      have hnext : (s + 1).toNat = a.toNat + (k + 1) := by
        rw [UInt32.toNat_add, hone]
        dsimp only [KERNBASE] at hsz
        omega
      refine ih (k + 1) hnext (fun j hj => ?_) (by omega)
      obtain hj' | rfl := Nat.lt_succ_iff_lt_or_eq.1 hj
      · exact hbefore j hj'
      · rwa [← hs]

theorem fetchstr_string (hsz : p.sz.toNat < KERNBASE) (addr pp : UInt32) :
    (∃ len, StringAt p addr.toNat len ∧ fetchstr p addr pp = (.ofNat len, addr)) ∨
      (¬ ∃ len, StringAt p addr.toNat len) ∧ (fetchstr p addr pp).1 = -1 := by
  unfold fetchstr
  split_ifs with hge
  · refine .inr ⟨?_, rfl⟩
    rintro ⟨len, ⟨hin, -, -⟩⟩
    rw [ge_iff_le, UInt32.le_iff_toNat_le] at hge
    rw [Inside] at hin
    omega
  · obtain ⟨len, hlen, hscan⟩ | ⟨hno, hscan⟩ := scan_eq hsz addr 0 rfl fun j hj => absurd hj (by omega)
    · exact .inl ⟨len, hlen, by rw [hscan]⟩
    · exact .inr ⟨hno, hscan⟩

/-- The result is the length of the string at `a` if it may be looked for and is there, else -1. -/
def Measures (p : Proc) (ok : Prop) (a : UInt32) (r : Int32 × UInt32) : Prop :=
  (∃ len : ℕ, ok ∧ StringAt p a.toNat len ∧ r.1.toInt = len ∧ r.2 = a) ∨
    ¬ (ok ∧ ∃ len, StringAt p a.toNat len) ∧ r.1 = -1

theorem fetchstr_measures (hsz : p.sz.toNat < KERNBASE) (addr pp : UInt32) :
    Measures p True addr (fetchstr p addr pp) := by
  obtain ⟨len, hlen, hret⟩ | ⟨hno, hret⟩ := fetchstr_string hsz addr pp
  · refine .inl ⟨len, trivial, hlen, ?_, by rw [hret]⟩
    have hin := hlen.inside
    rw [Inside] at hin
    dsimp only [KERNBASE] at hsz
    rw [hret]
    exact Int32.toInt_ofNat_of_lt (by omega)
  · exact .inr ⟨fun h => hno h.2, hret⟩

theorem argstr_measures (hsz : p.sz.toNat < KERNBASE) (n : Int32) (pp : UInt32) :
    Measures p (Inside p (argaddr p n).toNat 4) (argword p n) (argstr p n pp) := by
  rw [argstr]
  obtain ⟨hok, hret⟩ | ⟨hno, hret⟩ := argint_answers hsz n 0
  · rw [hret]
    dsimp only
    rw [if_neg (show ¬ (0 : Int32) < 0 by decide)]
    obtain ⟨len, -, h⟩ | ⟨hnone, h⟩ := fetchstr_measures hsz (argword p n) pp
    · exact .inl ⟨len, hok, h⟩
    · exact .inr ⟨fun h' => hnone ⟨trivial, h'.2⟩, h⟩
  · dsimp only
    rw [hret, if_pos (show (-1 : Int32) < 0 by decide)]
    exact .inr ⟨fun h => hno h.1, rfl⟩

/-! ### What the tests let through -/

/-- The functions that fetch an argument succeed exactly if the object they fetch lies inside the
memory of the process, wherever the stack pointer and the address have wrapped to. -/
theorem arguments_inside (hsz : p.sz.toNat < KERNBASE) (n size : Int32) (addr v : UInt32) :
    Answers (Inside p addr.toNat 4) (.ofNat (word p.mem addr.toNat)) (fetchint p addr v) ∧
    Answers (Inside p (argaddr p n).toNat 4) (argword p n) (argint p n v) ∧
    Answers (Inside p (argaddr p n).toNat 4 ∧ 0 ≤ size.toInt ∧ argword p n < p.sz ∧
        Inside p (argword p n).toNat size.toInt.toNat)
      (argword p n) (argptr p n v size) ∧
    Measures p True addr (fetchstr p addr v) ∧
    Measures p (Inside p (argaddr p n).toNat 4) (argword p n) (argstr p n v) :=
  ⟨fetchint_answers hsz addr v, argint_answers hsz n v, argptr_answers hsz n v size,
    fetchstr_measures hsz addr v, argstr_measures hsz n v⟩

/-- A process with the stack pointer near the top of the address space. -/
theorem arguments_inside_wrapped :
    Answers (Inside ⟨4096, 0xFFFFFFFC, fun _ => 0⟩ 0 4) 0
      (argint ⟨4096, 0xFFFFFFFC, fun _ => 0⟩ 0 7) :=
  (arguments_inside (p := ⟨4096, 0xFFFFFFFC, fun _ => 0⟩) (by decide) 0 0 0 7).2.1

/-! ### Arrays -/

/-- `num` ints at the address that `argintar` leaves. -/
def ArrayInside (p : Proc) (num : Int32) (r : Int32 × UInt32) : Prop :=
  r.1 = 0 → Inside p r.2.toNat (4 * num.toInt.toNat)

/-- The argument can be fetched and points to a place with room for `num` bytes, but not for `num`
ints. -/
structure Crosses (p : Proc) (n num : Int32) : Prop where
  slot : argaddr p n < p.sz ∧ argaddr p n + 4 ≤ p.sz
  nonneg : 0 ≤ num.toInt
  start : argword p n < p.sz
  bytes : argword p n + num.toUInt32 ≤ p.sz
  ints : p.sz.toNat < (argword p n).toNat + 4 * num.toInt.toNat

/-- `argintar` in a process of any size, with the sums as the code makes them. -/
theorem argintar_answers (n num : Int32) (ar : UInt32) :
    Answers ((argaddr p n < p.sz ∧ argaddr p n + 4 ≤ p.sz) ∧
        0 ≤ num.toInt ∧ argword p n < p.sz ∧ argword p n + num.toUInt32 ≤ p.sz)
      (argword p n) (argintar p n ar num) := by
  have hneg : num < 0 ↔ ¬ 0 ≤ num.toInt := by
    rw [Int32.lt_iff_toInt_lt, not_le]
    rfl
  have hword : Answers (argaddr p n < p.sz ∧ argaddr p n + 4 ≤ p.sz) (argword p n) (argint p n 0) := by
    refine answers_ite ?_ 0 _
    rw [not_and_or, UInt32.not_lt, UInt32.not_le]
  have htest : Answers (0 ≤ num.toInt ∧ argword p n < p.sz ∧ argword p n + num.toUInt32 ≤ p.sz)
      (argword p n) (if num < 0 ∨ argword p n ≥ p.sz ∨ argword p n + num.toUInt32 > p.sz then (-1, ar)
        else (0, argword p n)) := by
    refine answers_ite ?_ ar _
    rw [not_and_or, not_and_or, UInt32.not_lt, UInt32.not_le, hneg]
  exact hword.fetch (f := fun i => if num < 0 ∨ i ≥ p.sz ∨ i + num.toUInt32 > p.sz then (-1, ar)
    else (0, i)) htest ar

/-- The count is taken for a number of bytes: an array that `argintar` accepts lies inside the memory
of the process unless it crosses the end in this way. -/
theorem argintar_array_iff (n num : Int32) (ar : UInt32) :
    ArrayInside p num (argintar p n ar num) ↔ ¬ Crosses p n num := by
  obtain ⟨⟨hslot, hnonneg, hstart, hbytes⟩, hret⟩ | ⟨hno, hret⟩ := argintar_answers (p := p) n num ar
  · rw [hret, ArrayInside, Inside]
    constructor
    · intro h hcross
      exact absurd (h rfl) (Nat.not_le.2 hcross.ints)
    · intro h _
      exact Nat.not_lt.1 fun hlt => h ⟨hslot, hnonneg, hstart, hbytes, hlt⟩
  · constructor
    · intro _ hcross
      exact hno ⟨hcross.slot, hcross.nonneg, hcross.start, hcross.bytes⟩
    · intro _ h
      rw [hret] at h
      exact absurd h (by decide)

/-- The last two bytes of a process of one page pass for an array of two ints. -/
theorem argintar_crosses :
    ¬ ArrayInside ⟨4096, 0, setWord (fun _ => 0) 8 4094⟩ 2
      (argintar ⟨4096, 0, setWord (fun _ => 0) 8 4094⟩ 1 0 2) := by
  intro h
  exact absurd (h (by decide +kernel)) (by decide +kernel)

end Xv6Container.Syscall
