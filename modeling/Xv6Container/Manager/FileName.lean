import Mathlib.Data.Nat.Digits.Lemmas
import Mathlib.Logic.Function.Basic
import Xv6Container.Fs.NewPath

/-! The names of the files that `cm.c` creates. `fileNameWithPid` writes `file_` and the digits of the
pid into a buffer, the lowest digit first, and it does not write the zero at the end. -/

namespace Xv6Container.Manager

open Function
open Fs (fetchLoop)

variable {ar ar' : ℕ → UInt8} {pid pid' size n i : ℕ} {w w' : List UInt8}

/-! ### The source -/

/-- The loop that counts the digits. -/
def sizeLoop (pid size : ℕ) : ℕ :=
  if pid = 0 then size else sizeLoop (pid / 10) (size + 1)
termination_by pid
decreasing_by
  apply Nat.div_lt_self
  · apply Nat.pos_of_ne_zero
    assumption
  · decide

/-- The loop that writes the digits, with `size - itr` of them left. -/
def digitLoop : ℕ → ℕ → (ℕ → UInt8) → ℕ → UInt8
  | 0, _, ar => ar
  | left + 1, pid, ar =>
    digitLoop left (pid / 10) (update ar (4 + (left + 1)) ('0'.toUInt8 + UInt8.ofNat (pid % 10)))

/-- The bytes from `ar` on. -/
def fileNameWithPid (pid : ℕ) (ar : ℕ → UInt8) : ℕ → UInt8 :=
  let ar := update ar 0 'f'.toUInt8
  let ar := update ar 1 'i'.toUInt8
  let ar := update ar 2 'l'.toUInt8
  let ar := update ar 3 'e'.toUInt8
  let ar := update ar 4 '_'.toUInt8
  digitLoop (sizeLoop pid 0) pid ar

/-! ### The name -/

def fileBytes : List UInt8 :=
  ['f'.toUInt8, 'i'.toUInt8, 'l'.toUInt8, 'e'.toUInt8, '_'.toUInt8]

def decimal (pid : ℕ) : List UInt8 :=
  (Nat.digits 10 pid).reverse.map fun d => '0'.toUInt8 + UInt8.ofNat d

/-- `file_` and the decimal digits. -/
def fileName (pid : ℕ) : List UInt8 := fileBytes ++ decimal pid

theorem toNat_digit {d : ℕ} (hd : d < 10) : ('0'.toUInt8 + UInt8.ofNat d).toNat - 48 = d := by
  interval_cases d <;> rfl

theorem decimal_injective (h : decimal pid = decimal pid') : pid = pid' := by
  have hback : ∀ pid, ((decimal pid).map fun b => b.toNat - 48).reverse = Nat.digits 10 pid := by
    intro pid
    rw [decimal, List.map_map, ← List.map_reverse, List.reverse_reverse]
    refine (List.map_congr_left ?_).trans (List.map_id _)
    intro d hd
    exact toNat_digit (Nat.digits_lt_base (by decide) hd)
  rw [← Nat.digits_inj_iff (b := 10), ← hback pid, h, hback pid']

theorem fileName_injective (h : fileName pid = fileName pid') : pid = pid' :=
  decimal_injective (List.append_cancel_left h)

theorem zero_notMem_fileName : 0 ∉ fileName pid := by
  rw [fileName, List.mem_append, not_or]
  constructor
  · decide
  · intro h
    obtain ⟨d, hd, hzero⟩ := List.mem_map.1 h
    have hlt : d < 10 := Nat.digits_lt_base (by decide) (List.mem_reverse.1 hd)
    revert hzero
    interval_cases d <;> decide

/-! ### What is written -/

theorem sizeLoop_eq (pid size : ℕ) : sizeLoop pid size = size + (Nat.digits 10 pid).length := by
  induction pid, size using sizeLoop.induct with
  | case1 size => simp [sizeLoop]
  | case2 pid size h ih =>
    rw [sizeLoop, if_neg h, ih, Nat.digits_eq_cons_digits_div (by decide) h, List.length_cons]
    omega

theorem digitLoop_of_lt {left : ℕ} (h : 4 + left < i) : digitLoop left pid ar i = ar i := by
  induction left generalizing pid ar with
  | zero => rfl
  | succ left ih =>
    rw [digitLoop, ih (by omega), update_of_ne (by omega)]

theorem digitLoop_of_le {left : ℕ} (h : i < 5) : digitLoop left pid ar i = ar i := by
  induction left generalizing pid ar with
  | zero => rfl
  | succ left ih => rw [digitLoop, ih, update_of_ne (by omega)]

/-- The digit `j` from below is put in the place `j` from the end. -/
theorem digitLoop_digit {left j : ℕ} (hj : j < left) : digitLoop left pid ar (4 + (left - j)) =
    '0'.toUInt8 + UInt8.ofNat (pid / 10 ^ j % 10) := by
  induction left generalizing pid ar j with
  | zero => exact absurd hj (Nat.not_lt_zero _)
  | succ left ih =>
    rw [digitLoop]
    cases j with
    | zero =>
      rw [Nat.sub_zero, digitLoop_of_lt (by omega), update_self, pow_zero, Nat.div_one]
    | succ j =>
      rw [Nat.add_sub_add_right, ih (Nat.lt_of_succ_lt_succ hj), Nat.div_div_eq_div_mul, pow_succ']

theorem length_decimal : (decimal pid).length = (Nat.digits 10 pid).length := by
  rw [decimal, List.length_map, List.length_reverse]

theorem length_fileName : (fileName pid).length = 5 + (Nat.digits 10 pid).length := by
  rw [fileName, List.length_append, length_decimal]
  rfl

theorem decimal_getD {j : ℕ} (hj : j < (Nat.digits 10 pid).length) : (decimal pid).getD j 0 =
    '0'.toUInt8 + UInt8.ofNat (pid / 10 ^ ((Nat.digits 10 pid).length - 1 - j) % 10) := by
  have hlen : j < (decimal pid).length := by rwa [length_decimal]
  rw [List.getD_eq_getElem _ _ hlen]
  simp only [decimal, List.getElem_map, List.getElem_reverse]
  rw [← Nat.getD_digits _ _ (by decide : 2 ≤ 10), List.getD_eq_getElem]

/-- The name is written, and nothing behind it. -/
theorem fileNameWithPid_apply : fileNameWithPid pid ar i =
    if i < (fileName pid).length then (fileName pid).getD i 0 else ar i := by
  rw [length_fileName, fileNameWithPid, sizeLoop_eq, Nat.zero_add]
  by_cases hfive : i < 5
  · rw [digitLoop_of_le hfive, if_pos (by omega), fileName, List.getD_append _ _ _ _ hfive]
    interval_cases i <;> rfl
  · split_ifs with hi
    · obtain ⟨j, rfl⟩ : ∃ j, i = 5 + j := ⟨i - 5, by omega⟩
      have hj : j < (Nat.digits 10 pid).length := by omega
      have hfive : 5 ≤ 5 + j := Nat.le_add_right _ _
      have hplace : (Nat.digits 10 pid).length - 1 - j < (Nat.digits 10 pid).length := by omega
      rw [fileName, List.getD_append_right _ _ _ _ hfive, show 5 + j - fileBytes.length = j from
        Nat.add_sub_cancel_left .., decimal_getD hj, ← digitLoop_digit hplace]
      congr 1
      omega
    · rw [digitLoop_of_lt (by omega)]
      iterate 5 rw [update_of_ne (by omega)]

/-! ### The string -/

theorem fetchLoop_eq_iff {mem : ℕ → UInt8} {s : ℕ} : fetchLoop mem n s = some w ↔
    w.length < n ∧ 0 ∉ w ∧ ∀ k ≤ w.length, mem (s + k) = w.getD k 0 := by
  induction n generalizing s w with
  | zero => simp [fetchLoop]
  | succ n ih =>
    rw [fetchLoop]
    cases w with
    | nil =>
      split_ifs with hzero
      · simpa using hzero
      · simpa using hzero
    | cons b w =>
      have hshift : (∀ k ≤ (b :: w).length, mem (s + k) = (b :: w).getD k 0) ↔
          mem s = b ∧ ∀ k ≤ w.length, mem (s + 1 + k) = w.getD k 0 := by
        constructor
        · intro h
          refine ⟨h 0 (Nat.zero_le _), ?_⟩
          intro k hk
          rw [Nat.add_assoc, Nat.add_comm 1]
          exact h (k + 1) (Nat.succ_le_succ hk)
        · rintro ⟨hb, h⟩ k hk
          cases k with
          | zero => exact hb
          | succ k =>
            rw [← Nat.add_assoc, Nat.add_right_comm]
            exact h k (Nat.le_of_succ_le_succ hk)
      rw [hshift, List.mem_cons, not_or, List.length_cons, Nat.add_lt_add_iff_right]
      split_ifs with hzero
      · refine iff_of_false (fun h => by cases h) ?_
        rintro ⟨-, ⟨hb, -⟩, hmem, -⟩
        exact hb (hzero.symm.trans hmem)
      · rw [Option.map_eq_some_iff]
        constructor
        · rintro ⟨v, hv, heq⟩
          obtain ⟨hb, rfl⟩ := List.cons.inj heq
          obtain ⟨hlen, hnonzero, hbytes⟩ := ih.1 hv
          exact ⟨hlen, ⟨fun h => hzero (hb.trans h.symm), hnonzero⟩, hb, hbytes⟩
        · rintro ⟨hlen, ⟨-, hnonzero⟩, hb, hbytes⟩
          exact ⟨w, ih.2 ⟨hlen, hnonzero, hbytes⟩, by rw [hb]⟩

theorem fetchLoop_fileNameWithPid (ar : ℕ → UInt8) (hn : (fileName pid).length < n) :
    fetchLoop (fileNameWithPid pid ar) n 0 = some (fileName pid) ↔
      ar (fileName pid).length = 0 := by
  rw [fetchLoop_eq_iff]
  constructor
  · rintro ⟨-, -, h⟩
    have hend := h _ le_rfl
    rwa [Nat.zero_add, fileNameWithPid_apply, if_neg (lt_irrefl _),
      List.getD_eq_default _ _ le_rfl] at hend
  · intro h
    refine ⟨hn, zero_notMem_fileName, ?_⟩
    intro k hk
    rw [Nat.zero_add, fileNameWithPid_apply]
    split_ifs with hlt
    · rfl
    · obtain rfl : k = (fileName pid).length := by omega
      rw [h, List.getD_eq_default _ _ le_rfl]

theorem length_fileName_lt (hpid : pid < 2 ^ 31) : (fileName pid).length < 20 := by
  have hlen : (Nat.digits 10 pid).length ≤ 10 :=
    (Nat.digits_length_le_iff (by decide) pid).2 (hpid.trans (by decide))
  rw [length_fileName]
  omega

/-- The string that `open` gets is the name just when the byte behind the digits happens to be zero.
Different pids have different names. -/
theorem fileNameWithPid_iff (hpid : pid < 2 ^ 31) (ar : ℕ → UInt8) (hn : 20 ≤ n) :
    (fetchLoop (fileNameWithPid pid ar) n 0 = some (fileName pid) ↔
      ar (5 + (Nat.digits 10 pid).length) = 0) ∧
    (ar (5 + (Nat.digits 10 pid).length) = 0 → ∀ pid' < 2 ^ 31, ∀ ar' : ℕ → UInt8,
      ar' (5 + (Nat.digits 10 pid').length) = 0 → pid ≠ pid' →
      fetchLoop (fileNameWithPid pid ar) n 0 ≠ fetchLoop (fileNameWithPid pid' ar') n 0) := by
  simp only [← length_fileName]
  have hfetch := fetchLoop_fileNameWithPid ar ((length_fileName_lt hpid).trans_le hn)
  refine ⟨hfetch, ?_⟩
  intro hend pid' hpid' ar' hend' hne heq
  rw [hfetch.2 hend, (fetchLoop_fileNameWithPid ar' ((length_fileName_lt hpid').trans_le hn)).2 hend',
    Option.some.injEq] at heq
  exact hne (fileName_injective heq)

theorem fileNameWithPid_iff_seven :
    fetchLoop (fileNameWithPid 7 fun _ => 0) 20 0 = some (fileName 7) :=
  (fileNameWithPid_iff (by decide) (fun _ => 0) (le_refl 20)).1.2 rfl

/-- The process 1 opens the file of the process 12 if its buffer holds a `2` where the name ends. -/
theorem fileNameWithPid_one : fetchLoop
    (fileNameWithPid 1 fun i => if i = 6 then '2'.toUInt8 else 0) 20 0 = some (fileName 12) := by
  rw [fetchLoop_eq_iff]
  refine ⟨length_fileName_lt (by decide), zero_notMem_fileName, ?_⟩
  intro k hk
  have hname : fileName 12 = fileBytes ++ ['1'.toUInt8, '2'.toUInt8] := by
    simp [fileName, decimal]
    decide
  have hone : fileName 1 = fileBytes ++ ['1'.toUInt8] := by
    simp [fileName, decimal]
    decide
  rw [Nat.zero_add, fileNameWithPid_apply, hone, hname]
  rw [hname] at hk
  have hk : k ≤ 7 := hk
  interval_cases k <;> rfl

end Xv6Container.Manager
