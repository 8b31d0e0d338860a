import Mathlib.Data.List.GetD
import Xv6Container.Fs.Path

/-! The buffer of `sys_open`. `argstr` accepts a string of any length, and the copy into `newPath`
stays inside of the 30 bytes and leaves a terminating zero only for the short ones. -/

namespace Xv6Container.Fs

variable {c : ℤ} {p : CString} {mem : ℕ → UInt8} {bytes : List UInt8}

/-! ### `fetchstr` -/

/-- The loop of `fetchstr` over the `n` bytes from `s` on. -/
def fetchLoop (mem : ℕ → UInt8) : ℕ → ℕ → Option (List UInt8)
  | 0, _ => none
  | n + 1, s => if mem s = 0 then some [] else (fetchLoop mem n (s + 1)).map (mem s :: ·)

theorem fetchLoop_nonzero {n s : ℕ} (h : fetchLoop mem n s = some bytes) : 0 ∉ bytes := by
  induction n generalizing s bytes with
  | zero => cases h
  | succ n ih =>
    rw [fetchLoop] at h
    split_ifs at h with hzero
    · cases h
      exact List.not_mem_nil
    · obtain ⟨rest, hrest, rfl⟩ := Option.map_eq_some_iff.1 h
      rw [List.mem_cons, not_or]
      exact ⟨Ne.symm hzero, ih hrest⟩

/-- `fetchstr` in a process of size `sz`, and so `argstr` when the argument is `addr`. -/
def fetchstr (mem : ℕ → UInt8) (sz addr : ℕ) : Option CString :=
  if addr ≥ sz then none
  else
    match h : fetchLoop mem (sz - addr) addr with
    | none => none
    | some bytes => some ⟨bytes, fetchLoop_nonzero h⟩

theorem fetchLoop_of_bytes (bytes : List UInt8) (h : 0 ∉ bytes) (s : ℕ)
    (hmem : ∀ k < bytes.length + 1, mem (s + k) = (bytes ++ [0]).getD k 0) :
    fetchLoop mem (bytes.length + 1) s = some bytes := by
  induction bytes generalizing s with
  | nil =>
    have hzero : mem s = 0 := hmem 0 (Nat.succ_pos _)
    rw [fetchLoop, if_pos hzero]
  | cons b bytes ih =>
    rw [List.mem_cons, not_or] at h
    have hb : mem s = b := hmem 0 (Nat.succ_pos _)
    rw [List.length_cons, fetchLoop, hb, if_neg (Ne.symm h.1), ih h.2 (s + 1)]
    · rfl
    · intro k hk
      have hnext := hmem (k + 1) (Nat.succ_lt_succ hk)
      rw [← Nat.add_assoc, Nat.add_right_comm] at hnext
      exact hnext

/-- Every string is accepted where the memory of the process holds it. -/
theorem exists_fetchstr (p : CString) : ∃ mem sz, fetchstr mem sz 0 = some p := by
  refine ⟨fun k => (p.bytes ++ [0]).getD k 0, p.bytes.length + 1, ?_⟩
  have hloop : fetchLoop (fun k => (p.bytes ++ [0]).getD k 0) (p.bytes.length + 1) 0 =
      some p.bytes := by
    apply fetchLoop_of_bytes p.bytes p.nonzero
    intro k _
    rw [Nat.zero_add]
  rw [fetchstr, if_neg (Nat.not_le_of_lt (Nat.succ_pos _))]
  split
  · next hnone =>
    rw [Nat.sub_zero, hloop] at hnone
    cases hnone
  · next bytes hsome =>
    rw [Nat.sub_zero, hloop, Option.some.injEq] at hsome
    rw [Option.some.injEq, CString.mk.injEq]
    exact hsome.symm

/-! ### `newPath` -/

/-- The first bytes of `newPath`. -/
def pathHead (c : ℤ) : List UInt8 :=
  ['c'.toUInt8, 'n'.toUInt8, digit c, if c > 0 then '-'.toUInt8 else 0]

theorem newPath_all (c : ℤ) (p : CString) : newPath c p =
    if p.strlen ≤ 26 then .ok (pathHead c ++ p.bytes ++ List.replicate (26 - p.strlen) 0)
    else .error .outOfBounds := by
  by_cases hc : 1 ≤ c
  · rw [newPath_eq hc, pathHead, if_pos (show c > 0 by omega)]
  · have hcopy := copyPath_eq (pathHead c) 26 0 p.bytes rfl
    refine Eq.trans ?_ hcopy
    have h1 : c ≠ 1 := by omega
    have h2 : c ≠ 2 := by omega
    have h3 : c ≠ 3 := by omega
    simp only [newPath, pathHead, digit, h1, h2, h3, if_false, if_neg (show ¬ c > 0 by omega)]
    rfl

theorem zero_mem_pathHead : 0 ∈ pathHead c ↔ ¬ (1 ≤ c ∧ c ≤ 3) := by
  constructor
  · rintro h ⟨h1, h3⟩
    have hdigit := (digit_ne_zero h1 h3).symm
    rw [pathHead, if_pos (show c > 0 by omega)] at h
    simp only [List.mem_cons, hdigit, List.not_mem_nil, or_false, false_or] at h
    revert h
    decide
  · intro h
    have hdigit : digit c = 0 := by
      unfold digit
      rw [if_neg (by omega), if_neg (by omega), if_neg (by omega)]
    rw [pathHead, hdigit]
    simp

/-- The stores are all inside of the 30 bytes, and a zero is left among them. -/
def Terminated (c : ℤ) (p : CString) : Prop :=
  ∃ buf, newPath c p = .ok buf ∧ buf.length = 30 ∧ 0 ∈ buf

/-- The copy is safe for paths of at most 25 bytes, and where the name has no digit for one more. -/
theorem newPath_terminated_iff (c : ℤ) (p : CString) :
    Terminated c p ↔ p.strlen ≤ 25 ∨ p.strlen = 26 ∧ ¬ (1 ≤ c ∧ c ≤ 3) := by
  have hlen : p.bytes.length = p.strlen := rfl
  constructor
  · rintro ⟨buf, hbuf, -, hzero⟩
    rw [newPath_all] at hbuf
    split_ifs at hbuf with hle
    · cases hbuf
      by_cases hlt : p.strlen ≤ 25
      · exact .inl hlt
      · right
        refine ⟨by omega, ?_⟩
        rw [show 26 - p.strlen = 0 by omega, List.replicate_zero, List.append_nil,
          List.mem_append] at hzero
        exact zero_mem_pathHead.1 (hzero.resolve_right p.nonzero)
  · intro h
    have hle : p.strlen ≤ 26 := by omega
    refine ⟨_, by rw [newPath_all, if_pos hle], ?_, ?_⟩
    · simp only [pathHead, List.length_append, List.length_cons, List.length_nil,
        List.length_replicate, hlen]
      omega
    · rw [List.mem_append, List.mem_append]
      rcases h with hlt | ⟨-, hc⟩
      · right
        rw [List.mem_replicate]
        exact ⟨by omega, rfl⟩
      · exact .inl (.inl (zero_mem_pathHead.2 hc))

/-- A path of 27 bytes. -/
def longPath : CString := ⟨List.replicate 27 'a'.toUInt8, by decide⟩

/-- A process outside of the containers opens a path of 27 bytes: the copy leaves the buffer. -/
theorem newPath_overflows :
    ¬ ∀ (mem : ℕ → UInt8) (sz addr : ℕ) (path : CString) (c : ℤ),
      fetchstr mem sz addr = some path → Terminated c path := by
  intro h
  obtain ⟨mem, sz, hfetch⟩ := exists_fetchstr longPath
  obtain ⟨buf, hbuf, -⟩ := h mem sz 0 longPath 0 hfetch
  have herror : newPath 0 longPath = .error .outOfBounds := by decide
  rw [herror] at hbuf
  cases hbuf

end Xv6Container.Fs
