import Xv6Container.Ops.Model

/-! The names in directory entries. A name is a `char *`; `namecmp` compares and `strncpy` copies
`DIRSIZ` bytes of it at most, so what counts is the name up to its first zero, cut to that length. -/

namespace Xv6Container.Ops

open Names (DIRSIZ Name)

/-- `strncmp(p, q, n)` -/
def strncmp (p q : ℕ → UInt8) : ℕ → ℤ
  | 0 => 0
  | n + 1 =>
    if p 0 ≠ 0 ∧ p 0 = q 0 then strncmp (fun k => p (k + 1)) (fun k => q (k + 1)) n
    else (p 0).toNat - (q 0).toNat

def namecmp (s t : ℕ → UInt8) : ℤ := strncmp s t DIRSIZ

/-- The second loop of `strncpy`: `n` zeros from `s[i]` on. -/
def fillLoop : ℕ → ℕ → (ℕ → UInt8) → ℕ → UInt8
  | 0, _, s => s
  | n + 1, i, s => fillLoop n (i + 1) (Function.update s i 0)

/-- The first loop of `strncpy`, and the second one from where the first one ends. -/
def copyLoop (t : ℕ → UInt8) : ℕ → ℕ → (ℕ → UInt8) → ℕ → UInt8
  | 0, _, s => s
  | n + 1, i, s =>
    if t i ≠ 0 then copyLoop t n (i + 1) (Function.update s i (t i))
    else fillLoop n (i + 1) (Function.update s i (t i))

/-- What `strncpy(s, t, n)` makes of `s`. -/
def strncpy (s t : ℕ → UInt8) (n : ℕ) : ℕ → UInt8 := copyLoop t n 0 s

/-- `de.name` -/
def dePtr (de : List UInt8) : ℕ → UInt8 := fun k => de.getD (k + 2) 0

/-- `strncpy(de.name, name, DIRSIZ)` and `de.inum = inum`. -/
def setEntry (de name : ℕ → UInt8) (inum : ℕ) : ℕ → UInt8
  | 0 => .ofNat inum
  | 1 => .ofNat (inum / 256)
  | k + 2 => strncpy (fun k => de (k + 2)) name DIRSIZ k

/-! ### What counts of a name -/

/-- The string at `p`, cut to `n` bytes. -/
def cutString (p : ℕ → UInt8) (n : ℕ) : List UInt8 := ((List.range n).map p).takeWhile (· ≠ 0)

theorem length_cutString_le (p : ℕ → UInt8) (n : ℕ) : (cutString p n).length ≤ n := by
  refine (List.takeWhile_sublist _).length_le.trans ?_
  rw [List.length_map, List.length_range]

def nameOf (p : ℕ → UInt8) : Name := ⟨cutString p DIRSIZ, length_cutString_le p DIRSIZ⟩

variable {p q : ℕ → UInt8} {n i : ℕ} {name : Name} {inum : ℕ} {de : List UInt8}

theorem cutString_succ (p : ℕ → UInt8) (n : ℕ) : cutString p (n + 1) =
    if p 0 ≠ 0 then p 0 :: cutString (fun k => p (k + 1)) n else [] := by
  rw [cutString, List.range_succ_eq_map, List.map_cons, List.map_map, List.takeWhile_cons]
  simp only [decide_eq_true_eq]
  rfl

theorem strncmp_eq_zero : strncmp p q n = 0 ↔ cutString p n = cutString q n := by
  induction n generalizing p q with
  | zero => exact ⟨fun _ => rfl, fun _ => rfl⟩
  | succ n ih =>
    rw [strncmp, cutString_succ, cutString_succ]
    by_cases heq : p 0 = q 0
    · by_cases hzero : p 0 = 0
      · rw [if_neg (by simp [hzero]), if_neg (by simp [hzero]), if_neg (by simp [← heq, hzero]), heq]
        simp
      · rw [if_pos ⟨hzero, heq⟩, if_pos hzero, if_pos (heq ▸ hzero), ih, heq, List.cons.injEq]
        simp
    · have hne : ¬((p 0).toNat : ℤ) - (q 0).toNat = 0 := by
        intro h
        apply heq
        apply UInt8.toNat_inj.1
        omega
      rw [if_neg (fun h => heq h.2)]
      refine ⟨fun h => absurd h hne, fun h => ?_⟩
      split_ifs at h with hp hq
      · exact absurd (List.cons.inj h).1 heq
      · exact absurd ((not_not.1 hp).trans (not_not.1 ‹¬q 0 ≠ 0›).symm) heq

theorem nameOf_eq_iff : nameOf p = name ↔ cutString p DIRSIZ = name.bytes := by
  obtain ⟨bytes, short⟩ := name
  rw [nameOf, Name.mk.injEq]

/-- `namecmp` finds two names equal if they are in what counts. -/
theorem namecmp_eq_zero : namecmp p q = 0 ↔ nameOf p = nameOf q := by
  rw [namecmp, strncmp_eq_zero, nameOf_eq_iff]
  rfl

theorem fillLoop_eq (n i : ℕ) (s : ℕ → UInt8) (k : ℕ) :
    fillLoop n i s k = if i ≤ k ∧ k < i + n then 0 else s k := by
  induction n generalizing i s with
  | zero => rw [fillLoop, if_neg (by omega)]
  | succ n ih =>
    rw [fillLoop, ih]
    by_cases hk : k = i
    · subst hk
      rw [if_neg (by omega), if_pos (by omega), Function.update_self]
    · rw [Function.update_of_ne hk]
      exact if_congr (by omega) rfl rfl

/-- `strncpy` copies the string and fills up with zeros. -/
theorem copyLoop_eq (t : ℕ → UInt8) (n i : ℕ) (s : ℕ → UInt8) (k : ℕ) : copyLoop t n i s k =
    if i ≤ k ∧ k < i + n then (cutString (fun k => t (i + k)) n).getD (k - i) 0 else s k := by
  induction n generalizing i s with
  | zero => rw [copyLoop, if_neg (by omega)]
  | succ n ih =>
    rw [copyLoop, cutString_succ]
    simp only [Nat.add_zero]
    by_cases ht : t i ≠ 0
    · rw [if_pos ht, if_pos ht, ih]
      by_cases hk : i + 1 ≤ k ∧ k < i + 1 + n
      · rw [if_pos hk, if_pos (by omega), show k - i = k - (i + 1) + 1 by omega, List.getD_cons_succ]
        simp only [Nat.add_assoc, Nat.add_comm 1]
      · rw [if_neg hk]
        by_cases hki : k = i
        · subst hki
          rw [if_pos (by omega), Function.update_self, Nat.sub_self]
          rfl
        · rw [if_neg (by omega), Function.update_of_ne hki]
    · rw [if_neg ht, if_neg ht, fillLoop_eq]
      by_cases hk : i + 1 ≤ k ∧ k < i + 1 + n
      · rw [if_pos hk, if_pos (by omega)]
        rfl
      · rw [if_neg hk]
        by_cases hki : k = i
        · subst hki
          rw [if_pos (by omega), Function.update_self, not_not.1 ht]
          rfl
        · rw [if_neg (by omega), Function.update_of_ne hki]

/-! ### Entries -/

theorem zero_not_mem_nameOf (p : ℕ → UInt8) : 0 ∉ (nameOf p).bytes := by
  intro h
  have := List.mem_takeWhile_imp h
  simp at this

/-- The bytes that `dirlink` writes are those of `Ops.dirent`. -/
theorem setEntry_eq (de p : ℕ → UInt8) (inum : ℕ) {k : ℕ} (hk : k < DIRENT) :
    setEntry de p inum k = dirent (nameOf p) inum k := by
  match k with
  | 0 => rfl
  | 1 => rfl
  | k + 2 =>
    have hlt : k < 0 + DIRSIZ := by
      dsimp only [DIRENT, DIRSIZ] at *
      omega
    rw [setEntry, strncpy, copyLoop_eq, if_pos ⟨Nat.zero_le k, hlt⟩]
    simp only [Nat.zero_add, Nat.sub_zero]
    rfl

/-- A short list without zeros is what a buffer filled up with zeros stands for. -/
theorem cutString_getD {l : List UInt8} (hl : l.length ≤ n) (h0 : 0 ∉ l) :
    cutString (fun k => l.getD k 0) n = l := by
  induction n generalizing l with
  | zero =>
    rw [List.length_eq_zero_iff.1 (Nat.le_zero.1 hl)]
    rfl
  | succ n ih =>
    rw [cutString_succ]
    cases l with
    | nil => rfl
    | cons a l =>
      have ha : a ≠ 0 := fun h => h0 (h ▸ List.mem_cons_self)
      show (if a ≠ 0 then a :: cutString (fun k => l.getD k 0) n else []) = _
      rw [if_pos ha]
      congr 1
      exact ih (Nat.le_of_succ_le_succ hl) fun h => h0 (List.mem_cons_of_mem a h)

theorem deName_eq (hde : de.length = DIRENT) : deName de = cutString (dePtr de) DIRSIZ := by
  rw [deName, cutString]
  congr 1
  apply List.ext_getElem
  · rw [List.length_take, List.length_drop, hde, List.length_map, List.length_range]
    rfl
  · intro k h1 h2
    rw [List.length_map, List.length_range] at h2
    have hlt : k + 2 < de.length := by
      rw [hde]
      dsimp only [DIRENT, DIRSIZ] at *
      omega
    simp only [List.getElem_take, List.getElem_drop, List.getElem_map, List.getElem_range, dePtr,
      List.getD_eq_getElem?_getD, List.getElem?_eq_getElem hlt, Option.getD_some]
    congr 1
    exact Nat.add_comm 2 k

/-- The test of `dirlookup`. -/
def matchesName (p : ℕ → UInt8) (de : List UInt8) : Bool := deInum de ≠ 0 ∧ namecmp p (dePtr de) = 0

theorem matchesName_eq (p : ℕ → UInt8) (hde : de.length = DIRENT) :
    matchesName p de = named (nameOf p) de := by
  rw [matchesName, named]
  refine decide_eq_decide.2 (and_congr_right fun _ => ?_)
  rw [namecmp_eq_zero, deName_eq hde, eq_comm, nameOf_eq_iff]

def entryBytes (name : Name) (inum : ℕ) : List UInt8 := (List.range DIRENT).map (dirent name inum)

theorem deInum_entryBytes (h : inum < 2 ^ 16) : deInum (entryBytes name inum) = inum := by
  have h0 : (entryBytes name inum).getD 0 0 = .ofNat inum := rfl
  have h1 : (entryBytes name inum).getD 1 0 = .ofNat (inum / 256) := rfl
  rw [deInum, h0, h1, UInt8.toNat_ofNat', UInt8.toNat_ofNat']
  omega

theorem deName_entryBytes (h : 0 ∉ name.bytes) : deName (entryBytes name inum) = name.bytes := by
  have hlen : (entryBytes name inum).length = DIRENT := by
    rw [entryBytes, List.length_map, List.length_range]
  rw [deName_eq hlen]
  refine Eq.trans ?_ (cutString_getD name.short h)
  refine congrArg _ (List.map_congr_left fun k hk => ?_)
  have hk := List.mem_range.1 hk
  have hlt : k + 2 < DIRENT := by
    dsimp only [DIRENT, DIRSIZ] at *
    omega
  rw [dePtr, entryBytes, List.getD_eq_getElem?_getD, List.getElem?_map, List.getElem?_range hlt]
  rfl

end Xv6Container.Ops
