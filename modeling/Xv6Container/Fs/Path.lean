import Mathlib.Data.List.TakeWhile
import Mathlib.Data.Int.Notation
import Mathlib.Data.Nat.Notation
import Mathlib.Tactic.Common

/-! Path names as the kernel sees them: C strings, and the name that `sys_open` builds from
a path and the container of its caller. A store outside of `newPath` and a read past its
end stop the run: C gives neither a meaning. -/

namespace Xv6Container.Fs

abbrev NCONT : ℕ := 10

/-- Why a call does not return: it is not possible here, it waits for a lock that it holds
itself, it leaves an array, a signed counter overflows, or the kernel panics. -/
inductive Stop where
  | disabled
  | blocked
  | outOfBounds
  | overflow
  | panic (msg : String)
  deriving DecidableEq, Repr

/-- The bytes of a C string before its terminating zero. -/
structure CString where
  bytes : List UInt8
  nonzero : 0 ∉ bytes
  deriving DecidableEq

/-- `strlen`. -/
def CString.strlen (s : CString) : ℕ := s.bytes.length

/-- `buf[i] = x`. -/
def store (buf : List UInt8) (i : ℕ) (x : UInt8) : Except Stop (List UInt8) :=
  if i < buf.length then .ok (buf.set i x) else .error .outOfBounds

/-- The string at the start of a buffer, which must end inside of it. -/
def readString (buf : List UInt8) : Except Stop CString :=
  if 0 ∈ buf then
    .ok ⟨buf.takeWhile (· ≠ 0), fun h => by simpa using List.mem_takeWhile_imp h⟩
  else .error .outOfBounds

/-- The loop of `sys_open` that appends the path to `newPath`. -/
def copyPath (buf : List UInt8) (itr : ℕ) : List UInt8 → Except Stop (List UInt8)
  | [] => .ok buf
  | b :: path => do copyPath (← store buf (4 + itr) b) (itr + 1) path

/-- `newPath` as `sys_open` leaves it, for every caller and every mode. -/
def newPath (containerID : ℤ) (path : CString) : Except Stop (List UInt8) := do
  let buf : List UInt8 := ['c'.toUInt8, 'n'.toUInt8] ++ List.replicate 28 0
  let buf ← if containerID = 1 then store buf 2 '1'.toUInt8 else .ok buf
  let buf ← if containerID = 2 then store buf 2 '2'.toUInt8 else .ok buf
  let buf ← if containerID = 3 then store buf 2 '3'.toUInt8 else .ok buf
  let buf ← if containerID > 0 then store buf 3 '-'.toUInt8 else .ok buf
  copyPath buf 0 path.bytes

/-- The path that `sys_open` gives to `create` or to `namei`. -/
def openPath (containerID : ℤ) (path : CString) (create : Bool) : Except Stop CString := do
  let buf ← newPath containerID path
  if create ∧ containerID ≠ 0 then readString buf else .ok path

variable {c d : ℤ} {p q : CString} {r : Stop} {buf : List UInt8}

/-! ### How the name fails -/

theorem bind_eq_error {α β : Type} {x : Except Stop α} {f : α → Except Stop β}
    (h : (x >>= f) = .error r) : x = .error r ∨ ∃ a, f a = .error r := by
  cases x with
  | error r' =>
    change Except.error r' = _ at h
    exact Or.inl (congrArg Except.error (Except.error.inj h))
  | ok a => exact Or.inr ⟨a, h⟩

theorem store_error {i : ℕ} {x : UInt8} (h : store buf i x = .error r) : r = .outOfBounds := by
  unfold store at h
  split_ifs at h
  cases h
  rfl

theorem copyPath_error {itr : ℕ} {path : List UInt8} (h : copyPath buf itr path = .error r) :
    r = .outOfBounds := by
  induction path generalizing buf itr with
  | nil => cases h
  | cons b path ih =>
    rcases bind_eq_error h with h | ⟨buf', h⟩
    · exact store_error h
    · exact ih h

/-- A store that only some containers make. -/
theorem storeIf_error {P : Prop} [Decidable P] {i : ℕ} {x : UInt8} {α : Type}
    {k : List UInt8 → Except Stop α}
    (h : (if P then store buf i x >>= k else Except.ok buf >>= k) = .error r) :
    r = .outOfBounds ∨ ∃ buf', k buf' = .error r := by
  split_ifs at h
  · exact (bind_eq_error h).imp_left store_error
  · exact (bind_eq_error h).imp_left nofun

theorem newPath_error (h : newPath c p = .error r) : r = .outOfBounds := by
  rcases storeIf_error h with h | ⟨_, h⟩
  · exact h
  rcases storeIf_error h with h | ⟨_, h⟩
  · exact h
  rcases storeIf_error h with h | ⟨_, h⟩
  · exact h
  rcases storeIf_error h with h | ⟨_, h⟩
  · exact h
  · exact copyPath_error h

theorem openPath_error {create : Bool} (h : openPath c p create = .error r) :
    r = .outOfBounds := by
  rcases bind_eq_error h with h | ⟨buf, h⟩
  · exact newPath_error h
  · split_ifs at h
    unfold readString at h
    split_ifs at h
    cases h
    rfl

/-- A name that `sys_open` builds is read from `newPath`. -/
theorem openPath_ok {create : Bool} (h : openPath c p create = .ok q) :
    ∃ buf, newPath c p = .ok buf ∧
      (if create ∧ c ≠ 0 then readString buf else .ok p) = .ok q := by
  unfold openPath at h
  cases hbuf : newPath c p with
  | error r =>
    rw [hbuf] at h
    cases h
  | ok buf =>
    rw [hbuf] at h
    exact ⟨buf, rfl, h⟩

theorem openPath_zero {create : Bool} (h : openPath 0 p create = .ok q) : q = p := by
  obtain ⟨buf, -, hq⟩ := openPath_ok h
  rw [if_neg fun h => h.2 rfl] at hq
  exact (Except.ok.inj hq).symm

/-- Without `O_CREATE` a path stays as it is. -/
theorem openPath_plain {create : Bool} (h : openPath c p create = .ok q) :
    openPath c p false = .ok p := by
  obtain ⟨buf, hbuf, -⟩ := openPath_ok h
  rw [openPath, hbuf]
  rfl

/-! ### What `newPath` holds -/

/-- The byte between `cn` and `-`. -/
def digit (c : ℤ) : UInt8 :=
  if c = 1 then '1'.toUInt8 else if c = 2 then '2'.toUInt8 else if c = 3 then '3'.toUInt8 else 0

theorem digit_eq_zero (h : 3 < c) : digit c = 0 := by
  unfold digit
  rw [if_neg (by omega), if_neg (by omega), if_neg (by omega)]

theorem digit_ne_zero (h : 1 ≤ c) (h3 : c ≤ 3) : digit c ≠ 0 := by
  have : c = 1 ∨ c = 2 ∨ c = 3 := by omega
  rcases this with rfl | rfl | rfl <;> decide

theorem digit_injective (hc : 1 ≤ c) (hc3 : c ≤ 3) (hd : 1 ≤ d) (hd3 : d ≤ 3)
    (h : digit c = digit d) : c = d := by
  have hc : c = 1 ∨ c = 2 ∨ c = 3 := by omega
  have hd : d = 1 ∨ d = 2 ∨ d = 3 := by omega
  rcases hc with rfl | rfl | rfl <;> rcases hd with rfl | rfl | rfl <;> revert h <;> decide

theorem copyPath_eq (hd : List UInt8) (n itr : ℕ) (path : List UInt8) (h : hd.length = 4 + itr) :
    copyPath (hd ++ List.replicate n 0) itr path =
      if path.length ≤ n then .ok (hd ++ path ++ List.replicate (n - path.length) 0)
      else .error .outOfBounds := by
  induction path generalizing hd n itr with
  | nil => simp [copyPath]
  | cons b path ih =>
    cases n with
    | zero => simp [copyPath, store, h, bind, Except.bind]
    | succ n =>
      have hset : (hd ++ List.replicate (n + 1) 0).set (4 + itr) b =
          (hd ++ [b]) ++ List.replicate n 0 := by
        rw [← h, List.set_append_right _ _ (Nat.le_refl _), Nat.sub_self, List.replicate_succ,
          List.set_cons_zero, List.append_assoc, List.singleton_append]
      have hstore : store (hd ++ List.replicate (n + 1) 0) (4 + itr) b =
          .ok ((hd ++ [b]) ++ List.replicate n 0) := by
        rw [store, hset, if_pos (by simp [h])]
      rw [copyPath, hstore]
      change copyPath _ _ _ = _
      rw [ih (hd ++ [b]) n (itr + 1) (by simp [h]; omega)]
      simp [Nat.succ_sub_succ]

theorem newPath_eq (h : 1 ≤ c) : newPath c p =
    if p.strlen ≤ 26 then
      .ok (['c'.toUInt8, 'n'.toUInt8, digit c, '-'.toUInt8] ++ p.bytes ++
        List.replicate (26 - p.strlen) 0)
    else .error .outOfBounds := by
  have hcopy := copyPath_eq ['c'.toUInt8, 'n'.toUInt8, digit c, '-'.toUInt8] 26 0 p.bytes rfl
  refine Eq.trans ?_ hcopy
  have hc : c = 1 ∨ c = 2 ∨ c = 3 ∨ 3 < c := by omega
  rcases hc with rfl | rfl | rfl | hc
  · rfl
  · rfl
  · rfl
  · have h1 : c ≠ 1 := by omega
    have h2 : c ≠ 2 := by omega
    have h3 : c ≠ 3 := by omega
    have h0 : c > 0 := by omega
    simp only [newPath, h1, h2, h3, h0, digit_eq_zero hc, if_true, if_false]
    rfl

theorem readString_of_eq {buf : List UInt8} (s : CString) (rest : List UInt8)
    (h : buf = s.bytes ++ 0 :: rest) : readString buf = .ok s := by
  subst h
  have hall : ∀ b ∈ s.bytes, decide (b ≠ 0) = true := by
    intro b hb
    rw [decide_eq_true_eq]
    rintro rfl
    exact s.nonzero hb
  have htake : (s.bytes ++ 0 :: rest).takeWhile (· ≠ 0) = s.bytes := by
    rw [List.takeWhile_append_of_pos hall]
    simp
  unfold readString
  rw [if_pos (by simp)]
  congr 2

theorem readString_error {buf : List UInt8} (h : 0 ∉ buf) :
    readString buf = .error .outOfBounds := if_neg h

/-- The paths for which `sys_open` builds a name: the copy stays inside of the 30 bytes, and
for the containers with a digit so does the terminating zero. -/
def Fits (c : ℤ) (p : CString) : Prop := p.strlen ≤ if c ≤ 3 then 25 else 26

/-- The name of `sys_open`: without a digit it ends after `cn`. -/
def nameBytes (c : ℤ) (p : CString) : List UInt8 :=
  if c ≤ 3 then ['c'.toUInt8, 'n'.toUInt8, digit c, '-'.toUInt8] ++ p.bytes
  else ['c'.toUInt8, 'n'.toUInt8]

theorem nameBytes_nonzero (h : 1 ≤ c) : 0 ∉ nameBytes c p := by
  unfold nameBytes
  split_ifs with hc
  · have hd := (digit_ne_zero h hc).symm
    have hp := p.nonzero
    simp only [List.cons_append, List.nil_append, List.mem_cons, hd, hp, or_false]
    decide
  · decide

/-- The name, where there is one. -/
theorem openPath_of_fits (h : 1 ≤ c) (hf : Fits c p) :
    openPath c p true = .ok ⟨nameBytes c p, nameBytes_nonzero h⟩ := by
  have h0 : c ≠ 0 := by omega
  unfold Fits at hf
  unfold openPath
  split_ifs at hf with hc
  · rw [newPath_eq h, if_pos (by omega)]
    change (if _ then _ else _) = _
    rw [if_pos ⟨rfl, h0⟩, show 26 - p.strlen = (25 - p.strlen) + 1 by omega, List.replicate_succ]
    apply readString_of_eq ⟨nameBytes c p, nameBytes_nonzero h⟩ (List.replicate (25 - p.strlen) 0)
    simp [nameBytes, hc]
  · rw [newPath_eq h, if_pos hf, digit_eq_zero (by omega)]
    change (if _ then _ else _) = _
    rw [if_pos ⟨rfl, h0⟩]
    apply readString_of_eq ⟨nameBytes c p, nameBytes_nonzero h⟩
      ('-'.toUInt8 :: p.bytes ++ List.replicate (26 - p.strlen) 0)
    simp [nameBytes, hc]

theorem openPath_of_not_fits (h : 1 ≤ c) (hf : ¬ Fits c p) :
    openPath c p true = .error .outOfBounds := by
  have h0 : c ≠ 0 := by omega
  unfold Fits at hf
  unfold openPath
  by_cases hlen : p.strlen ≤ 26
  · split_ifs at hf with hc
    · rw [newPath_eq h, if_pos hlen]
      change (if _ then _ else _) = _
      rw [if_pos ⟨rfl, h0⟩, show 26 - p.strlen = 0 by omega]
      apply readString_error
      have := nameBytes_nonzero (p := p) h
      rw [nameBytes, if_pos hc] at this
      simpa using this
    · exact absurd hlen hf
  · rw [newPath_eq h, if_neg hlen]
    rfl

theorem openPath_eq_ok (h : 1 ≤ c) {n : CString} :
    openPath c p true = .ok n ↔ Fits c p ∧ n.bytes = nameBytes c p := by
  by_cases hf : Fits c p
  · rw [openPath_of_fits h hf, Except.ok.injEq, CString.mk.injEq]
    exact ⟨fun h => ⟨hf, h.symm⟩, fun h => h.2.symm⟩
  · rw [openPath_of_not_fits h hf]
    exact ⟨nofun, fun h => absurd h.1 hf⟩

/-- Both names exist and they are different. -/
def NamesDiffer (c : ℤ) (p : CString) (d : ℤ) (q : CString) : Prop :=
  ∃ n m, openPath c p true = .ok n ∧ openPath d q true = .ok m ∧ n ≠ m

theorem namesDiffer_iff (hc : 1 ≤ c) (hd : 1 ≤ d) :
    NamesDiffer c p d q ↔ Fits c p ∧ Fits d q ∧ nameBytes c p ≠ nameBytes d q := by
  constructor
  · rintro ⟨n, m, hn, hm, hne⟩
    obtain ⟨hp, hn⟩ := (openPath_eq_ok hc).1 hn
    obtain ⟨hq, hm⟩ := (openPath_eq_ok hd).1 hm
    refine ⟨hp, hq, fun h => hne ?_⟩
    rw [CString.mk.injEq, hn, hm, h]
  · rintro ⟨hp, hq, hne⟩
    refine ⟨_, _, openPath_of_fits hc hp, openPath_of_fits hd hq, fun h => hne ?_⟩
    exact congrArg CString.bytes h

theorem nameBytes_injective (hc : 1 ≤ c) (hd : 1 ≤ d) (h3 : c ≤ 3 ∨ d ≤ 3)
    (h : nameBytes c p = nameBytes d q) : c = d ∧ p = q := by
  unfold nameBytes at h
  split_ifs at h with hc3 hd3
  · simp only [List.cons_append, List.nil_append, List.cons.injEq, true_and] at h
    exact ⟨digit_injective hc hc3 hd hd3 h.1, by rw [CString.mk.injEq]; exact h.2⟩
  · simp at h
  · simp at h
  · omega

/-- Two containers, or two paths in one container, have different names exactly when the
paths fit and one of the containers has a digit. -/
theorem namesDiffer_iff_digit (hc : 1 ≤ c) (hd : 1 ≤ d) (h : c ≠ d ∨ p ≠ q) :
    NamesDiffer c p d q ↔ Fits c p ∧ Fits d q ∧ (c ≤ 3 ∨ d ≤ 3) := by
  rw [namesDiffer_iff hc hd]
  refine and_congr_right fun _ => and_congr_right fun _ => ⟨fun hne => ?_, fun h3 heq => ?_⟩
  · by_contra h3
    apply hne
    rw [nameBytes, nameBytes, if_neg (by omega), if_neg (by omega)]
  · obtain ⟨rfl, rfl⟩ := nameBytes_injective hc hd h3 heq
    exact h.elim (· rfl) (· rfl)

/-- The path `a`. -/
def pathA : CString := ⟨['a'.toUInt8], by decide⟩

theorem namesDiffer_one_four : NamesDiffer 1 pathA 4 pathA ∧ Fits 1 pathA ∧ Fits 4 pathA := by
  have hf : Fits 1 pathA ∧ Fits 4 pathA := by unfold Fits; decide
  exact ⟨(namesDiffer_iff_digit (by decide) (by decide) (.inl (by decide))).2
    ⟨hf.1, hf.2, .inl (by decide)⟩, hf⟩

/-- The containers 4 and 5 have one file `cn` for all their paths. -/
theorem names_of_four_and_five_collide :
    ¬ ∀ c d : ℤ, 1 ≤ c → c < NCONT → 1 ≤ d → d < NCONT → ∀ p q : CString,
      c ≠ d ∨ p ≠ q ∧ p.strlen ≤ 25 ∧ q.strlen ≤ 25 → NamesDiffer c p d q := by
  intro h
  obtain ⟨n, m, hn, hm, hne⟩ := h 4 5 (by decide) (by decide) (by decide) (by decide) pathA pathA
    (.inl (by decide))
  apply hne
  have heq : openPath 4 pathA true = openPath 5 pathA true := by decide
  rw [hn, hm] at heq
  exact Except.ok.inj heq

end Xv6Container.Fs
