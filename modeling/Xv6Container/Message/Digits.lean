import Mathlib.Data.List.TakeWhile
import Mathlib.Data.Nat.Digits.Lemmas
import Mathlib.Tactic.Ring
import Xv6Container.Message.Queue

/-! The sums that the workers of `assig1_8.c` send. `convert` writes a number as its decimal digits, the
lowest one first, each in a byte of the same value, with a zero at the end. -/

namespace Xv6Container.Message.Digits

open Function

variable {msg msg' : ℕ → UInt8} {n k loc room : ℕ} {siz sum : ℤ}

/-! ### The source -/

/-- `while(partialsum > 0)` of `convert`, and the zero that is written behind the digits. -/
def convertLoop (partialsum loc : ℕ) (msg : ℕ → UInt8) : ℕ → UInt8 :=
  if partialsum > 0 then
    convertLoop (partialsum / 10) (loc + 1) (update msg loc (UInt8.ofNat (partialsum % 10)))
  else update msg loc 0
termination_by partialsum
decreasing_by
  apply Nat.div_lt_self
  · assumption
  · decide

/-- The bytes from `msg` on, after `convert` of a number that is not negative. -/
def convert (partialsum : ℕ) (msg : ℕ → UInt8) : ℕ → UInt8 :=
  convertLoop (partialsum / 10) 1 (update msg 0 (UInt8.ofNat (partialsum % 10)))

/-- The loop of `deconvert`. There are `room` bytes left of the array. -/
def deconvertLoop (msg : ℕ → UInt8) : ℕ → ℕ → ℤ → ℤ → Option ℤ
  | 0, _, _, _ => none
  | room + 1, loc, siz, sum =>
    if msg loc = 0 then some sum
    else deconvertLoop msg room (loc + 1) (siz * 10) (sum + (msg loc).toInt8.toInt * siz)

/-- `deconvert` of `char msg[8]`; no byte behind the array is read. -/
def deconvert (msg : ℕ → UInt8) : Option ℤ := deconvertLoop msg MSGSIZE 0 1 0

/-- What `send` takes from the pointer `msg`. -/
def sent (msg : ℕ → UInt8) : Msg := Vector.ofFn fun loc => msg loc

/-- What `recv` leaves at the pointer `msg`. -/
def received (v : Msg) (msg : ℕ → UInt8) (loc : ℕ) : UInt8 :=
  if h : loc < MSGSIZE then v.get ⟨loc, h⟩ else msg loc

/-! ### The digits in the message -/

theorem convertLoop_of_lt {a : ℕ} (h : a < loc) : convertLoop k loc msg a = msg a := by
  induction k, loc, msg using convertLoop.induct with
  | case1 k loc msg hk ih =>
    rw [convertLoop, if_pos hk, ih (Nat.lt_succ_of_lt h), update_of_ne h.ne]
  | case2 k loc msg hk => rw [convertLoop, if_neg hk, update_of_ne h.ne]

theorem convertLoop_add {i : ℕ} (hi : i ≤ (Nat.digits 10 k).length) :
    convertLoop k loc msg (loc + i) = UInt8.ofNat ((Nat.digits 10 k).getD i 0) := by
  induction k, loc, msg using convertLoop.induct generalizing i with
  | case1 k loc msg hk ih =>
    have hdigits := Nat.digits_eq_cons_digits_div (b := 10) (by decide) (Nat.ne_of_gt hk)
    rw [convertLoop, if_pos hk, hdigits]
    rw [hdigits, List.length_cons] at hi
    cases i with
    | zero =>
      rw [Nat.add_zero loc, convertLoop_of_lt (Nat.lt_add_one loc), update_self]
      rfl
    | succ i =>
      rw [List.getD_cons_succ, ← ih (Nat.le_of_succ_le_succ hi)]
      congr 1
      omega
  | case2 k loc msg hk =>
    obtain rfl : k = 0 := Nat.eq_zero_of_not_pos hk
    rw [Nat.digits_zero] at hi
    obtain rfl : i = 0 := Nat.le_zero.1 hi
    rw [convertLoop, if_neg hk, Nat.add_zero, update_self]
    rfl

theorem convert_apply {i : ℕ} (hi : i ≤ (Nat.digits 10 n).length) :
    convert n msg i = UInt8.ofNat ((Nat.digits 10 n).getD i 0) := by
  rw [convert]
  cases i with
  | zero =>
    rw [convertLoop_of_lt Nat.zero_lt_one, update_self, Nat.getD_digits n 0 (by decide)]
    simp
  | succ i =>
    have hn : n ≠ 0 := by
      rintro rfl
      rw [Nat.digits_zero] at hi
      exact Nat.not_succ_le_zero i hi
    have hdigits := Nat.digits_eq_cons_digits_div (b := 10) (by decide) hn
    rw [hdigits, List.length_cons] at hi
    rw [hdigits, List.getD_cons_succ, ← convertLoop_add (Nat.le_of_succ_le_succ hi), Nat.add_comm]

/-! ### Reading them -/

theorem toInt_digit {d : ℕ} (hd : d < 10) : (UInt8.ofNat d).toInt8.toInt = d := by
  interval_cases d <;> rfl

theorem ofNat_digit_eq_zero {d : ℕ} (hd : d < 10) : UInt8.ofNat d = 0 ↔ d = 0 := by
  interval_cases d <;> decide

/-- `deconvert` reads the digits in front of the first zero. -/
theorem deconvertLoop_digits (ds : List ℕ) (hds : ∀ d ∈ ds, d < 10)
    (hmsg : ∀ i ≤ ds.length, msg (loc + i) = UInt8.ofNat (ds.getD i 0)) (hroom : ds.length < room) :
    deconvertLoop msg room loc siz sum =
      some (sum + siz * (Nat.ofDigits 10 (ds.takeWhile (· ≠ 0)) : ℕ)) := by
  obtain ⟨room, rfl⟩ := Nat.exists_eq_add_one_of_ne_zero (Nat.ne_zero_of_lt hroom)
  induction ds generalizing room loc siz sum with
  | nil =>
    have hzero : msg loc = 0 := hmsg 0 (Nat.zero_le _)
    rw [deconvertLoop, if_pos hzero]
    simp
  | cons d ds ih =>
    obtain ⟨hd, hds⟩ := List.forall_mem_cons.1 hds
    have hloc : msg loc = UInt8.ofNat d := hmsg 0 (Nat.zero_le _)
    rw [deconvertLoop, hloc, toInt_digit hd]
    split_ifs with hbyte
    · have hzero : d = 0 := (ofNat_digit_eq_zero hd).1 hbyte
      rw [List.takeWhile_cons_of_neg (by simpa using hzero)]
      simp
    · have hzero : d ≠ 0 := fun h => hbyte ((ofNat_digit_eq_zero hd).2 h)
      rw [List.length_cons] at hroom
      obtain ⟨room, rfl⟩ := Nat.exists_eq_add_one_of_ne_zero (by omega : room ≠ 0)
      rw [List.takeWhile_cons_of_pos (by simpa using hzero), Nat.ofDigits_cons,
        ih hds _ room (Nat.lt_of_succ_lt_succ hroom)]
      · push_cast
        congr 1
        ring
      · intro i hi
        rw [Nat.add_assoc, Nat.add_comm 1]
        exact hmsg (i + 1) (Nat.succ_le_succ hi)

/-- The digits in front of the first zero are the number just when none of them is zero. -/
theorem ofDigits_takeWhile_iff : Nat.ofDigits 10 ((Nat.digits 10 n).takeWhile (· ≠ 0)) = n ↔
    0 ∉ Nat.digits 10 n := by
  constructor
  · intro h hmem
    have hne : ∀ d ∈ (Nat.digits 10 n).takeWhile (· ≠ 0), d ≠ 0 := fun d hd => by
      simpa using List.mem_takeWhile_imp hd
    have hdigits := Nat.digits_ofDigits 10 (by decide) ((Nat.digits 10 n).takeWhile (· ≠ 0))
      (fun d hd => Nat.digits_lt_base (by decide) (List.takeWhile_subset _ hd))
      (fun hnil => hne _ (List.getLast_mem hnil))
    rw [h] at hdigits
    exact hne 0 (hdigits ▸ hmem) rfl
  · intro h
    rw [List.takeWhile_eq_self_iff.2, Nat.ofDigits_digits]
    intro d hd
    simpa using fun hzero : d = 0 => h (hzero ▸ hd)

theorem deconvert_convert (hn : n < 10 ^ 7) (hmsg : ∀ i < MSGSIZE, msg' i = convert n msg i) :
    deconvert msg' = some (n : ℤ) ↔ 0 ∉ Nat.digits 10 n := by
  have hlen : (Nat.digits 10 n).length ≤ 7 := (Nat.digits_length_le_iff (by decide) n).2 hn
  rw [deconvert, deconvertLoop_digits (Nat.digits 10 n)
    (fun d hd => Nat.digits_lt_base (by decide) hd), ← ofDigits_takeWhile_iff, zero_add, one_mul,
    Option.some.injEq, Nat.cast_inj]
  · intro i hi
    rw [Nat.zero_add, hmsg i ((hi.trans hlen).trans_lt (by decide)), convert_apply hi]
  · exact hlen.trans_lt (by decide)

/-! ### On the way -/

theorem received_sent {i : ℕ} (hi : i < MSGSIZE) : received (sent msg) msg' i = msg i := by
  rw [received, dif_pos hi, sent]
  exact Vector.getElem_ofFn hi

/-- The message that is put into an empty queue comes out of it. -/
theorem deQueue_enQueue (m : Mem) {q : Queue} (hq : q.front = none) (v : Msg) (page : Page) :
    ∃ m' q', deQueue (enQueue m q v (some page)).1 (enQueue m q v (some page)).2 =
      some (v, m', q') := by
  have hmsg : (((m.kalloc (some page)).setMsg (some page) v).setLink (some page) (some page)).msg page =
      v := by
    rw [Mem.msg_setLink, Mem.msg_setMsg_self]
  rw [enQueue_of_empty hq]
  simp only [deQueue, if_true, hmsg]
  exact ⟨_, _, rfl⟩

/-- The parent reads the sum of a worker just when no decimal digit of it is zero. -/
theorem deconvert_iff (hn : n < 10 ^ 7) (msg msg' : ℕ → UInt8) (m : Mem) {q : Queue}
    (hq : q.front = none) (page : Page) :
    (deconvert (convert n msg) = some (n : ℤ) ↔ 0 ∉ Nat.digits 10 n) ∧
    ∃ v m' q', deQueue (enQueue m q (sent (convert n msg)) (some page)).1
        (enQueue m q (sent (convert n msg)) (some page)).2 = some (v, m', q') ∧
      (deconvert (received v msg') = some (n : ℤ) ↔ 0 ∉ Nat.digits 10 n) := by
  refine ⟨deconvert_convert hn fun i _ => rfl, ?_⟩
  obtain ⟨m', q', h⟩ := deQueue_enQueue m hq (sent (convert n msg)) page
  exact ⟨_, m', q', h, deconvert_convert hn fun i hi => received_sent hi⟩

theorem deconvert_iff_sum :
    (deconvert (convert 1234 fun _ => 0) = some (1234 : ℕ) ↔ 0 ∉ Nat.digits 10 1234) ∧
      0 ∉ Nat.digits 10 1234 := by
  let m : Mem := ⟨fun _ => ⟨Vector.replicate MSGSIZE 0, none⟩, fun _ => false⟩
  refine ⟨(deconvert_iff (by decide) (fun _ => 0) (fun _ => 0) m (q := ⟨none, none⟩) rfl 0).1, ?_⟩
  simp

/-- Ten is received as nought: its lowest digit is taken for the end. -/
theorem deconvert_ten : deconvert (convert 10 fun _ => 1) = some 0 := by
  simp [convert, convertLoop, deconvert, deconvertLoop]

end Xv6Container.Message.Digits
