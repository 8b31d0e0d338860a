import Mathlib.Data.List.Nodup
import Mathlib.Data.Int.Notation
import Mathlib.Tactic.Common
import Mathlib.Algebra.Ring.Nat
import Xv6Container.Lib.Numerals

/-! The header of the log in `log.c`: the list of the block numbers of the transaction,
in memory and as the first block of the log area. `mkfs` gives the log `LOGSIZE` blocks,
of which the header is one. -/

namespace Xv6Container.Log

abbrev MAXOPBLOCKS : ℕ := 10
abbrev LOGSIZE : ℕ := MAXOPBLOCKS * 3

/-- The number of log blocks that `mkfs` writes into the super block; `log.size`. -/
abbrev nlog : ℕ := LOGSIZE

abbrev BlockNo := UInt32

/-- Why the kernel does not go on: the action is not possible here, it waits for a lock
that it holds itself, the power fails, an index lies outside its array, or it panics. -/
inductive Stop where
  | disabled
  | blocked
  | powerFail
  | outOfBounds
  | panic (msg : String)
  deriving DecidableEq, Repr

/-- The tests at the start of `log_write`, made without `log.lock`. -/
def logWriteTest (lh : List BlockNo) (outstanding : ℤ) : Except Stop Unit :=
  if lh.length ≥ LOGSIZE ∨ lh.length ≥ nlog - 1 then .error (.panic "too big a transaction")
  else if outstanding < 1 then .error (.panic "log_write outside of trans")
  else .ok ()

/-- The rest of `log_write`, under `log.lock`: a block that is in the header already is
absorbed, a new one goes to the end. -/
def logWriteAdd (lh : List BlockNo) (b : BlockNo) : Except Stop (List BlockNo) :=
  if b ∈ lh then .ok lh
  else if lh.length < LOGSIZE then .ok (lh ++ [b])
  else .error .outOfBounds

theorem logWriteAdd_ok {lh lh' : List BlockNo} {b : BlockNo} (h : logWriteAdd lh b = .ok lh') :
    b ∈ lh ∧ lh' = lh ∨ b ∉ lh ∧ lh.length < LOGSIZE ∧ lh' = lh ++ [b] := by
  unfold logWriteAdd at h
  split_ifs at h with hb hn
  · exact .inl ⟨hb, (Except.ok.inj h).symm⟩
  · exact .inr ⟨hb, hn, (Except.ok.inj h).symm⟩

theorem logWriteTest_tooBig {lh : List BlockNo} {o : ℤ}
    (h : logWriteTest lh o = .error (.panic "too big a transaction")) : nlog - 1 ≤ lh.length := by
  unfold logWriteTest at h
  split_ifs at h with hn ho
  · simp only [nlog, LOGSIZE, MAXOPBLOCKS] at hn ⊢
    omega
  · simp at h

end Xv6Container.Log
