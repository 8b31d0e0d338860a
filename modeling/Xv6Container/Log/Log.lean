import Xv6Container.Lib.RedoLog
import Xv6Container.Log.Bio

/-! Commit and recovery in `log.c`, on the disk that `mkfs` makes: the log starts at block 2
and has `nlog` blocks, the header first. -/

namespace Xv6Container.Log

open Lib

/-! ### The header block -/

/-- `sb.logstart`; `log.start`. -/
abbrev logstart : BlockNo := 2

/-- `log.start+tail+1`. -/
def logBlock (tail : ℕ) : BlockNo := logstart + .ofNat tail + 1

/-- The stores of `write_head` into the header block. -/
def putHead (x : Block) (lh : List BlockNo) : Block := fun w =>
  if w = 0 then .ofNat lh.length else lh.getD (w - 1) (x w)

/-- The loads of `read_head`; the count is an `int`. There is no result when the loop runs
over the end of `log.lh.block`. -/
def getHead (x : Block) : Option (List BlockNo) :=
  if 2 ^ 31 ≤ (x 0).toNat then some []
  else if (x 0).toNat ≤ LOGSIZE then
    some ((List.range (x 0).toNat).map fun i => x (.ofNat 128 (i + 1)))
  else none

theorem getHead_putHead (x : Block) {lh : List BlockNo} (h : lh.length ≤ LOGSIZE) :
    getHead (putHead x lh) = some lh := by
  have h0 : (putHead x lh 0).toNat = lh.length := by
    have hlt : lh.length < 2 ^ 32 := Nat.lt_of_le_of_lt h (by decide)
    rw [putHead, if_pos rfl]
    exact UInt32.toNat_ofNat_of_lt' hlt
  have hlen : ¬ 2 ^ 31 ≤ lh.length := by
    simp only [LOGSIZE, MAXOPBLOCKS] at h
    omega
  rw [getHead, h0, if_neg hlen, if_pos h, Option.some.injEq]
  apply List.ext_getElem
  · simp
  · intro i hi hi'
    simp only [LOGSIZE, MAXOPBLOCKS] at h
    have hi128 : i + 1 < 128 := by omega
    have hval : (Fin.ofNat 128 (i + 1)).val = i + 1 := Nat.mod_eq_of_lt hi128
    have hne : Fin.ofNat 128 (i + 1) ≠ 0 := by
      intro h0
      have := congrArg Fin.val h0
      rw [hval] at this
      exact Nat.succ_ne_zero i this
    rw [List.getElem_map, List.getElem_range, putHead, if_neg hne, hval]
    simp [hi']

/-! ### Commit and recovery -/

/-- `log.lh.block[tail]`. -/
def lhBlock (tail : ℕ) : Run BlockNo := return (← get).lh.getD tail 0

def setLh (lh : List BlockNo) : Run Unit := modify fun k => { k with lh := lh }

/-- The body of the loop in `install_trans`. -/
def installBlock (tail : ℕ) : Run Unit := do
  let lbuf ← bread ROOTDEV (logBlock tail)
  let dbuf ← bread ROOTDEV (← lhBlock tail)
  setData dbuf ((← get).buf lbuf).data
  bwrite dbuf
  brelse lbuf
  brelse dbuf

def installTrans : Run Unit := do
  (List.range (← get).lh.length).forM installBlock

def readHead : Run Unit := do
  let buf ← bread ROOTDEV logstart
  match getHead ((← get).buf buf).data with
  | none => throw .outOfBounds
  | some lh =>
    setLh lh
    brelse buf

def writeHead : Run Unit := do
  let buf ← bread ROOTDEV logstart
  setData buf (putHead ((← get).buf buf).data (← get).lh)
  bwrite buf
  brelse buf

def recoverFromLog : Run Unit := do
  readHead
  installTrans
  setLh []
  writeHead

/-- The body of the loop in `write_log`. -/
def logOne (tail : ℕ) : Run Unit := do
  let tbuf ← bread ROOTDEV (logBlock tail)
  let fbuf ← bread ROOTDEV (← lhBlock tail)
  setData tbuf ((← get).buf fbuf).data
  bwrite tbuf
  brelse fbuf
  brelse tbuf

def writeLog : Run Unit := do
  (List.range (← get).lh.length).forM logOne

def commit : Run Unit := do
  if (← get).lh.length > 0 then
    writeLog
    writeHead
    installTrans
    setLh []
    writeHead

/-- The locked part of `log_write` on the buffer of block `b`. -/
def logWrite (b : BlockNo) (i : BufId) : Run Unit := do
  match logWriteAdd (← get).lh b with
  | .error e => throw e
  | .ok lh =>
    setLh lh
    setBuf i fun u => { u with dirty := true }

/-! ### The log area -/

/-- The blocks of the file system outside the log. -/
def Home (b : BlockNo) : Prop := (b.toNat < 2 ∨ 2 + nlog ≤ b.toNat) ∧ b.toNat < FSSIZE

instance (b : BlockNo) : Decidable (Home b) :=
  inferInstanceAs (Decidable ((b.toNat < 2 ∨ 2 + nlog ≤ b.toNat) ∧ b.toNat < FSSIZE))

theorem logBlock_toNat {i : ℕ} (hi : i < nlog - 1) : (logBlock i).toNat = i + 3 := by
  change i < 29 at hi
  simp only [logBlock, logstart, UInt32.toNat_add, UInt32.toNat_ofNat', UInt32.reduceToNat]
  omega

/-- `mkfs` leaves room for the header and one block less than `nlog`. -/
def area : LogArea BlockNo Block where
  head := logstart
  slot := logBlock
  cap := nlog - 1
  entries := getHead
  Home := Home
  slot_ne_head i hi h := by
    have := congrArg UInt32.toNat h
    rw [logBlock_toNat hi] at this
    change i + 3 = 2 at this
    omega
  slot_inj i hi j hj h := by
    have := congrArg UInt32.toNat h
    rw [logBlock_toNat hi, logBlock_toNat hj] at this
    omega
  slot_not_home i hi h := by
    have := h.1
    rw [logBlock_toNat hi] at this
    simp only [nlog, LOGSIZE, MAXOPBLOCKS] at this hi
    omega
  head_not_home h := by
    have := h.1
    change 2 < 2 ∨ 32 ≤ 2 at this
    omega

end Xv6Container.Log
