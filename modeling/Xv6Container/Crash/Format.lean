import Mathlib.Tactic.IntervalCases
import Xv6Container.Ops.Model

/-! The format of the blocks in `fs.h`: a dinode is 64 bytes of a block, with its numbers in little
endian, and the bitmap has one bit for each block. What the code stores in a block it reads back, and a
store changes one inode or one bit of the block that was read. -/

namespace Xv6Container.Crash

open Fs (BSIZE BPB NDIRECT NINDIRECT AddrIdx Dinode FileType Block getUint)
open Ops (IPB)

variable {a : Block} {d : Dinode} {b i j x : ℕ} {y : ℤ}

/-! ### Numbers -/

/-- Byte `k` of a number in memory. -/
def byteOf (x k : ℕ) : UInt8 := .ofNat (x / 256 ^ k)

/-- A `short` as the number that has its bits. -/
def ofShort (y : ℤ) : ℕ := (y % 65536).toNat

/-- The `short` at the bytes `m`. -/
def shortAt (m : ℕ → UInt8) : ℤ :=
  let x : ℕ := (m 0).toNat + 256 * (m 1).toNat
  if x < 32768 then x else x - 65536

/-- The `uint` at the bytes `m`. -/
def uintAt (m : ℕ → UInt8) : ℕ :=
  (m 0).toNat + 256 * (m 1).toNat + 65536 * (m 2).toNat + 16777216 * (m 3).toNat

/-- The values of a `short`. -/
def IsShort (y : ℤ) : Prop := -32768 ≤ y ∧ y < 32768

instance (y : ℤ) : Decidable (IsShort y) := inferInstanceAs (Decidable (_ ∧ _))

theorem byteOf_toNat (x k : ℕ) : (byteOf x k).toNat = x / 256 ^ k % 256 := UInt8.toNat_ofNat'

theorem shortAt_byteOf (h : IsShort y) : shortAt (byteOf (ofShort y)) = y := by
  obtain ⟨hlow, hhigh⟩ := h
  simp only [shortAt, byteOf_toNat, ofShort, pow_zero, pow_one, Nat.div_one]
  split_ifs with hx <;> omega

theorem uintAt_byteOf (h : x < 2 ^ 32) : uintAt (byteOf x) = x := by
  simp only [uintAt, byteOf_toNat]
  omega

/-! ### Inodes -/

/-- `T_DIR`, `T_FILE` and `T_DEV` of `stat.h`. -/
def typeCode : FileType → ℕ
  | .free => 0
  | .dir => 1
  | .file => 2
  | .dev => 3

def typeOf : ℤ → FileType
  | 1 => .dir
  | 2 => .file
  | 3 => .dev
  | _ => .free

/-- Byte `o` of a `struct dinode`. -/
def dinodeByte (d : Dinode) (o : ℕ) : UInt8 :=
  if o < 2 then byteOf (typeCode d.type) o
  else if o < 4 then byteOf (ofShort d.major) (o - 2)
  else if o < 6 then byteOf (ofShort d.minor) (o - 4)
  else if o < 8 then byteOf (ofShort d.nlink) (o - 6)
  else if o < 12 then byteOf d.size (o - 8)
  else byteOf (d.addrs (.ofNat (NDIRECT + 1) ((o - 12) / 4))) ((o - 12) % 4)

/-- The `struct dinode` at the bytes `m`. -/
def dinodeAt (m : ℕ → UInt8) : Dinode where
  type := typeOf (shortAt m)
  major := shortAt fun o => m (2 + o)
  minor := shortAt fun o => m (4 + o)
  nlink := shortAt fun o => m (6 + o)
  size := uintAt fun o => m (8 + o)
  addrs k := uintAt fun o => m (12 + 4 * k + o)

/-- The numbers of a dinode fit in its fields. -/
structure Fits (d : Dinode) : Prop where
  major : IsShort d.major
  minor : IsShort d.minor
  nlink : IsShort d.nlink
  size : d.size < 2 ^ 32
  addrs : ∀ k, d.addrs k < 2 ^ 32

theorem typeOf_typeCode (t : FileType) : typeOf (typeCode t) = t := by cases t <;> rfl

/-- Only the first two bytes are read. -/
theorem shortAt_congr {m m' : ℕ → UInt8} (h : ∀ o < 2, m o = m' o) : shortAt m = shortAt m' := by
  rw [shortAt, shortAt, h 0 (by decide), h 1 (by decide)]

/-- Only the first four bytes are read. -/
theorem uintAt_congr {m m' : ℕ → UInt8} (h : ∀ o < 4, m o = m' o) : uintAt m = uintAt m' := by
  rw [uintAt, uintAt, h 0 (by decide), h 1 (by decide), h 2 (by decide), h 3 (by decide)]

theorem dinodeAt_congr {m m' : ℕ → UInt8} (h : ∀ o < 64, m o = m' o) : dinodeAt m = dinodeAt m' := by
  have haddr (k : AddrIdx) (o : ℕ) (ho : o < 4) : 12 + 4 * k.val + o < 64 := by
    have := k.isLt
    simp only [NDIRECT] at this
    omega
  simp only [dinodeAt, Dinode.mk.injEq]
  refine ⟨congrArg typeOf (shortAt_congr fun o ho => h o (by omega)), ?_, ?_, ?_, ?_, ?_⟩
  · exact shortAt_congr fun o ho => h _ (by omega)
  · exact shortAt_congr fun o ho => h _ (by omega)
  · exact shortAt_congr fun o ho => h _ (by omega)
  · exact uintAt_congr fun o ho => h _ (by omega)
  · funext k
    exact uintAt_congr fun o ho => h _ (haddr k o ho)

/-- A dinode is read as it was stored. -/
theorem dinodeAt_dinodeByte (h : Fits d) : dinodeAt (dinodeByte d) = d := by
  have htype : shortAt (dinodeByte d) = typeCode d.type := by
    have hcode : IsShort (typeCode d.type) := by cases d.type <;> exact ⟨by decide, by decide⟩
    have heq : ofShort (typeCode d.type) = typeCode d.type := by cases d.type <;> rfl
    refine (shortAt_congr fun o ho => ?_).trans (shortAt_byteOf hcode)
    rw [dinodeByte, if_pos ho, heq]
  obtain ⟨type, major, minor, nlink, size, addrs⟩ := d
  simp only [dinodeAt, Dinode.mk.injEq]
  refine ⟨?_, ?_, ?_, ?_, ?_, ?_⟩
  · rw [htype, typeOf_typeCode]
  · refine (shortAt_congr fun o ho => ?_).trans (shortAt_byteOf h.major)
    rw [dinodeByte, if_neg (by omega), if_pos (by omega), Nat.add_sub_cancel_left]
  · refine (shortAt_congr fun o ho => ?_).trans (shortAt_byteOf h.minor)
    rw [dinodeByte, if_neg (by omega), if_neg (by omega), if_pos (by omega), Nat.add_sub_cancel_left]
  · refine (shortAt_congr fun o ho => ?_).trans (shortAt_byteOf h.nlink)
    rw [dinodeByte, if_neg (by omega), if_neg (by omega), if_neg (by omega), if_pos (by omega),
      Nat.add_sub_cancel_left]
  · refine (uintAt_congr fun o ho => ?_).trans (uintAt_byteOf h.size)
    rw [dinodeByte, if_neg (by omega), if_neg (by omega), if_neg (by omega), if_neg (by omega),
      if_pos (by omega), Nat.add_sub_cancel_left]
  · funext k
    refine (uintAt_congr fun o ho => ?_).trans (uintAt_byteOf (h.addrs k))
    have hk : (12 + 4 * k.val + o - 12) / 4 = k.val := by omega
    have ho' : (12 + 4 * k.val + o - 12) % 4 = o := by omega
    rw [dinodeByte, if_neg (by omega), if_neg (by omega), if_neg (by omega), if_neg (by omega),
      if_neg (by omega), hk, ho', Fin.ofNat_val_eq_self]

/-- `*((struct dinode*)bp->data + j)` -/
def getDinode (a : Block) (j : ℕ) : Dinode := dinodeAt fun o => a (.ofNat BSIZE (64 * j + o))

/-- A block in which `*((struct dinode*)bp->data + j)` has been set. -/
def putDinode (a : Block) (j : ℕ) (d : Dinode) : Block := fun o =>
  if o.val / 64 = j then dinodeByte d (o.val % 64) else a o

/-- A block of inodes. -/
def inodeBlock (inode : ℕ → Dinode) : Block := fun o => dinodeByte (inode (o.val / 64)) (o.val % 64)

theorem inodeBlock_congr {inode inode' : ℕ → Dinode} (h : ∀ j < IPB, inode j = inode' j) :
    inodeBlock inode = inodeBlock inode' := by
  funext o
  have ho := o.isLt
  rw [inodeBlock, inodeBlock, h]
  simp only [IPB, BSIZE] at ho ⊢
  omega

theorem getDinode_inodeBlock (inode : ℕ → Dinode) (hj : j < IPB) (h : Fits (inode j)) :
    getDinode (inodeBlock inode) j = inode j := by
  refine (dinodeAt_congr fun o ho => ?_).trans (dinodeAt_dinodeByte h)
  have hval : (Fin.ofNat BSIZE (64 * j + o)).val = 64 * j + o := by
    rw [Fin.val_ofNat]
    simp only [IPB, BSIZE] at hj ⊢
    omega
  have hdiv : (64 * j + o) / 64 = j := by omega
  have hmod : (64 * j + o) % 64 = o := by omega
  rw [inodeBlock, hval, hdiv, hmod]

theorem inodeBlock_update (inode : ℕ → Dinode) (j : ℕ) (d : Dinode) :
    inodeBlock (Function.update inode j d) = putDinode (inodeBlock inode) j d := by
  funext o
  rw [inodeBlock, putDinode, Function.update_apply]
  split_ifs <;> rfl

/-! ### The bitmap -/

/-- `m = 1 << (bi % 8)` -/
def mask (bi : ℕ) : UInt8 := 1 <<< UInt8.ofNat (bi % 8)

/-- `bp->data[bi/8] & m` -/
def getBit (a : Block) (bi : ℕ) : Bool := a (.ofNat BSIZE (bi / 8)) &&& mask bi != 0

/-- A block in which bit `bi` has been set or cleared. -/
def putBit (a : Block) (bi : ℕ) (u : Bool) : Block :=
  let c := a (.ofNat BSIZE (bi / 8))
  Function.update a (.ofNat BSIZE (bi / 8)) (if u then c ||| mask bi else c &&& ~~~mask bi)

/-- The byte with the bits `p`. -/
def bitsByte (p : ℕ → Bool) (ks : List ℕ) : UInt8 :=
  ks.foldr (fun k c => if p k then c ||| mask k else c) 0

def bitmapBlock (used : ℕ → Bool) : Block := fun o =>
  bitsByte (fun k => used (8 * o + k)) (List.range 8)

theorem getLsbD_mask {k : ℕ} (hk : k < 8) (bi : ℕ) :
    (mask bi).toBitVec.getLsbD k = decide (k = bi % 8) := by
  have hj : bi % 8 < 8 := Nat.mod_lt _ (by decide)
  rw [mask]
  interval_cases bi % 8 <;> interval_cases k <;> rfl

theorem getLsbD_bitsByte (p : ℕ → Bool) {ks : List ℕ} (hks : ∀ j ∈ ks, j < 8) {k : ℕ} (hk : k < 8) :
    (bitsByte p ks).toBitVec.getLsbD k = (decide (k ∈ ks) && p k) := by
  induction ks with
  | nil => exact BitVec.getLsbD_zero
  | cons j ks ih =>
    have hj : j % 8 = j := Nat.mod_eq_of_lt (hks j List.mem_cons_self)
    have ih := ih fun i hi => hks i (List.mem_cons_of_mem j hi)
    show (if p j then bitsByte p ks ||| mask j else bitsByte p ks).toBitVec.getLsbD k = _
    split_ifs with hp
    · rw [UInt8.toBitVec_or, BitVec.getLsbD_or, ih, getLsbD_mask hk, hj]
      by_cases hkj : k = j <;> simp [hkj, hp]
    · rw [ih]
      by_cases hkj : k = j <;> simp [hkj, hp]

theorem getLsbD_bitmapBlock (used : ℕ → Bool) (o : Fin BSIZE) {k : ℕ} (hk : k < 8) :
    (bitmapBlock used o).toBitVec.getLsbD k = used (8 * o + k) := by
  rw [bitmapBlock, getLsbD_bitsByte _ (fun j hj => List.mem_range.1 hj) hk,
    decide_eq_true (List.mem_range.2 hk), Bool.true_and]

theorem ext_bits {c c' : UInt8} (h : ∀ k < 8, c.toBitVec.getLsbD k = c'.toBitVec.getLsbD k) : c = c' :=
  UInt8.eq_of_toBitVec_eq (BitVec.eq_of_getLsbD_eq h)

theorem bit_val (hb : b < BPB) : (Fin.ofNat BSIZE (b / 8)).val = b / 8 := by
  rw [Fin.val_ofNat]
  simp only [BPB, BSIZE] at hb ⊢
  omega

theorem bit_index (hb : b < BPB) : 8 * (Fin.ofNat BSIZE (b / 8)).val + b % 8 = b := by
  rw [bit_val hb]
  omega

theorem getBit_bitmapBlock (used : ℕ → Bool) (hb : b < BPB) :
    getBit (bitmapBlock used) b = used b := by
  have hbit (k : ℕ) (hk : k < 8) :
      (bitmapBlock used (.ofNat BSIZE (b / 8)) &&& mask b).toBitVec.getLsbD k =
        (used b && decide (k = b % 8)) := by
    rw [UInt8.toBitVec_and, BitVec.getLsbD_and, getLsbD_mask hk, getLsbD_bitmapBlock _ _ hk]
    by_cases hkb : k = b % 8
    · rw [hkb, bit_index hb]
    · rw [decide_eq_false hkb, Bool.and_false, Bool.and_false]
  rw [getBit, Bool.eq_iff_iff, bne_iff_ne]
  refine ⟨fun hne => ?_, fun hu hzero => ?_⟩
  · by_contra hu
    refine hne (ext_bits fun k hk => ?_)
    rw [hbit k hk, Bool.eq_false_of_not_eq_true hu, Bool.false_and]
    exact BitVec.getLsbD_zero.symm
  · have hself := hbit (b % 8) (Nat.mod_lt _ (by decide))
    have hfalse : (0 : UInt8).toBitVec.getLsbD (b % 8) = false := BitVec.getLsbD_zero
    rw [hzero, hfalse, hu, decide_eq_true rfl] at hself
    exact absurd hself (by decide)

/-- The block that the code logs is the block that it has read with one bit changed. -/
theorem bitmapBlock_update (used : ℕ → Bool) (hb : b < BPB) (u : Bool) :
    bitmapBlock (Function.update used b u) = putBit (bitmapBlock used) b u := by
  funext o
  refine ext_bits fun k hk => ?_
  rw [getLsbD_bitmapBlock _ _ hk, putBit, Function.update_apply]
  by_cases ho : o = Fin.ofNat BSIZE (b / 8)
  · have hkb : 8 * o.val + k = b ↔ k = b % 8 := by
      rw [ho, bit_val hb]
      omega
    rw [ho, Function.update_self, ← ho]
    cases u with
    | true =>
      rw [if_pos rfl, UInt8.toBitVec_or, BitVec.getLsbD_or, getLsbD_mask hk, getLsbD_bitmapBlock _ _ hk]
      simp only [hkb]
      split_ifs with h <;> simp [h]
    | false =>
      rw [if_neg Bool.false_ne_true, UInt8.toBitVec_and, BitVec.getLsbD_and, UInt8.toBitVec_not,
        BitVec.getLsbD_not, getLsbD_mask hk, getLsbD_bitmapBlock _ _ hk]
      simp only [hkb]
      split_ifs with h <;> simp [h, hk]
  · have hne : 8 * o.val + k ≠ b := by
      intro h
      refine ho (Fin.ext ?_)
      rw [bit_val hb]
      omega
    rw [if_neg hne, Function.update_of_ne ho, getLsbD_bitmapBlock _ _ hk]

end Xv6Container.Crash
