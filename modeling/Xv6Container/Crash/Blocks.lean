import Xv6Container.Crash.Format
import Xv6Container.Log.Log

/-! The file system as blocks: behind the log come the inode blocks, the bitmap and the data. A change to
a block of data, to a bit or to a dinode is a change to one block outside the log. -/

namespace Xv6Container.Crash

open Fs (BSIZE BPB NINDIRECT Dinode Block getUint)
open Log (BlockNo FSSIZE nlog Home)
open Ops (Superblock Disk IPB)

/-! ### Words -/

/-- A block as the words that the log copies. -/
def words (a : Block) : Log.Block := fun w => .ofNat (getUint a w)

theorem div_four_lt (o : Fin BSIZE) : o.val / 4 < 128 := by
  have := o.isLt
  simp only [BSIZE] at this
  omega

def bytes (x : Log.Block) : Block := fun o => byteOf (x ⟨o.val / 4, div_four_lt o⟩).toNat (o.val % 4)

theorem bytes_words (a : Block) : bytes (words a) = a := by
  funext o
  have hbyte (k : Fin 4) (hk : o.val % 4 = k.val) :
      a (Fs.wordByte ⟨o.val / 4, div_four_lt o⟩ k) = a o := by
    congr 1
    apply Fin.ext
    show 4 * (o.val / 4) + k.val = o.val
    omega
  have hb (k : Fin 4) := (a (Fs.wordByte ⟨o.val / 4, div_four_lt o⟩ k)).toNat_lt
  have hb0 := hb 0
  have hb1 := hb 1
  have hb2 := hb 2
  have hb3 := hb 3
  rw [← UInt8.toNat_inj, bytes, byteOf_toNat, words, UInt32.toNat_ofNat', getUint]
  have hcases : o.val % 4 = 0 ∨ o.val % 4 = 1 ∨ o.val % 4 = 2 ∨ o.val % 4 = 3 := by omega
  rcases hcases with h | h | h | h
  · rw [← hbyte 0 h, h]
    omega
  · rw [← hbyte 1 h, h]
    omega
  · rw [← hbyte 2 h, h]
    omega
  · rw [← hbyte 3 h, h]
    omega

/-! ### The layout -/

/-- Where the super block puts the inodes, the bitmap and the data on a disk of `FSSIZE` blocks. -/
structure Layout (sb : Superblock) : Prop where
  log : 2 + nlog ≤ sb.inodestart
  order : sb.inodestart ≤ sb.bmapstart
  inodes : ∀ i < sb.ninodes, sb.iblock i < sb.bmapstart
  bitmap : sb.bmapstart < sb.datastart
  data : sb.datastart ≤ sb.size
  size : sb.size ≤ FSSIZE

/-- The blocks of the disk `d`; `base` are those that the file system does not change. -/
def encode (sb : Superblock) (base : Log.Disk) (d : Disk) : Log.Disk := fun b =>
  if sb.DataBlock b.toNat then words (d.data b.toNat)
  else if b.toNat = sb.bmapstart then words (bitmapBlock d.used)
  else if sb.inodestart ≤ b.toNat ∧ b.toNat < sb.bmapstart then
    words (inodeBlock fun j => d.inode ((b.toNat - sb.inodestart) * IPB + j))
  else base b

/-- The disk that `bread` finds in the blocks. -/
def decode (sb : Superblock) (v : Log.Disk) : Disk where
  inode i := getDinode (bytes (v (.ofNat (sb.iblock i)))) (i % IPB)
  used b := getBit (bytes (v (.ofNat (sb.bblock b)))) (b % BPB)
  data b := bytes (v (.ofNat b))

namespace Layout

variable {sb : Superblock} {base : Log.Disk} {d : Disk} {b i : ℕ}

theorem toNat_ofNat (hb : b < FSSIZE) : (UInt32.ofNat b).toNat = b :=
  UInt32.toNat_ofNat_of_lt' (hb.trans (by decide))

theorem eq_ofNat_iff (hb : b < FSSIZE) {x : BlockNo} : x = .ofNat b ↔ x.toNat = b := by
  rw [← UInt32.toNat_inj, toNat_ofNat hb]

variable (L : Layout sb)
include L

theorem bmapstart_lt : sb.bmapstart < FSSIZE := L.bitmap.trans_le (L.data.trans L.size)

theorem iblock_lt (hi : i < sb.ninodes) : sb.iblock i < FSSIZE := (L.inodes i hi).trans L.bmapstart_lt

theorem dataBlock_lt (hb : sb.DataBlock b) : b < FSSIZE := hb.2.trans_le L.size

theorem inodestart_le (i : ℕ) : 2 + nlog ≤ sb.iblock i := L.log.trans (Nat.le_add_left _ _)

theorem home_bmapstart : Home (.ofNat sb.bmapstart) := by
  rw [Home, toNat_ofNat L.bmapstart_lt]
  exact ⟨.inr (L.log.trans L.order), L.bmapstart_lt⟩

theorem home_iblock (hi : i < sb.ninodes) : Home (.ofNat (sb.iblock i)) := by
  rw [Home, toNat_ofNat (L.iblock_lt hi)]
  exact ⟨.inr (L.inodestart_le i), L.iblock_lt hi⟩

theorem home_data (hb : sb.DataBlock b) : Home (.ofNat b) := by
  rw [Home, toNat_ofNat (L.dataBlock_lt hb)]
  exact ⟨.inr (L.log.trans (L.order.trans (L.bitmap.le.trans hb.1))), L.dataBlock_lt hb⟩

/-! ### The three kinds of blocks -/

theorem encode_data (hb : sb.DataBlock b) : encode sb base d (.ofNat b) = words (d.data b) := by
  rw [encode, toNat_ofNat (L.dataBlock_lt hb), if_pos hb]

theorem encode_bitmap : encode sb base d (.ofNat sb.bmapstart) = words (bitmapBlock d.used) := by
  rw [encode, toNat_ofNat L.bmapstart_lt, if_neg fun h => absurd h.1 (not_le.2 L.bitmap), if_pos rfl]

theorem encode_inode (hi : i < sb.ninodes) : encode sb base d (.ofNat (sb.iblock i)) =
    words (inodeBlock fun j => d.inode (i / IPB * IPB + j)) := by
  have hlt := L.inodes i hi
  have hsub : sb.iblock i - sb.inodestart = i / IPB := Nat.add_sub_cancel ..
  rw [encode, toNat_ofNat (L.iblock_lt hi),
    if_neg fun h => absurd (h.1.trans hlt.le) (not_le.2 L.bitmap), if_neg hlt.ne,
    if_pos ⟨Nat.le_add_left _ _, hlt⟩, hsub]

/-- The write of a block of data. -/
theorem encode_setData (hb : sb.DataBlock b) (a : Block) :
    encode sb base { d with data := Function.update d.data b a } =
      Function.update (encode sb base d) (.ofNat b) (words a) := by
  funext x
  by_cases hx : x = .ofNat b
  · rw [hx, L.encode_data hb, Function.update_self]
    exact congrArg words (Function.update_self ..)
  · rw [Function.update_of_ne hx, encode, encode]
    rw [eq_ofNat_iff (L.dataBlock_lt hb)] at hx
    simp only [Function.update_of_ne hx]

/-- The bit that `balloc` sets and `bfree` clears, in the block that was read. -/
theorem encode_setUsed (hb : b < BPB) (u : Bool) :
    encode sb base { d with used := Function.update d.used b u } =
      Function.update (encode sb base d) (.ofNat sb.bmapstart)
        (words (putBit (bytes (encode sb base d (.ofNat sb.bmapstart))) b u)) := by
  funext x
  by_cases hx : x = .ofNat sb.bmapstart
  · rw [hx, L.encode_bitmap, L.encode_bitmap, Function.update_self, bytes_words]
    exact congrArg words (bitmapBlock_update _ hb u)
  · rw [Function.update_of_ne hx, encode, encode]
    rw [eq_ofNat_iff L.bmapstart_lt] at hx
    simp only [if_neg hx]

/-- The dinode that `iupdate` and `ialloc` store, in the block that was read. -/
theorem encode_setInode (hi : i < sb.ninodes) (x : Dinode) :
    encode sb base { d with inode := Function.update d.inode i x } =
      Function.update (encode sb base d) (.ofNat (sb.iblock i))
        (words (putDinode (bytes (encode sb base d (.ofNat (sb.iblock i)))) (i % IPB) x)) := by
  funext y
  by_cases hy : y = .ofNat (sb.iblock i)
  · rw [hy, L.encode_inode hi, L.encode_inode hi, Function.update_self, bytes_words, ← inodeBlock_update]
    congr 2
    funext j
    show Function.update d.inode i x _ = Function.update (fun j => d.inode (i / IPB * IPB + j)) _ x j
    rw [Function.update_apply, Function.update_apply]
    have hiff : i / IPB * IPB + j = i ↔ j = i % IPB := by
      have := Nat.div_add_mod' i IPB
      omega
    simp only [hiff]
  · rw [Function.update_of_ne hy, encode, encode]
    rw [eq_ofNat_iff (L.iblock_lt hi)] at hy
    split_ifs with _ _ hin
    · rfl
    · rfl
    · refine congrArg words (inodeBlock_congr fun j hj => Function.update_of_ne ?_ ..)
      rintro rfl
      refine hy ?_
      rw [Superblock.iblock]
      simp only [IPB, BSIZE] at hj ⊢
      omega
    · rfl

end Layout

/-- The blocks outside the log hold the disk `d`. -/
def Stored (sb : Superblock) (base v : Log.Disk) (d : Disk) : Prop :=
  ∀ b, Home b → v b = encode sb base d b

/-- The calls read back what they have stored: every inode whose numbers fit in its fields, every bit of
the bitmap and every block of data, whatever the log and the other blocks hold. -/
theorem reads_stored {sb : Superblock} {base v : Log.Disk} {d : Disk} (L : Layout sb)
    (hst : Stored sb base v d) :
    (∀ i < sb.ninodes, Fits (d.inode i) → (decode sb v).inode i = d.inode i) ∧
    (∀ b < BPB, (decode sb v).used b = d.used b) ∧
    ∀ b, sb.DataBlock b → (decode sb v).data b = d.data b := by
  refine ⟨fun i hi hfits => ?_, fun b hb => ?_, fun b hb => ?_⟩
  · have heq : i / IPB * IPB + i % IPB = i := Nat.div_add_mod' i IPB
    have hread := getDinode_inodeBlock (fun j => d.inode (i / IPB * IPB + j))
      (Nat.mod_lt i (by decide)) (by rwa [heq])
    show getDinode _ _ = _
    rw [hst _ (L.home_iblock hi), L.encode_inode hi, bytes_words, hread, heq]
  · have hread := getBit_bitmapBlock d.used hb
    have hblock : sb.bblock b = sb.bmapstart := by
      rw [Superblock.bblock, Nat.div_eq_of_lt hb, Nat.zero_add]
    show getBit _ _ = _
    rw [hblock, hst _ L.home_bmapstart, L.encode_bitmap, bytes_words, Nat.mod_eq_of_lt hb, hread]
  · show bytes _ = _
    rw [hst _ (L.home_data hb), L.encode_data hb, bytes_words]

/-- The super block that `mkfs` writes. -/
def xv6Sb : Superblock := ⟨1000, 200, 32, 58, 59, by decide, by decide⟩

theorem xv6Sb_layout : Layout xv6Sb := by
  refine ⟨by decide, by decide, fun i hi => ?_, by decide, by decide, by decide⟩
  have hi : i < 200 := hi
  show i / 8 + 32 < 58
  omega

/-- A disk of directories with one link each. -/
def someDisk : Disk := ⟨fun _ => ⟨.dir, 0, 0, 1, 512, fun _ => 60⟩, fun b => b < 61, fun _ _ => 7⟩

theorem reads_stored_some :
    ((decode xv6Sb (encode xv6Sb (fun _ _ => 0) someDisk)).inode 5).nlink = 1 := by
  have hst : Stored xv6Sb (fun _ _ => 0) (encode xv6Sb (fun _ _ => 0) someDisk) someDisk :=
    fun _ _ => rfl
  have hfits : Fits (someDisk.inode 5) :=
    ⟨by decide, by decide, by decide, by decide, by decide⟩
  rw [(reads_stored xv6Sb_layout hst).1 5 (by decide) hfits]
  rfl

end Xv6Container.Crash
