import Xv6Container.Lib.Halts
import Xv6Container.Ops.Syscalls

/-! Reading a directory. In an inode whose blocks are all there `bmap` allocates nothing, so a read
leaves the state as it is and finds what `Disk.dirent` says. -/

namespace Xv6Container.Ops

open Lib
open Fs (BSIZE NDIRECT NINDIRECT Dinode Block Entry getUint copyOut direct indirect)
open Names (Name)

variable {sb : Superblock} {s : State} {e : Entry} {d : Disk} {n : Dinode} {bn off : ℕ}

/-- The block that holds the `bn`-th part of an inode, 0 if there is none. -/
def Disk.block (d : Disk) (n : Dinode) (bn : ℕ) : ℕ :=
  if h : bn < NDIRECT then n.addrs (direct ⟨bn, h⟩)
  else if h : bn - NDIRECT < NINDIRECT then getUint (d.data (n.addrs indirect)) ⟨bn - NDIRECT, h⟩
  else 0

/-- The block is there, and so is the indirect block that leads to it. -/
structure Disk.Mapped (d : Disk) (n : Dinode) (bn : ℕ) : Prop where
  indirect : NDIRECT ≤ bn → n.addrs indirect ≠ 0
  block : d.block n bn ≠ 0

/-- The inode has no holes. -/
def Disk.Solid (d : Disk) (n : Dinode) : Prop := ∀ bn, bn * BSIZE < n.size → d.Mapped n bn

theorem Disk.Mapped.lt (h : d.Mapped n bn) : bn < NDIRECT + NINDIRECT := by
  have hblock := h.block
  rw [Disk.block] at hblock
  split_ifs at hblock with hdirect hin
  · omega
  · omega
  · exact absurd rfl hblock

theorem Disk.Solid.mapped (h : d.Solid n) (hoff : off < n.size) : d.Mapped n (off / BSIZE) := by
  apply h
  have := Nat.div_mul_le_self off BSIZE
  omega

/-- Offsets in an inode without holes are small. -/
theorem Disk.Solid.off_lt (h : d.Solid n) (hoff : off < n.size) : off < 2 ^ 17 := by
  have hlt := (h.mapped hoff).lt
  simp only [NDIRECT, NINDIRECT, BSIZE] at hlt
  omega

/-- The bytes of the entry at an offset. -/
def Disk.dirent (d : Disk) (n : Dinode) (off : ℕ) : List UInt8 :=
  copyOut (d.data (d.block n (off / BSIZE))) (off % BSIZE) DIRENT

/-- The first entry from `off` on that passes the test: its offset and its inode. -/
def Disk.scan (d : Disk) (n : Dinode) (p : List UInt8 → Bool) : ℕ → ℕ → Option (ℕ × ℕ)
  | 0, _ => none
  | fuel + 1, off =>
    if off < n.size then
      if p (d.dirent n off) then some (off, deInum (d.dirent n off))
      else d.scan n p fuel (off + DIRENT)
    else none

/-- The entry with a name. -/
def Disk.find (d : Disk) (n : Dinode) (name : Name) : Option (ℕ × ℕ) :=
  d.scan n (named name) n.size 0

/-! ### Reads leave the state alone -/

/-- A run that changes nothing, and what it returns. -/
def Reads {α : Type} (s : State) (v : α → Prop) (r : EStateM.Result Fs.Stop State α) : Prop :=
  Halts (fun a t => t = s ∧ v a) (fun t => t = s) r

theorem addrBlock_reads {k : Fs.AddrIdx} (h : (s.cache e).copy.addrs k ≠ 0) :
    addrBlock sb e k s = .ok ((s.cache e).copy.addrs k) s := by
  rw [addrBlock, run_get_bind, if_neg h, run_pure]

theorem bread_reads (b : ℕ) : Reads s (· = s.disk.data b) (bread sb b s) := by
  rw [bread]
  split_ifs
  · exact ⟨rfl, rfl⟩
  · exact rfl

theorem bmap_reads (h : s.disk.Mapped (s.cache e).copy bn) :
    Reads s (· = s.disk.block (s.cache e).copy bn) (bmap sb e bn s) := by
  have hblock := h.block
  rw [Disk.block] at hblock ⊢
  rw [bmap]
  by_cases hdirect : bn < NDIRECT
  · rw [dif_pos hdirect] at hblock ⊢
    rw [dif_pos hdirect, addrBlock_reads hblock]
    exact ⟨rfl, rfl⟩
  · rw [dif_neg hdirect] at hblock ⊢
    rw [dif_neg hdirect]
    by_cases hin : bn - NDIRECT < NINDIRECT
    · rw [dif_pos hin] at hblock ⊢
      rw [dif_pos hin, run_bind_ok (addrBlock_reads (h.indirect (not_lt.1 hdirect)))]
      refine (bread_reads _).bind ?_
      rintro a t ⟨rfl, rfl⟩
      rw [if_neg hblock]
      exact ⟨rfl, rfl⟩
    · rw [dif_neg hin] at hblock
      exact absurd rfl hblock

theorem copyOut_length (a : Block) (o m : ℕ) : (copyOut a o m).length = m := by
  rw [copyOut, List.length_map, List.length_range]

/-- A read within one block takes one pass. -/
theorem readLoop_reads {m : ℕ} (h : s.disk.Mapped (s.cache e).copy (off / BSIZE))
    (hm : off % BSIZE + m ≤ BSIZE) :
    Reads s (· = copyOut (s.disk.data (s.disk.block (s.cache e).copy (off / BSIZE))) (off % BSIZE) m)
      (readLoop sb e m m 0 off [] s) := by
  cases m with
  | zero => exact ⟨rfl, rfl⟩
  | succ k =>
    rw [readLoop, if_pos (Nat.succ_pos k)]
    refine (bmap_reads h).bind ?_
    rintro b t ⟨rfl, rfl⟩
    refine (bread_reads _).bind ?_
    rintro a u ⟨rfl, rfl⟩
    have hmin : min (k + 1 - 0) (BSIZE - off % BSIZE) = k + 1 := by omega
    simp only [hmin, List.nil_append]
    cases k with
    | zero => exact ⟨rfl, rfl⟩
    | succ k =>
      rw [readLoop, if_neg (by omega)]
      exact ⟨rfl, rfl⟩

/-- An entry is read whole, or less than an entry is read. -/
theorem readi_reads (h : s.disk.Solid (s.cache e).copy) (hoff : off < (s.cache e).copy.size)
    (hdvd : DIRENT ∣ off) :
    Reads s (fun o => ∀ de, o = some de → de.length = DIRENT → de = s.disk.dirent (s.cache e).copy off)
      (readi sb e (.ofNat off) (.ofNat DIRENT) s) := by
  have hlt := h.off_lt hoff
  have htoNat : (UInt32.ofNat off).toNat = off := by
    rw [UInt32.toNat_ofNat', Nat.mod_eq_of_lt (by omega)]
  have hsize : (UInt32.ofNat DIRENT).toNat = 16 := rfl
  rw [readi, run_get_bind, htoNat, hsize]
  dsimp only
  split_ifs with hdev hend hcut
  · exact rfl
  · exact ⟨rfl, fun de hde => absurd hde nofun⟩
  · refine (readLoop_reads (h.mapped hoff) ?_).bind ?_
    · simp only [BSIZE, DIRENT] at hdvd ⊢
      omega
    · rintro l t ⟨rfl, rfl⟩
      refine ⟨rfl, ?_⟩
      rintro de hde hlen
      cases hde
      rw [copyOut_length] at hlen
      rw [Disk.dirent, hlen]
  · refine (readLoop_reads (h.mapped hoff) ?_).bind ?_
    · simp only [BSIZE, DIRENT] at hdvd ⊢
      omega
    · rintro l t ⟨rfl, rfl⟩
      refine ⟨rfl, ?_⟩
      rintro de hde -
      cases hde
      rfl

theorem direntLoop_reads (h : s.disk.Solid (s.cache e).copy) {p : List UInt8 → Bool} {msg : String}
    {fuel : ℕ} (hdvd : DIRENT ∣ off) :
    Reads s (· = s.disk.scan (s.cache e).copy p fuel off) (direntLoop sb e p msg fuel off s) := by
  induction fuel generalizing off with
  | zero => exact ⟨rfl, rfl⟩
  | succ fuel ih =>
    rw [direntLoop, run_get_bind, Disk.scan]
    split_ifs with hoff hp
    · refine (readi_reads h hoff hdvd).bind ?_
      rintro (_ | de) t ⟨rfl, hde⟩
      · exact rfl
      · dsimp only
        split_ifs with hlen hpde
        · exact rfl
        · rw [hde de rfl (not_not.1 hlen)]
          exact ⟨rfl, rfl⟩
        · rw [hde de rfl (not_not.1 hlen)] at hpde
          exact absurd hp hpde
    · refine (readi_reads h hoff hdvd).bind ?_
      rintro (_ | de) t ⟨rfl, hde⟩
      · exact rfl
      · dsimp only
        split_ifs with hlen hpde
        · exact rfl
        · rw [hde de rfl (not_not.1 hlen)] at hpde
          exact absurd hpde hp
        · exact ih (Nat.dvd_add hdvd (Nat.dvd_refl DIRENT))
    · exact ⟨rfl, rfl⟩

end Xv6Container.Ops
