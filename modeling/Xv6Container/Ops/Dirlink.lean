import Xv6Container.Ops.Budget

/-! A new entry in a directory. `dirlink` writes one block of the directory at most; where it finds the
name already it may free an inode. A directory without holes keeps that, and so do the others. -/

namespace Xv6Container.Ops

open Lib
open Fs (BSIZE MAXFILE NINODE FileType Dinode Entry indirect)
open Names (Name)
open Log (MAXOPBLOCKS)

variable {sb : Superblock} {R : Entry → ℤ} {K : Finset ℕ} {n off i : ℕ} {e dp ip : Entry} {s t u : State}
  {E : State → Prop} {name : Name} {d : Dinode}

/-- The entries in use stand for the same inodes, and the table of files is as it was. -/
structure Anchors (s t : State) : Prop where
  inum : ∀ x, 0 < (s.cache x).ref → (t.cache x).inum = (s.cache x).inum
  file : t.file = s.file

theorem Retains.anchors (h : Retains s t) : Anchors s t := ⟨fun x _ => h.inum x, h.file⟩

theorem Anchors.retains (h : Anchors s t) (h' : Retains t u) : Anchors s u :=
  ⟨fun x hx => (h'.inum x).trans (h.inum x hx), h'.file.trans h.file⟩

/-! ### Places of entries -/

/-- An entry does not cross the end of a block. -/
theorem blocksOf_dirent (h : DIRENT ∣ off) :
    blocksOf (UInt32.ofNat off).toNat (UInt32.ofNat DIRENT).toNat = 1 := by
  have hsize : (UInt32.ofNat DIRENT).toNat = 16 := rfl
  rw [UInt32.toNat_ofNat', hsize, blocksOf, if_neg (by decide)]
  simp only [DIRENT, BSIZE] at h ⊢
  omega

theorem scan_dvd {disk : Disk} {p : List UInt8 → Bool} {fuel : ℕ} {x : ℕ × ℕ} (h : DIRENT ∣ off)
    (hx : disk.scan d p fuel off = some x) : DIRENT ∣ x.1 := by
  induction fuel generalizing off with
  | zero => cases hx
  | succ fuel ih =>
    rw [Disk.scan] at hx
    split_ifs at hx
    · cases hx
      exact h
    · exact ih (Nat.dvd_add h (Nat.dvd_refl DIRENT)) hx

/-- The place where `dirlink` puts an entry. -/
theorem place_dvd (disk : Disk) (d : Dinode) (p : List UInt8 → Bool) (fuel size : ℕ) :
    DIRENT ∣ ((disk.scan d p fuel 0).map Prod.fst).getD ((size + DIRENT - 1) / DIRENT * DIRENT) := by
  cases hr : disk.scan d p fuel 0 with
  | none => exact Nat.dvd_mul_left _ _
  | some x => exact scan_dvd (Nat.dvd_zero DIRENT) hr

section Congr

variable {disk disk' : Disk} {d' : Dinode} (hdata : disk'.data = disk.data)
  (haddrs : d'.addrs = d.addrs) (hsize : d'.size = d.size)
include hdata haddrs

theorem block_congr (bn : ℕ) : disk'.block d' bn = disk.block d bn := by
  rw [Disk.block, Disk.block, haddrs, hdata]

omit hdata haddrs in
/-- The slots and the size of an inode and the blocks of data are what counts. -/
theorem Disk.Solid.congr (h : disk.Solid d) (hdata : disk'.data = disk.data)
    (haddrs : d'.addrs = d.addrs) (hsize : d'.size = d.size) : disk'.Solid d' := by
  intro bn hbn
  have hold := h bn (hsize ▸ hbn)
  refine ⟨?_, ?_⟩
  · rw [haddrs]
    exact hold.indirect
  · rw [block_congr hdata haddrs]
    exact hold.block

include hsize

theorem find_congr (name : Name) : disk'.find d' name = disk.find d name := by
  have hscan : ∀ fuel off,
      disk'.scan d' (named name) fuel off = disk.scan d (named name) fuel off := by
    intro fuel
    induction fuel with
    | zero => exact fun _ => rfl
    | succ fuel ih =>
      intro off
      have hdirent : disk'.dirent d' off = disk.dirent d off := by
        rw [Disk.dirent, Disk.dirent, block_congr hdata haddrs, hdata]
      rw [Disk.scan, Disk.scan, hdirent, ih, hsize]
  rw [Disk.find, Disk.find, hsize, hscan]

end Congr

/-! ### `iget` -/

/-- `iget` changes one entry, which had the inode already or was not in use. -/
theorem iget_entry (hE : E s) :
    Halts (fun e t => ∃ x, t = s.setInode e x ∧ x.inum = i ∧
        (0 < (s.cache e).ref → (s.cache e).inum = i) ∧
        (x.valid = true → 0 < (s.cache e).ref ∧ (s.cache e).valid = true)) E (iget i s) := by
  simp only [iget, run_get_bind]
  cases hf : (List.finRange NINODE).find? fun e => (s.cache e).ref > 0 ∧ (s.cache e).inum = i with
  | some e =>
    have hfound := List.find?_some hf
    simp only [gt_iff_lt, decide_eq_true_eq] at hfound
    exact ⟨_, rfl, hfound.2, fun _ => hfound.2, fun hv => ⟨hfound.1, hv⟩⟩
  | none =>
    dsimp only
    cases hg : (List.finRange NINODE).find? fun e => (s.cache e).ref = 0 with
    | none => exact hE
    | some e =>
      have hzero := List.find?_some hg
      simp only [decide_eq_true_eq] at hzero
      refine ⟨_, rfl, rfl, fun hpos => ?_, by rintro ⟨⟩⟩
      rw [hzero] at hpos
      exact absurd hpos (lt_irrefl 0)

theorem iget_costs (h : Spent K n s) (hK : K.card + n ≤ MAXOPBLOCKS) (i : ℕ) :
    Halts (fun e t => Spent K n t ∧ Anchors s t ∧ (t.cache e).inum = i) Budget (iget i s) := by
  refine (iget_entry (h.budget hK)).post ?_
  rintro e t ⟨x, rfl, hx, hold, -⟩
  refine ⟨h.congr rfl rfl, ⟨fun y hy => ?_, rfl⟩, ?_⟩
  · by_cases hye : y = e
    · subst hye
      rw [State.setInode_self, hx, hold hy]
    · rw [State.setInode_of_ne _ hye]
  · rw [State.setInode_self, hx]

/-! ### `dirlink` -/

/-- Entry `dp` has a directory without holes, as the disk has it. -/
structure Loaded (dp : Entry) (s : State) : Prop where
  synced : s.disk.inode (s.cache dp).inum = (s.cache dp).copy
  dir : (s.cache dp).copy.type = .dir
  solid : s.disk.Solid (s.cache dp).copy

theorem Cached.loaded (h : Cached R s) (he : 0 < R e) (hv : (s.cache e).valid = true)
    (htype : (s.cache e).copy.type = .dir) : Loaded e s := by
  have hsync := (h.synced e he hv).1
  refine ⟨hsync.symm, htype, ?_⟩
  rw [hsync] at htype ⊢
  exact h.whole _ htype

theorem Loaded.spares (h : Loaded dp s) (ht : Spares e s t)
    (hne : (s.cache dp).inum ≠ (s.cache e).inum) (hcache : t.cache dp = s.cache dp) :
    Loaded dp t := by
  refine ⟨?_, ?_, ?_⟩
  · rw [hcache, ht.inode _ hne, h.synced]
  · rw [hcache, h.dir]
  · rw [hcache]
    refine ht.solid hne h.synced ?_ h.solid
    rw [h.dir]
    nofun

/-- A directory has changed, and nothing else. -/
structure Linked (sb : Superblock) (e : Entry) (s t : State) : Prop where
  held : Held sb e t
  loaded : Loaded e t
  spares : Spares e s t
  others : ∀ x, x ≠ e → t.cache x = s.cache x

theorem writei_linked (h : Held sb e s) (hd : Loaded e s) (src : ℕ → UInt8) (off n : UInt32) :
    Halts (fun _ => Linked sb e s) (fun _ => True) (writei sb e src off n s) := by
  have hdev : (s.cache e).copy.type ≠ .dev := by
    rw [hd.dir]
    nofun
  by_cases hbad : Refused (s.cache e).copy.size off n
  · rw [writei_refused hdev hbad]
    exact ⟨h, hd, .refl e s, fun _ _ => rfl⟩
  · refine ((writei_halts h hdev hd.solid hbad src).and (writei_spares h src off n)).mono ?_ ?_
    · rintro _ t ⟨⟨-, ht⟩, hspares⟩
      obtain ⟨d, hcache, htype, -⟩ := ht.entry
      refine ⟨ht.held, ⟨ht.held.synced, ?_, ht.solid⟩, hspares, fun x hx => ?_⟩
      · rw [hcache, Function.update_self]
        exact htype.trans hd.dir
      · rw [hcache, Function.update_of_ne hx]
    · exact fun _ _ => trivial

theorem dirlookup_costs (h : Spent K n s) (hK : K.card + n ≤ MAXOPBLOCKS)
    (hsolid : (s.cache dp).copy.type = .dir → s.disk.Solid (s.cache dp).copy) (name : Name) :
    Halts (fun o t => Spent K n t ∧ Anchors s t ∧
        (o = none → t = s ∧ s.disk.Solid (s.cache dp).copy)) Budget (dirlookup sb dp name s) := by
  rw [dirlookup, run_get_bind]
  split_ifs with htype
  · exact h.budget hK
  · have hs := hsolid (not_not.1 htype)
    refine (Halts.mono (direntLoop_reads hs (Nat.dvd_zero DIRENT)) (fun _ _ => id) ?_).bind ?_
    · rintro t rfl
      exact h.budget hK
    · rintro r t ⟨rfl, -⟩
      cases r with
      | none => exact ⟨h, (Retains.refl t).anchors, fun _ => ⟨rfl, hs⟩⟩
      | some x =>
        refine (iget_costs h hK x.2).bind ?_
        rintro ip u ⟨hu, hanchor, -⟩
        exact ⟨hu, hanchor, by rintro ⟨⟩⟩

/-- A block of data and an indirect block, next to the bitmap and the inode of the directory. -/
theorem dirlink_costs (h : Spent K n s) (hbm : sb.bmapstart ∈ K)
    (hib : sb.iblock (s.cache dp).inum ∈ K) (hK : K.card + (n + 2) ≤ MAXOPBLOCKS)
    (hsolid : (s.cache dp).copy.type = .dir → s.disk.Solid (s.cache dp).copy) (name : Name)
    (inum : ℕ) :
    Halts (fun r t => Spent K (n + 2) t ∧ Anchors s t ∧
        (r = true → Retains s t ∧ (Held sb dp s ∧ Loaded dp s → Linked sb dp s t))) Budget
      (dirlink sb dp name inum s) := by
  rw [dirlink]
  refine (dirlookup_costs h (by omega) hsolid name).bind ?_
  rintro (_ | ⟨ip, off⟩) t ⟨ht, hanchor, hnone⟩
  · obtain ⟨rfl, hs⟩ := hnone rfl
    dsimp only
    rw [run_get_bind]
    refine (Halts.mono (direntLoop_reads hs (Nat.dvd_zero DIRENT)) (fun _ _ => id) ?_).bind ?_
    · rintro u rfl
      exact h.budget (by omega)
    · rintro free u ⟨rfl, hfree⟩
      have hdvd := place_dvd u.disk (u.cache dp).copy (fun de => deInum de = 0) (u.cache dp).copy.size
        (u.cache dp).copy.size
      rw [← hfree] at hdvd
      set off := (free.map Prod.fst).getD (((u.cache dp).copy.size + DIRENT - 1) / DIRENT * DIRENT)
      have hone := blocksOf_dirent hdvd
      have hlinked := Halts.of_imp fun hd : Held sb dp u ∧ Loaded dp u =>
        writei_linked hd.1 hd.2 (dirent name inum) (.ofNat off) (.ofNat DIRENT)
      refine Halts.bind_with hlinked (writei_costs h hbm hib ?_) ?_
      · rw [hone]
        exact hK
      · rintro r v hl ⟨hv, hkeep⟩
        rw [hone] at hv
        split_ifs
        · exact hv.budget hK
        · exact ⟨hv, hkeep.anchors, fun _ => ⟨hkeep, hl⟩⟩
  · have hmem := Finset.mem_insert_self (sb.iblock (t.cache ip).inum) K
    have hcard : (insert (sb.iblock (t.cache ip).inum) K).card + n ≤ MAXOPBLOCKS :=
      card_insert_le (by omega) _
    refine (iput_costs (Finset.mem_insert_of_mem hbm) hcard (ht.weaken _) hmem).bind ?_
    rintro _ u ⟨hu, hkeep⟩
    exact ⟨hu.absorb.mono (by omega), hanchor.retains hkeep, nofun⟩

end Xv6Container.Ops
