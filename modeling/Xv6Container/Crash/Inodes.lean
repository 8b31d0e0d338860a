import Mathlib.Data.Finset.Basic
import Xv6Container.Crash.Writes

/-! The functions of `fs.c` in a transaction. Each one adds its writes to those of the transaction and
keeps the inodes that its caller has locked; one that writes an inode to the disk gets a locked one. -/

namespace Xv6Container.Crash

open Lib
open Fs (NDIRECT NINDIRECT NINODE AddrIdx Dinode FileType Entry Block CString direct)
open Names (Name Slot slash pathNames SHRT_MAX)
open Ops

variable {sb : Superblock} {base : Log.Disk} {d : Disk} {l : List (Finset ℕ)} {P : Finset Entry}
  {s : State} {e dp ip : Entry}

/-! ### The cache -/

theorem setCopy_during (h : During sb base d l P s) (e : Entry) (f : Dinode → Dinode) :
    Halts (fun _ => During sb base d l P) (Underway sb base d l) (setCopy e f s) := by
  refine h.setInode (h.cached e) fun he => ?_
  obtain ⟨hlocked, href, hinum⟩ := h.pinned e he
  exact ⟨hlocked, href, hinum⟩

theorem iget_during (h : During sb base d l P s) (inum : ℕ) :
    Halts (fun _ => During sb base d l P) (Underway sb base d l) (iget inum s) := by
  simp only [iget, run_get_bind]
  cases (List.finRange NINODE).find? fun e => (s.cache e).ref > 0 ∧ (s.cache e).inum = inum with
  | some e =>
    refine h.setInode (h.cached e) fun hp => ?_
    obtain ⟨hlocked, href, hinum⟩ := h.pinned e hp
    exact ⟨hlocked, add_pos href one_pos, hinum⟩
  | none =>
    dsimp only
    cases hg : (List.finRange NINODE).find? fun e => (s.cache e).ref = 0 with
    | none => exact h.toUnderway
    | some e =>
      have hzero := List.find?_some hg
      simp only [decide_eq_true_eq] at hzero
      refine h.setInode (fun hv => ?_) fun hp => ?_
      · cases hv
      · exact absurd hzero (h.pinned e hp).ref.ne'

theorem idup_during (h : During sb base d l P s) (e : Entry) :
    Halts (fun _ => During sb base d l P) (Underway sb base d l) (idup e s) := by
  refine h.setInode (h.cached e) fun hp => ?_
  obtain ⟨hlocked, href, hinum⟩ := h.pinned e hp
  exact ⟨hlocked, add_pos href one_pos, hinum⟩

/-- A lock that the caller holds is not taken again. -/
theorem acquiresleep_during (h : During sb base d l P s) (e : Entry) :
    Halts (fun _ t => e ∉ P ∧ During sb base d l P t ∧ t = s.setInode e { s.cache e with locked := true })
      (Underway sb base d l) (acquiresleep e s) := by
  rw [acquiresleep, run_get_bind]
  split_ifs with hlocked
  · exact h.toUnderway
  · have he : e ∉ P := fun he => hlocked (h.pinned e he).locked
    exact ⟨he, h.setInode (h.cached e) fun hp => absurd hp he, rfl⟩

/-- An inode that has a type has its place. -/
theorem ilock_during (h : During sb base d l P s) (e : Entry) :
    Halts (fun _ t => e ∉ P ∧ During sb base d l (insert e P) t) (Underway sb base d l) (ilock e s) := by
  rw [ilock, run_get_bind]
  split_ifs with href
  · exact h.toUnderway
  · have hpos : 0 < (s.cache e).ref := lt_of_lt_of_le one_pos (not_lt.1 href)
    refine (acquiresleep_during h e).bind ?_
    rintro _ t ⟨he, ht, rfl⟩
    rw [run_get_bind]
    simp only [State.setInode_self]
    split_ifs with hvalid hfree
    · exact ⟨h.writes, h.ended⟩
    · have hinum : (s.cache e).inum < sb.ninodes := by
        by_contra hge
        exact hfree (h.beyond _ (not_lt.1 hge))
      have hset := ht.setInode (e := e) (x := {
        (s.setInode e { s.cache e with locked := true }).cache e with
          copy := s.disk.inode (s.cache e).inum, valid := true }) (fun _ => ?_) fun hp => absurd hp he
      · refine ⟨he, hset.insert ?_⟩
        rw [State.setInode_self]
        simp only [State.setInode_self]
        exact ⟨rfl, hpos, hinum⟩
      · simp only [State.setInode_self]
        exact hinum
    · rw [Bool.not_eq_false] at hvalid
      refine ⟨he, ht.insert ?_⟩
      rw [State.setInode_self]
      exact ⟨rfl, hpos, h.cached e hvalid⟩

theorem releasesleep_during (h : During sb base d l P s) (e : Entry) :
    Halts (fun _ => During sb base d l (P.erase e)) (Underway sb base d l) (releasesleep e s) :=
  (h.mono (P.erase_subset e)).setInode (h.cached e) fun hp => absurd hp (P.notMem_erase e)

theorem iunlock_during (h : During sb base d l P s) (e : Entry) :
    Halts (fun _ => During sb base d l (P.erase e)) (Underway sb base d l) (iunlock e s) := by
  rw [iunlock, run_get_bind]
  split_ifs
  · exact h.toUnderway
  · exact releasesleep_during h e

theorem pathStart_during (h : During sb base d l P s) (p : Slot) (path : CString) :
    Halts (fun _ => During sb base d l P) (Underway sb base d l) (pathStart p path s) := by
  rw [pathStart]
  split_ifs
  · exact iget_during h ROOTINO
  · rw [run_get_bind]
    cases (s.proc p).cwd with
    | some cwd => exact idup_during h cwd
    | none => exact h.toUnderway

/-! ### The content of inodes -/

variable (L : Layout sb)
include L

theorem iupdate_during (h : During sb base d l P s) (he : e ∈ P) :
    Halts (fun _ => During sb base d l P) (Underway sb base d l) (iupdate sb e s) := by
  rw [iupdate, run_get_bind]
  exact logDinode_during L h (h.pinned e he).inum _

theorem addrBlock_during (h : During sb base d l P s) (e : Entry) (k : AddrIdx) :
    Halts (fun _ => During sb base d l P) (Underway sb base d l) (addrBlock sb e k s) := by
  rw [addrBlock, run_get_bind]
  split_ifs
  · refine (balloc_during L h).bind fun b t ht => ?_
    exact (setCopy_during ht e _).bind fun _ u hu => hu
  · exact h

theorem bmap_during (h : During sb base d l P s) (e : Entry) (bn : ℕ) :
    Halts (fun _ => During sb base d l P) (Underway sb base d l) (bmap sb e bn s) := by
  rw [bmap]
  split_ifs
  · exact addrBlock_during L h e _
  · refine (addrBlock_during L h e _).bind fun addr t ht => ?_
    refine (bread_during ht addr).bind fun a u hu => ?_
    split_ifs
    · refine (balloc_during L hu).bind fun b v hv => ?_
      exact (logWrite_during L hv addr _).bind fun _ w hw => hw
    · exact hu
  · exact h.toUnderway

theorem truncDirect_during (h : During sb base d l P s) (e : Entry) (k : Fin NDIRECT) :
    Halts (fun _ => During sb base d l P) (Underway sb base d l) (truncDirect sb e k s) := by
  simp only [truncDirect, run_get_bind]
  split_ifs
  · exact (bfree_during L h _).bind fun _ t ht => setCopy_during ht e _
  · exact h

theorem truncEntry_during (h : During sb base d l P s) (a : Block) (j : Fin NINDIRECT) :
    Halts (fun _ => During sb base d l P) (Underway sb base d l) (truncEntry sb a j s) := by
  rw [truncEntry]
  split_ifs
  · exact bfree_during L h _
  · exact h

theorem truncIndirect_during (h : During sb base d l P s) (e : Entry) :
    Halts (fun _ => During sb base d l P) (Underway sb base d l) (truncIndirect sb e s) := by
  simp only [truncIndirect, run_get_bind]
  split_ifs
  · refine (bread_during h _).bind fun a t ht => ?_
    refine (Halts.forM _ ht fun j u hu => truncEntry_during L hu a j).bind fun _ u hu => ?_
    exact (bfree_during L hu _).bind fun _ v hv => setCopy_during hv e _
  · exact h

theorem itrunc_during (h : During sb base d l P s) (he : e ∈ P) :
    Halts (fun _ => During sb base d l P) (Underway sb base d l) (itrunc sb e s) := by
  rw [itrunc]
  refine (Halts.forM _ h fun k t ht => truncDirect_during L ht e k).bind fun _ t ht => ?_
  refine (truncIndirect_during L ht e).bind fun _ u hu => ?_
  exact (setCopy_during hu e _).bind fun _ v hv => iupdate_during L hv he

theorem readLoop_during {n fuel tot off : ℕ} {dst : List UInt8} (h : During sb base d l P s) :
    Halts (fun _ => During sb base d l P) (Underway sb base d l)
      (readLoop sb e n fuel tot off dst s) := by
  induction fuel generalizing tot off dst s with
  | zero => exact h
  | succ fuel ih =>
    rw [readLoop]
    split_ifs
    · refine (bmap_during L h e _).bind fun b t ht => ?_
      exact (bread_during ht b).bind fun bp u hu => ih hu
    · exact h

theorem readi_during (h : During sb base d l P s) (e : Entry) (off n : UInt32) :
    Halts (fun _ => During sb base d l P) (Underway sb base d l) (readi sb e off n s) := by
  simp only [readi, run_get_bind]
  split_ifs
  · exact h.toUnderway
  · exact h
  · exact (readLoop_during L h).bind fun _ t ht => ht
  · exact (readLoop_during L h).bind fun _ t ht => ht

theorem writeLoop_during {src : ℕ → UInt8} {n fuel tot off : ℕ} (h : During sb base d l P s) :
    Halts (fun _ => During sb base d l P) (Underway sb base d l)
      (writeLoop sb e src n fuel tot off s) := by
  induction fuel generalizing tot off s with
  | zero => exact h
  | succ fuel ih =>
    rw [writeLoop]
    split_ifs
    · refine (bmap_during L h e _).bind fun b t ht => ?_
      refine (bread_during ht b).bind fun bp u hu => ?_
      exact (logWrite_during L hu b _).bind fun _ v hv => ih hv
    · exact h

theorem writei_during (h : During sb base d l P s) (he : e ∈ P) (src : ℕ → UInt8) (off n : UInt32) :
    Halts (fun _ => During sb base d l P) (Underway sb base d l) (writei sb e src off n s) := by
  rw [writei, run_get_bind]
  split_ifs
  · exact h
  · exact h
  · exact h
  · exact h
  · refine (writeLoop_during L h).bind fun off' t ht => ?_
    split_ifs
    · refine (setCopy_during ht e _).bind fun _ u hu => ?_
      exact (iupdate_during L hu he).bind fun _ v hv => hv
    · exact ht

/-! ### References -/

theorem freeInode_during (h : During sb base d l P s) (he : e ∈ P) :
    Halts (fun _ => During sb base d l P) (Underway sb base d l) (freeInode sb e s) := by
  rw [freeInode]
  refine (itrunc_during L h he).bind fun _ t ht => ?_
  refine (setCopy_during ht e _).bind fun _ u hu => ?_
  refine (iupdate_during L hu he).bind fun _ v hv => ?_
  refine hv.setInode (fun hvalid => ?_) fun hp => ?_
  · cases hvalid
  · obtain ⟨hlocked, href, hinum⟩ := hv.pinned e hp
    exact ⟨hlocked, href, hinum⟩

/-- The inodes that the caller has locked are not the one that is given back. -/
theorem iput_during (h : During sb base d l P s) (e : Entry) :
    Halts (fun _ => During sb base d l P) (Underway sb base d l) (iput sb e s) := by
  rw [iput]
  refine (acquiresleep_during h e).bind ?_
  rintro _ t ⟨he, ht, rfl⟩
  have hend : ∀ u, During sb base d l P u → Halts (fun _ => During sb base d l P) (Underway sb base d l)
      ((do
        releasesleep e
        setInode e fun ip => { ip with ref := ip.ref - 1 } : Run Unit) u) := by
    intro u hu
    refine (releasesleep_during hu e).bind fun _ v hv => ?_
    rw [Finset.erase_eq_of_notMem he] at hv
    exact hv.setInode (hv.cached e) fun hp => absurd hp he
  simp only [run_get_bind, State.setInode_self]
  split_ifs with hfree
  · obtain ⟨hvalid, -, href⟩ := hfree
    have hpinned : Pinned sb ((s.setInode e { s.cache e with locked := true }).cache e) := by
      rw [State.setInode_self]
      exact ⟨rfl, by show 0 < (s.cache e).ref; rw [href]; exact one_pos, h.cached e hvalid⟩
    refine (freeInode_during L (ht.insert hpinned) (Finset.mem_insert_self e P)).bind fun _ u hu => ?_
    exact hend u (hu.mono (Finset.subset_insert e P))
  · exact hend _ ht

theorem iunlockput_during (h : During sb base d l P s) (e : Entry) :
    Halts (fun _ => During sb base d l (P.erase e)) (Underway sb base d l) (iunlockput sb e s) := by
  rw [iunlockput]
  exact (iunlock_during h e).bind fun _ t ht => iput_during L ht e

theorem ialloc_during (h : During sb base d l P s) (type : FileType) :
    Halts (fun _ => During sb base d l P) (Underway sb base d l) (ialloc sb type s) := by
  rw [ialloc, run_get_bind]
  cases hi : (List.range sb.ninodes).find? fun i => i ≥ 1 ∧ (s.disk.inode i).type = .free with
  | none => exact h.toUnderway
  | some i =>
    have hlt := List.mem_range.1 (List.mem_of_find?_eq_some hi)
    exact (logDinode_during L h hlt _).bind fun _ t ht => iget_during ht i

/-! ### Directories -/

theorem direntLoop_during {p : List UInt8 → Bool} {msg : String} {fuel off : ℕ}
    (h : During sb base d l P s) :
    Halts (fun _ => During sb base d l P) (Underway sb base d l) (direntLoop sb dp p msg fuel off s) := by
  induction fuel generalizing off s with
  | zero => exact h
  | succ fuel ih =>
    rw [direntLoop, run_get_bind]
    split_ifs
    · refine (readi_during L h dp _ _).bind ?_
      rintro (_ | de) t ht
      · exact ht.toUnderway
      · dsimp only
        split_ifs
        · exact ht.toUnderway
        · exact ht
        · exact ih ht
    · exact h

theorem dirlookup_during (h : During sb base d l P s) (dp : Entry) (name : Name) :
    Halts (fun _ => During sb base d l P) (Underway sb base d l) (dirlookup sb dp name s) := by
  simp only [dirlookup, run_get_bind]
  split_ifs
  · exact h.toUnderway
  · refine (direntLoop_during L h).bind ?_
    rintro (_ | ⟨off, inum⟩) t ht
    · exact ht
    · exact (iget_during ht inum).bind fun ip u hu => hu

theorem dirlink_during (h : During sb base d l P s) (hdp : dp ∈ P) (name : Name) (inum : ℕ) :
    Halts (fun _ => During sb base d l P) (Underway sb base d l) (dirlink sb dp name inum s) := by
  rw [dirlink]
  refine (dirlookup_during L h dp name).bind ?_
  rintro (_ | ⟨ip, off⟩) t ht
  · dsimp only
    rw [run_get_bind]
    refine (direntLoop_during L ht).bind fun free u hu => ?_
    refine (writei_during L hu hdp _ _ _).bind fun r v hv => ?_
    split_ifs
    · exact hv.toUnderway
    · exact hv
  · exact (iput_during L ht ip).bind fun _ u hu => hu

/-! ### Paths -/

theorem namexLoop_during {nip : Bool} {name : Name} {path : List Name} (h : During sb base d l P s) :
    Halts (fun _ => During sb base d l P) (Underway sb base d l) (namexLoop sb nip ip name path s) := by
  induction path generalizing ip name s with
  | nil =>
    rw [namexLoop]
    split_ifs
    · exact (iput_during L h ip).bind fun _ t ht => ht
    · exact h
  | cons name' path ih =>
    rw [namexLoop]
    refine (ilock_during h ip).bind ?_
    rintro _ t ⟨hip, ht⟩
    have hput : ∀ u, During sb base d l (insert ip P) u →
        Halts (fun _ => During sb base d l P) (Underway sb base d l) (iunlockput sb ip u) := by
      intro u hu
      have := iunlockput_during L hu ip
      rwa [Finset.erase_insert hip] at this
    rw [run_get_bind]
    split_ifs
    · exact (hput t ht).bind fun _ u hu => hu
    · have hunlock := iunlock_during ht ip
      rw [Finset.erase_insert hip] at hunlock
      exact hunlock.bind fun _ u hu => hu
    · refine (dirlookup_during L ht ip name').bind ?_
      rintro (_ | ⟨next, off⟩) u hu
      · exact (hput u hu).bind fun _ v hv => hv
      · exact (hput u hu).bind fun _ v hv => ih hv

theorem namex_during (h : During sb base d l P s) (p : Slot) (path : CString) (nip : Bool) :
    Halts (fun _ => During sb base d l P) (Underway sb base d l) (namex sb p path nip s) := by
  rw [namex]
  exact (pathStart_during h p path).bind fun ip t ht => namexLoop_during L ht

theorem namei_during (h : During sb base d l P s) (p : Slot) (path : CString) :
    Halts (fun _ => During sb base d l P) (Underway sb base d l) (namei sb p path s) := by
  rw [namei]
  exact (namex_during L h p path false).bind fun _ t ht => ht

theorem nameiparent_during (h : During sb base d l P s) (p : Slot) (path : CString) :
    Halts (fun _ => During sb base d l P) (Underway sb base d l) (nameiparent sb p path s) :=
  namex_during L h p path true

end Xv6Container.Crash
