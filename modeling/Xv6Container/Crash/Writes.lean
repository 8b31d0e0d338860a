import Mathlib.Data.Finset.Lattice.Lemmas
import Xv6Container.Crash.Blocks
import Xv6Container.Lib.Halts

/-! The writes of a transaction. What a call does to the disk between `begin_op` and `end_op` is a list of
block writes outside the log, one for each `log_write`. An inode that is locked and written has its place
in the inode blocks, because an inode outside of them is free and `ilock` does not return it. -/

namespace Xv6Container.Crash

open Lib
open Fs (BSIZE BPB NDIRECT NINDIRECT NINODE AddrIdx Dinode FileType Entry Block)
open Log (BlockNo Home)
open Ops

/-- A block and what it holds after a `log_write`. -/
abbrev Write := BlockNo × Log.Block

/-- The blocks after the writes `ws`, the oldest first. -/
def replay (v : Log.Disk) (ws : List Write) : Log.Disk :=
  ws.foldl (fun v w => Function.update v w.1 w.2) v

/-- The blocks that are written. -/
def blocks (ws : List Write) : Finset ℕ := (ws.map fun w => w.1.toNat).toFinset

theorem replay_concat (v : Log.Disk) (ws : List Write) (w : Write) :
    replay v (ws ++ [w]) = Function.update (replay v ws) w.1 w.2 := by
  rw [replay, List.foldl_append]
  rfl

theorem blocks_concat (ws : List Write) (w : Write) :
    blocks (ws ++ [w]) = insert w.1.toNat (blocks ws) := by
  rw [blocks, List.map_append, List.toFinset_append, Finset.union_comm]
  rfl

/-- The writes `ws` outside the log lead from the disk `d` to the disk `d'`. -/
structure Leads (sb : Superblock) (base : Log.Disk) (d : Disk) (ws : List Write) (d' : Disk) : Prop where
  home : ∀ w ∈ ws, Home w.1
  replay : replay (encode sb base d) ws = encode sb base d'

/-- A transaction that began on the disk `d`, after those of `l`. -/
structure Underway (sb : Superblock) (base : Log.Disk) (d : Disk) (l : List (Finset ℕ)) (s : State) :
    Prop where
  writes : ∃ ws, Leads sb base d ws s.disk ∧ s.logged = blocks ws
  ended : s.ended = l

/-- The inodes have their places on the disk: outside of them there are only free ones. -/
structure Inside (sb : Superblock) (s : State) : Prop where
  cached : ∀ e, (s.cache e).valid = true → (s.cache e).inum < sb.ninodes
  beyond : ∀ i, sb.ninodes ≤ i → (s.disk.inode i).type = .free

/-- An entry of the cache that is locked, with an inode that has a place on the disk. -/
structure Pinned (sb : Superblock) (x : Inode) : Prop where
  locked : x.locked = true
  ref : 0 < x.ref
  inum : x.inum < sb.ninodes

/-- A transaction in which the caller has locked the inodes `P`. -/
structure During (sb : Superblock) (base : Log.Disk) (d : Disk) (l : List (Finset ℕ)) (P : Finset Entry)
    (s : State) : Prop extends Underway sb base d l s, Inside sb s where
  pinned : ∀ e ∈ P, Pinned sb (s.cache e)

variable {sb : Superblock} {base : Log.Disk} {d : Disk} {l : List (Finset ℕ)} {P P' : Finset Entry}
  {s t : State} {e dp ip : Entry} {b i n : ℕ} {x : Inode}

theorem Inside.congr (h : Inside sb s) (hdisk : t.disk = s.disk) (hcache : t.cache = s.cache) :
    Inside sb t where
  cached e he := by
    rw [hcache] at he ⊢
    exact h.cached e he
  beyond i hi := by
    rw [hdisk]
    exact h.beyond i hi

namespace During

theorem mono (h : During sb base d l P s) (hP : P' ⊆ P) : During sb base d l P' s :=
  ⟨h.toUnderway, h.toInside, fun e he => h.pinned e (hP he)⟩

/-- A step that leaves the disk alone and the cache too. -/
theorem congr (h : During sb base d l P s) (hdisk : t.disk = s.disk) (hcache : t.cache = s.cache)
    (hlogged : t.logged = s.logged) (hended : t.ended = s.ended) : During sb base d l P t := by
  refine ⟨⟨?_, hended.trans h.ended⟩, h.toInside.congr hdisk hcache, ?_⟩
  · rw [hdisk, hlogged]
    exact h.writes
  · rw [hcache]
    exact h.pinned

/-- An entry of the cache changes. -/
theorem setInode (h : During sb base d l P s) (hvalid : x.valid = true → x.inum < sb.ninodes)
    (hpinned : e ∈ P → Pinned sb x) : During sb base d l P (s.setInode e x) where
  writes := h.writes
  ended := h.ended
  cached y hy := by
    by_cases hye : y = e
    · rw [hye, State.setInode_self] at hy ⊢
      exact hvalid hy
    · rw [State.setInode_of_ne _ hye] at hy ⊢
      exact h.cached y hy
  beyond := h.beyond
  pinned y hy := by
    by_cases hye : y = e
    · rw [hye, State.setInode_self]
      exact hpinned (hye ▸ hy)
    · rw [State.setInode_of_ne _ hye]
      exact h.pinned y hy

/-- A caller that has locked `e` holds one inode more. -/
theorem insert (h : During sb base d l P s) (he : Pinned sb (s.cache e)) :
    During sb base d l (insert e P) s := by
  refine ⟨h.toUnderway, h.toInside, fun y hy => ?_⟩
  rcases Finset.mem_insert.1 hy with rfl | hy
  · exact he
  · exact h.pinned y hy

/-- A `log_write`. -/
theorem setDisk (h : During sb base d l P s) (d' : Disk) (hb : b < Log.FSSIZE) (hhome : Home (.ofNat b))
    (hdisk : ∃ a, encode sb base d' = Function.update (encode sb base s.disk) (.ofNat b) a)
    (hbeyond : ∀ i, sb.ninodes ≤ i → d'.inode i = s.disk.inode i) :
    During sb base d l P (s.setDisk d' b) where
  writes := by
    obtain ⟨ws, hleads, hlogged⟩ := h.writes
    obtain ⟨a, ha⟩ := hdisk
    refine ⟨ws ++ [(.ofNat b, a)], ⟨fun w hw => ?_, ?_⟩, ?_⟩
    · rcases List.mem_append.1 hw with hw | hw
      · exact hleads.home w hw
      · rw [List.mem_singleton.1 hw]
        exact hhome
    · rw [replay_concat, hleads.replay]
      exact ha.symm
    · rw [blocks_concat, Layout.toNat_ofNat hb, ← hlogged]
      rfl
  ended := h.ended
  cached := h.cached
  beyond i hi := by
    show (d'.inode i).type = _
    rw [hbeyond i hi]
    exact h.beyond i hi
  pinned := h.pinned

end During

/-! ### Blocks -/

theorem bread_during (h : During sb base d l P s) (b : ℕ) :
    Halts (fun _ => During sb base d l P) (Underway sb base d l) (bread sb b s) := by
  rw [bread]
  split_ifs
  · exact h
  · exact h.toUnderway

section Logged

variable (L : Layout sb)
include L

theorem logWrite_during (h : During sb base d l P s) (b : ℕ) (a : Block) :
    Halts (fun _ => During sb base d l P) (Underway sb base d l) (logWrite sb b a s) := by
  rw [logWrite]
  split_ifs with hb
  · exact h.setDisk _ (L.dataBlock_lt hb) (L.home_data hb) ⟨_, L.encode_setData hb a⟩ fun _ _ => rfl
  · exact h.toUnderway

theorem logBit_during (h : During sb base d l P s) (hb : b < BPB) (u : Bool) :
    Halts (fun _ => During sb base d l P) (Underway sb base d l) (logBit sb b u s) := by
  have hblock : sb.bblock b = sb.bmapstart := by
    rw [Superblock.bblock, Nat.div_eq_of_lt hb, Nat.zero_add]
  rw [logBit, hblock]
  exact h.setDisk _ L.bmapstart_lt L.home_bmapstart ⟨_, L.encode_setUsed hb u⟩ fun _ _ => rfl

theorem logDinode_during (h : During sb base d l P s) (hi : i < sb.ninodes) (x : Dinode) :
    Halts (fun _ => During sb base d l P) (Underway sb base d l) (logDinode sb i x s) := by
  refine h.setDisk _ (L.iblock_lt hi) (L.home_iblock hi) ⟨_, L.encode_setInode hi x⟩ fun j hj => ?_
  exact Function.update_of_ne (hi.trans_le hj).ne' ..

theorem balloc_during (h : During sb base d l P s) :
    Halts (fun _ => During sb base d l P) (Underway sb base d l) (balloc sb s) := by
  rw [balloc, run_get_bind]
  cases hb : (List.range sb.size).find? fun b => !s.disk.used b with
  | none => exact h.toUnderway
  | some b =>
    have hlt := List.mem_range.1 (List.mem_of_find?_eq_some hb)
    refine (logBit_during L h (hlt.trans_le sb.one_bitmap) true).bind fun _ t ht => ?_
    exact (logWrite_during L ht b _).bind fun _ u hu => hu

theorem bfree_during (h : During sb base d l P s) (b : ℕ) :
    Halts (fun _ => During sb base d l P) (Underway sb base d l) (bfree sb b s) := by
  rw [bfree]
  split_ifs with hb
  · exact h.toUnderway
  · rw [run_get_bind]
    split_ifs
    · exact h.toUnderway
    · exact logBit_during L h (not_le.1 hb) false

end Logged

end Xv6Container.Crash
