import Xv6Container.Lib.Footprint
import Xv6Container.Ops.Owned

/-! How many blocks an operation logs. The bitmap is one block, an inode is in one block and a file has
one indirect block, whatever its state, so what counts is the blocks of data that are written. -/

namespace Xv6Container.Ops

open Lib
open Fs (BSIZE NDIRECT NINDIRECT BPB AddrIdx Dinode Entry Stop direct indirect)
open Log (MAXOPBLOCKS)

variable {sb : Superblock} {K : Finset ℕ} {n m b off : ℕ} {e : Entry} {s t : State}

/-- No transaction so far has logged more than `MAXOPBLOCKS` blocks. -/
structure Budget (s : State) : Prop where
  logged : s.logged.card ≤ MAXOPBLOCKS
  ended : ∀ l ∈ s.ended, l.card ≤ MAXOPBLOCKS

/-- The transaction that runs has logged blocks of `K` and `n` others at most. -/
structure Spent (K : Finset ℕ) (n : ℕ) (s : State) : Prop where
  within : Within K n s.logged
  ended : ∀ l ∈ s.ended, l.card ≤ MAXOPBLOCKS

/-- The entries of the cache stand for the same inodes, and the table of files is as it was. -/
structure Retains (s t : State) : Prop where
  inum : ∀ x, (t.cache x).inum = (s.cache x).inum
  file : t.file = s.file

namespace Retains

theorem refl (s : State) : Retains s s := ⟨fun _ => rfl, rfl⟩

theorem trans {u : State} (h : Retains s t) (h' : Retains t u) : Retains s u :=
  ⟨fun x => (h'.inum x).trans (h.inum x), h'.file.trans h.file⟩

theorem of_cache (hcache : t.cache = s.cache) (hfile : t.file = s.file) : Retains s t :=
  ⟨fun x => by rw [hcache], hfile⟩

/-- An entry that stands for the same inode changes. -/
theorem setInode {x : Inode} (hx : x.inum = (s.cache e).inum) : Retains s (s.setInode e x) := by
  refine ⟨fun y => ?_, rfl⟩
  by_cases hy : y = e
  · rw [hy, State.setInode_self, hx]
  · rw [State.setInode_of_ne _ hy]

end Retains

namespace Spent

theorem budget (h : Spent K n s) (hK : K.card + n ≤ MAXOPBLOCKS) : Budget s :=
  ⟨h.within.card_le.trans hK, h.ended⟩

theorem mono (h : Spent K n s) (hnm : n ≤ m) : Spent K m s := ⟨h.within.mono hnm, h.ended⟩

theorem weaken (h : Spent K n s) (b : ℕ) : Spent (insert b K) n s :=
  ⟨h.within.weaken (Finset.subset_insert b K), h.ended⟩

theorem absorb (h : Spent (insert b K) n s) : Spent K (n + 1) s := ⟨h.within.absorb, h.ended⟩

theorem log (h : Spent K n s) (hb : b ∈ K) (d : Disk) : Spent K n (s.setDisk d b) :=
  ⟨h.within.insert_mem hb, h.ended⟩

theorem congr (h : Spent K n s) (hlogged : t.logged = s.logged) (hended : t.ended = s.ended) :
    Spent K n t :=
  ⟨hlogged ▸ h.within, hended ▸ h.ended⟩

end Spent

theorem card_insert_le (hK : K.card + (n + 1) ≤ MAXOPBLOCKS) (b : ℕ) :
    (insert b K).card + n ≤ MAXOPBLOCKS := by
  have := Finset.card_insert_le b K
  omega

/-! ### Blocks -/

/-- There is one block of bitmap. -/
theorem bblock_eq (hb : b < BPB) : sb.bblock b = sb.bmapstart := by
  rw [Superblock.bblock, Nat.div_eq_of_lt hb, Nat.zero_add]

theorem logWrite_costs (h : Spent K n s) (hb : b ∈ K) (hK : K.card + n ≤ MAXOPBLOCKS)
    (a : Fs.Block) :
    Halts (fun _ t => Spent K n t ∧ t.cache = s.cache ∧ t.file = s.file) Budget (logWrite sb b a s) := by
  rw [logWrite]
  split_ifs
  · exact ⟨h.log hb _, rfl, rfl⟩
  · exact h.budget hK

theorem bread_costs (h : Budget s) : Halts (fun _ t => t = s) Budget (bread sb b s) := by
  rw [bread]
  split_ifs
  · exact rfl
  · exact h

/-- A new block is logged, and the bitmap. -/
theorem balloc_costs (h : Spent K n s) (hbm : sb.bmapstart ∈ K)
    (hK : K.card + (n + 1) ≤ MAXOPBLOCKS) :
    Halts (fun b t => b ≠ 0 ∧ Spent (insert b K) n t ∧ t.cache = s.cache ∧ t.file = s.file) Budget
      (balloc sb s) := by
  rw [balloc, run_get_bind]
  cases hb : (List.range sb.size).find? fun b => !s.disk.used b with
  | none => exact h.budget (by omega)
  | some b =>
    have hlt : b < sb.size := List.mem_range.1 (List.mem_of_find?_eq_some hb)
    have hbit : sb.bblock b ∈ insert b K := by
      rw [bblock_eq (hlt.trans_le sb.one_bitmap)]
      exact Finset.mem_insert_of_mem hbm
    simp only [logBit, run_modify_bind, bzero, logWrite]
    split_ifs with hdata
    · exact ⟨hdata.ne_zero, ((h.weaken b).log hbit _).log (Finset.mem_insert_self b K) _, rfl, rfl⟩
    · exact ((h.weaken b).log hbit _).budget (card_insert_le hK b)

theorem bfree_costs (h : Spent K n s) (hbm : sb.bmapstart ∈ K) (hK : K.card + n ≤ MAXOPBLOCKS) :
    Halts (fun _ t => Spent K n t ∧ t.cache = s.cache ∧ t.file = s.file) Budget (bfree sb b s) := by
  rw [bfree]
  split_ifs with hb
  · exact h.budget hK
  · rw [run_get_bind]
    split_ifs
    · exact h.budget hK
    · refine ⟨h.log ?_ _, rfl, rfl⟩
      rw [bblock_eq (by omega)]
      exact hbm

/-! ### `bmap` -/

/-- A block for a slot of the inode. -/
theorem addrBlock_costs (h : Spent K n s) (hbm : sb.bmapstart ∈ K)
    (hK : K.card + (n + 1) ≤ MAXOPBLOCKS) (e : Entry) (k : AddrIdx) :
    Halts (fun b t => b ≠ 0 ∧ Spent (insert b K) n t ∧ Retains s t ∧
        (t.cache e).copy.addrs k = b ∧
        ∀ k', k' ≠ k → (t.cache e).copy.addrs k' = (s.cache e).copy.addrs k')
      Budget (addrBlock sb e k s) := by
  rw [addrBlock, run_get_bind]
  split_ifs with h0
  · refine (balloc_costs h hbm hK).bind ?_
    rintro b t ⟨hne, ht, hcache, hfile⟩
    refine ⟨hne, ht.congr rfl rfl, ?_, ?_, ?_⟩
    · exact (Retains.of_cache hcache hfile).trans (.setInode rfl)
    · rw [State.setInode_self]
      exact Function.update_self ..
    · intro k' hk'
      rw [State.setInode_self, hcache]
      exact Function.update_of_ne hk' ..
  · exact ⟨h0, h.weaken _, .refl s, rfl, fun _ _ => rfl⟩

/-- The indirect block of `e`, once there is one, may be logged too. -/
def Reaches (K : Finset ℕ) (n : ℕ) (e : Entry) (s : State) : Prop :=
  (s.cache e).copy.addrs indirect = 0 ∧ Spent K n s ∨
    (s.cache e).copy.addrs indirect ≠ 0 ∧ Spent (insert ((s.cache e).copy.addrs indirect) K) n s

namespace Reaches

theorem spent (h : Reaches K n e s) : Spent K (n + 1) s := by
  obtain ⟨-, h⟩ | ⟨-, h⟩ := h
  · exact h.mono (Nat.le_succ n)
  · exact h.absorb

theorem of_spent (h : Spent K n s) (e : Entry) : Reaches K n e s := by
  by_cases h0 : (s.cache e).copy.addrs indirect = 0
  · exact .inl ⟨h0, h⟩
  · exact .inr ⟨h0, h.weaken _⟩

theorem absorb (h : Reaches (insert b K) n e s) : Reaches K (n + 1) e s := by
  obtain ⟨h0, h⟩ | ⟨h0, h⟩ := h
  · exact .inl ⟨h0, h.absorb⟩
  · rw [Finset.insert_comm] at h
    exact .inr ⟨h0, h.absorb⟩

theorem mono (h : Reaches K n e s) (hnm : n ≤ m) : Reaches K m e s :=
  h.imp (And.imp_right fun hs => hs.mono hnm) (And.imp_right fun hs => hs.mono hnm)

theorem log (h : Reaches K n e s) (hb : b ∈ K) (d : Disk) : Reaches K n e (s.setDisk d b) :=
  h.imp (And.imp_right fun hs => hs.log hb d)
    (And.imp_right fun hs => hs.log (Finset.mem_insert_of_mem hb) d)

theorem budget (h : Reaches K n e s) (hK : K.card + (n + 1) ≤ MAXOPBLOCKS) : Budget s :=
  h.spent.budget hK

end Reaches

/-- The indirect block itself. -/
theorem indirect_costs (h : Reaches K n e s) (hbm : sb.bmapstart ∈ K)
    (hK : K.card + (n + 1) ≤ MAXOPBLOCKS) :
    Halts (fun b t => b ≠ 0 ∧ Spent (insert b K) n t ∧ Retains s t ∧
        (t.cache e).copy.addrs indirect = b) Budget (addrBlock sb e indirect s) := by
  obtain ⟨-, hs⟩ | ⟨h0, hs⟩ := h
  · refine (addrBlock_costs hs hbm hK e indirect).post ?_
    rintro b t ⟨hne, ht, hkeep, haddr, -⟩
    exact ⟨hne, ht, hkeep, haddr⟩
  · rw [addrBlock_reads h0]
    exact ⟨h0, hs, .refl s, rfl⟩

theorem bmap_costs (h : Reaches K n e s) (hbm : sb.bmapstart ∈ K)
    (hK : K.card + (n + 2) ≤ MAXOPBLOCKS) (bn : ℕ) :
    Halts (fun b t => Reaches (insert b K) n e t ∧ Retains s t) Budget (bmap sb e bn s) := by
  rw [bmap]
  split_ifs with hdirect hin
  · have hne : indirect ≠ direct ⟨bn, hdirect⟩ := by
      intro heq
      have hval : NDIRECT = bn := congrArg Fin.val heq
      omega
    obtain ⟨h0, hs⟩ | ⟨h0, hs⟩ := h
    · refine (addrBlock_costs hs hbm (by omega) e _).post ?_
      rintro b t ⟨-, ht, hkeep, -, hother⟩
      exact ⟨.inl ⟨(hother _ hne).trans h0, ht⟩, hkeep⟩
    · refine (addrBlock_costs hs (Finset.mem_insert_of_mem hbm) (card_insert_le hK _) e _).post ?_
      rintro b t ⟨-, ht, hkeep, -, hother⟩
      rw [Finset.insert_comm] at ht
      refine ⟨.inr ⟨?_, ?_⟩, hkeep⟩
      · rwa [hother _ hne]
      · rwa [hother _ hne]
  · refine (indirect_costs h hbm (by omega)).bind ?_
    rintro addr t ⟨hne, ht, hkeep, haddr⟩
    have hbm' : sb.bmapstart ∈ insert addr K := Finset.mem_insert_of_mem hbm
    have hK' := card_insert_le hK addr
    refine (bread_costs (ht.budget (by omega))).bind ?_
    rintro a u rfl
    split_ifs
    · refine (balloc_costs ht hbm' hK').bind ?_
      rintro b v ⟨-, hv, hcache, hfile⟩
      have hmem : addr ∈ insert b (insert addr K) :=
        Finset.mem_insert_of_mem (Finset.mem_insert_self addr K)
      have hK'' : (insert b (insert addr K)).card + n ≤ MAXOPBLOCKS := card_insert_le hK' b
      refine (logWrite_costs hv hmem hK'' _).bind ?_
      rintro _ w ⟨hw, hcache', hfile'⟩
      rw [Finset.insert_comm] at hw
      have hw' : w.cache = u.cache := hcache'.trans hcache
      refine ⟨.inr ⟨?_, ?_⟩, hkeep.trans (.of_cache hw' (hfile'.trans hfile))⟩
      · rwa [hw', haddr]
      · rwa [hw', haddr]
    · refine ⟨.inr ⟨?_, ?_⟩, hkeep⟩
      · rwa [haddr]
      · rw [haddr, Finset.insert_comm]
        exact ht.weaken _
  · exact h.budget (by omega)

/-! ### `writei` -/

/-- The number of blocks that `m` bytes from `off` on are in. -/
def blocksOf (off m : ℕ) : ℕ := if m = 0 then 0 else (off % BSIZE + m + (BSIZE - 1)) / BSIZE

/-- A pass of the loop is through with a block. -/
theorem blocksOf_step (off : ℕ) (hm : 0 < m) :
    blocksOf (off + min m (BSIZE - off % BSIZE)) (m - min m (BSIZE - off % BSIZE)) + 1 ≤
      blocksOf off m := by
  have hmod : off % BSIZE < BSIZE := Nat.mod_lt _ (by decide)
  rw [blocksOf, blocksOf, if_neg hm.ne']
  simp only [BSIZE] at hmod ⊢
  split_ifs <;> omega

theorem writeLoop_costs {src : ℕ → UInt8} {len fuel tot : ℕ} (h : Reaches K n e s)
    (hbm : sb.bmapstart ∈ K) (hK : K.card + (n + 1 + blocksOf off (len - tot)) ≤ MAXOPBLOCKS) :
    Halts (fun _ t => Reaches K (n + blocksOf off (len - tot)) e t ∧ Retains s t) Budget
      (writeLoop sb e src len fuel tot off s) := by
  induction fuel generalizing tot off n s with
  | zero => exact ⟨h.mono (Nat.le_add_right _ _), .refl s⟩
  | succ fuel ih =>
    rw [writeLoop]
    split_ifs with htot
    · have hstep := blocksOf_step off (Nat.sub_pos_of_lt htot)
      rw [Nat.sub_sub] at hstep
      set m := min (len - tot) (BSIZE - off % BSIZE)
      refine (bmap_costs h hbm (by omega) _).bind ?_
      rintro b t ⟨ht, hkeep⟩
      refine (bread_costs (ht.absorb.budget (by omega))).bind ?_
      rintro a u rfl
      have hlog : Halts (fun _ v => Reaches K (n + 1) e v ∧ Retains s v) Budget
          (logWrite sb b (Fs.copyIn a (off % BSIZE) m fun i => src (tot + i)) u) := by
        rw [logWrite]
        split_ifs
        · exact ⟨(ht.log (Finset.mem_insert_self b K) _).absorb, hkeep.trans (.of_cache rfl rfl)⟩
        · exact ht.absorb.budget (by omega)
      refine hlog.bind ?_
      rintro _ v ⟨hv, hkeep'⟩
      refine (ih hv (by omega)).post ?_
      rintro _ w ⟨hw, hkeep''⟩
      exact ⟨hw.mono (by omega), hkeep'.trans hkeep''⟩
    · exact ⟨h.mono (Nat.le_add_right _ _), .refl s⟩

theorem setInode_costs (h : Spent K n s) {f : Inode → Inode} (hf : ∀ x, (f x).inum = x.inum) :
    Halts (fun _ t => Spent K n t ∧ Retains s t) Budget (setInode e f s) :=
  ⟨h.congr rfl rfl, Retains.setInode (hf _)⟩

theorem setCopy_costs (h : Spent K n s) (e : Entry) (f : Dinode → Dinode) :
    Halts (fun _ t => Spent K n t ∧ Retains s t) Budget (setCopy e f s) :=
  setInode_costs h fun _ => rfl

theorem iupdate_costs (h : Spent K n s) (hib : sb.iblock (s.cache e).inum ∈ K) :
    Halts (fun _ t => Spent K n t ∧ Retains s t) Budget (iupdate sb e s) :=
  ⟨h.log hib _, .of_cache rfl rfl⟩

theorem writei_costs {src : ℕ → UInt8} {off len : UInt32} (h : Spent K n s)
    (hbm : sb.bmapstart ∈ K) (hib : sb.iblock (s.cache e).inum ∈ K)
    (hK : K.card + (n + 1 + blocksOf off.toNat len.toNat) ≤ MAXOPBLOCKS) :
    Halts (fun _ t => Spent K (n + 1 + blocksOf off.toNat len.toNat) t ∧ Retains s t) Budget
      (writei sb e src off len s) := by
  have hstart : Spent K (n + 1 + blocksOf off.toNat len.toNat) s := h.mono (by omega)
  rw [writei, run_get_bind]
  dsimp only
  split_ifs
  · exact ⟨hstart, .refl s⟩
  · exact ⟨hstart, .refl s⟩
  · exact ⟨hstart, .refl s⟩
  · exact ⟨hstart, .refl s⟩
  · have hreach : Reaches K n e s := .of_spent h e
    refine (writeLoop_costs hreach hbm (by rw [Nat.sub_zero]; exact hK)).bind ?_
    rintro off' t ⟨ht, hkeep⟩
    rw [Nat.sub_zero] at ht
    have hspent : Spent K (n + 1 + blocksOf off.toNat len.toNat) t := ht.spent.mono (by omega)
    split_ifs
    · refine (setCopy_costs hspent e _).bind ?_
      rintro _ u ⟨hu, hkeep'⟩
      have hib' : sb.iblock (u.cache e).inum ∈ K := by rwa [hkeep'.inum, hkeep.inum]
      refine (iupdate_costs hu hib').bind ?_
      rintro _ v ⟨hv, hkeep''⟩
      exact ⟨hv, (hkeep.trans hkeep').trans hkeep''⟩
    · exact ⟨hspent, hkeep⟩

/-! ### `iput` -/

section Iput

variable (hbm : sb.bmapstart ∈ K) (hK : K.card + n ≤ MAXOPBLOCKS)
include hbm hK

theorem truncDirect_costs (h : Spent K n s) (k : Fin NDIRECT) :
    Halts (fun _ t => Spent K n t ∧ Retains s t) Budget (truncDirect sb e k s) := by
  rw [truncDirect, run_get_bind]
  split_ifs
  · refine (bfree_costs h hbm hK).bind ?_
    rintro _ t ⟨ht, hcache, hfile⟩
    refine (setCopy_costs ht e _).post ?_
    rintro _ u ⟨hu, hkeep⟩
    exact ⟨hu, (Retains.of_cache hcache hfile).trans hkeep⟩
  · exact ⟨h, .refl s⟩

theorem truncEntry_costs (h : Spent K n s) (a : Fs.Block) (j : Fin NINDIRECT) :
    Halts (fun _ t => Spent K n t ∧ Retains s t) Budget (truncEntry sb a j s) := by
  rw [truncEntry]
  split_ifs
  · exact (bfree_costs h hbm hK).post fun _ t ht => ⟨ht.1, .of_cache ht.2.1 ht.2.2⟩
  · exact ⟨h, .refl s⟩

omit hbm hK in
/-- A loop of such passes. -/
theorem forM_costs {α : Type} {f : α → Run PUnit} (l : List α) (h : Spent K n s)
    (hf : ∀ a t, Spent K n t → Halts (fun _ u => Spent K n u ∧ Retains t u) Budget (f a t)) :
    Halts (fun _ t => Spent K n t ∧ Retains s t) Budget (l.forM f s) := by
  refine Halts.forM (I := fun t => Spent K n t ∧ Retains s t) l ⟨h, .refl s⟩ ?_
  rintro a t ⟨ht, hkeep⟩
  exact (hf a t ht).post fun _ u hu => ⟨hu.1, hkeep.trans hu.2⟩

theorem truncIndirect_costs (h : Spent K n s) :
    Halts (fun _ t => Spent K n t ∧ Retains s t) Budget (truncIndirect sb e s) := by
  rw [truncIndirect, run_get_bind]
  split_ifs
  · refine (bread_costs (h.budget hK)).bind ?_
    rintro a t rfl
    refine (forM_costs _ h fun j u hu => truncEntry_costs hbm hK hu a j).bind ?_
    rintro _ u ⟨hu, hkeep⟩
    refine (bfree_costs hu hbm hK).bind ?_
    rintro _ v ⟨hv, hcache, hfile⟩
    refine (setCopy_costs hv e _).post ?_
    rintro _ w ⟨hw, hkeep'⟩
    exact ⟨hw, (hkeep.trans (.of_cache hcache hfile)).trans hkeep'⟩
  · exact ⟨h, .refl s⟩

theorem itrunc_costs (h : Spent K n s) (hib : sb.iblock (s.cache e).inum ∈ K) :
    Halts (fun _ t => Spent K n t ∧ Retains s t) Budget (itrunc sb e s) := by
  rw [itrunc]
  refine (forM_costs _ h fun k t ht => truncDirect_costs hbm hK ht k).bind ?_
  rintro _ t ⟨ht, hkeep⟩
  refine (truncIndirect_costs hbm hK ht).bind ?_
  rintro _ u ⟨hu, hkeep'⟩
  refine (setCopy_costs hu e _).bind ?_
  rintro _ v ⟨hv, hkeep''⟩
  have hall := (hkeep.trans hkeep').trans hkeep''
  exact (iupdate_costs hv (by rwa [hall.inum])).post fun _ w hw => ⟨hw.1, hall.trans hw.2⟩

theorem freeInode_costs (h : Spent K n s) (hib : sb.iblock (s.cache e).inum ∈ K) :
    Halts (fun _ t => Spent K n t ∧ Retains s t) Budget (freeInode sb e s) := by
  rw [freeInode]
  refine (itrunc_costs hbm hK h hib).bind ?_
  rintro _ t ⟨ht, hkeep⟩
  refine (setCopy_costs ht e _).bind ?_
  rintro _ u ⟨hu, hkeep'⟩
  refine (iupdate_costs hu (by rwa [hkeep'.inum, hkeep.inum])).bind ?_
  rintro _ v ⟨hv, hkeep''⟩
  refine (setInode_costs hv ?_).post fun _ w hw => ⟨hw.1, ?_⟩
  · exact fun _ => rfl
  · exact ((hkeep.trans hkeep').trans hkeep'').trans hw.2

omit hbm in
theorem acquiresleep_costs (h : Spent K n s) :
    Halts (fun _ t => Spent K n t ∧ Retains s t) Budget (acquiresleep e s) := by
  rw [acquiresleep, run_get_bind]
  split_ifs
  · exact h.budget hK
  · exact setInode_costs h fun _ => rfl

/-- A deferred free logs the bitmap and the inode. -/
theorem iput_costs (h : Spent K n s) (hib : sb.iblock (s.cache e).inum ∈ K) :
    Halts (fun _ t => Spent K n t ∧ Retains s t) Budget (iput sb e s) := by
  have hlast : ∀ t, Spent K n t → Retains s t → Halts (fun _ u => Spent K n u ∧ Retains s u)
      Budget ((releasesleep e >>= fun _ => setInode e fun ip => { ip with ref := ip.ref - 1 }) t) := by
    intro t ht hkeep
    rw [releasesleep]
    refine (setInode_costs ht ?_).bind ?_
    · exact fun _ => rfl
    · rintro _ u ⟨hu, hkeep'⟩
      refine (setInode_costs hu ?_).post fun _ v hv => ⟨hv.1, (hkeep.trans hkeep').trans hv.2⟩
      exact fun _ => rfl
  rw [iput]
  refine (acquiresleep_costs hK h).bind ?_
  rintro _ t ⟨ht, hkeep⟩
  rw [run_get_bind]
  split_ifs
  · refine (freeInode_costs hbm hK ht (by rwa [hkeep.inum])).bind ?_
    rintro _ u ⟨hu, hkeep'⟩
    exact hlast u hu (hkeep.trans hkeep')
  · exact hlast t ht hkeep

omit hbm in
theorem iunlock_costs (h : Spent K n s) :
    Halts (fun _ t => Spent K n t ∧ Retains s t) Budget (iunlock e s) := by
  rw [iunlock, run_get_bind]
  split_ifs
  · exact h.budget hK
  · exact setInode_costs h fun _ => rfl

omit hbm in
theorem ilock_costs (h : Spent K n s) :
    Halts (fun _ t => Spent K n t ∧ Retains s t) Budget (ilock e s) := by
  rw [ilock, run_get_bind]
  split_ifs
  · exact h.budget hK
  · refine (acquiresleep_costs hK h).bind ?_
    rintro _ t ⟨ht, hkeep⟩
    rw [run_get_bind]
    split_ifs
    · refine (setInode_costs ht ?_).bind ?_
      · exact fun _ => rfl
      · rintro _ u ⟨hu, hkeep'⟩
        split_ifs
        · exact hu.budget hK
        · exact ⟨hu, hkeep.trans hkeep'⟩
    · exact ⟨ht, hkeep⟩

theorem iunlockput_costs (h : Spent K n s) (hib : sb.iblock (s.cache e).inum ∈ K) :
    Halts (fun _ t => Spent K n t ∧ Retains s t) Budget (iunlockput sb e s) := by
  rw [iunlockput]
  refine (iunlock_costs hK h).bind ?_
  rintro _ t ⟨ht, hkeep⟩
  exact (iput_costs hbm hK ht (by rwa [hkeep.inum])).post fun _ u hu => ⟨hu.1, hkeep.trans hu.2⟩

end Iput

end Xv6Container.Ops
