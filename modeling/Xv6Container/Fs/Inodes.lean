import Xv6Container.Fs.Owned
import Xv6Container.Lib.Reach

/-! Operations on inodes, one after the other: `itrunc` gives every block back once, and in
every run of `ialloc`, `readi`, `writei` and `iput` the blocks are owned as `Owned` says. -/

namespace Xv6Container.Fs

open Lib

variable {e : Entry} {s t u : FsState} {b : ℕ}

/-! ### `itrunc` -/

/-- What `itrunc` leaves alone before it writes the inode. -/
structure Frame (e : Entry) (s t : FsState) : Prop where
  inode : t.disk.inode = s.disk.inode
  cache : ∃ addrs, t.cache = Function.update s.cache e
    { s.cache e with copy := { (s.cache e).copy with addrs := addrs } }
  others : ∀ y, y.1 ≠ (s.cache e).inum → t.refs e y = s.refs e y

namespace Frame

theorem refl (e : Entry) (s : FsState) : Frame e s s :=
  ⟨rfl, ⟨(s.cache e).copy.addrs, (Function.update_eq_self e s.cache).symm⟩, fun _ _ => rfl⟩

theorem inum (h : Frame e s t) : (t.cache e).inum = (s.cache e).inum := by
  obtain ⟨a, ha⟩ := h.cache
  rw [ha, Function.update_self]

theorem trans (h : Frame e s t) (h' : Frame e t u) : Frame e s u := by
  obtain ⟨a, ha⟩ := h.cache
  obtain ⟨a', ha'⟩ := h'.cache
  refine ⟨h'.inode.trans h.inode, ⟨a', ?_⟩, fun y hy => ?_⟩
  · rw [ha', ha, Function.update_self, Function.update_idem]
  · rw [h'.others y (by rwa [h.inum]), h.others y hy]

end Frame

/-- A place has given its block back. -/
theorem Working.release (h : Working e s) {x : Inum × Place} (hx : s.refs e x = some b)
    (hused : t.disk.used = Function.update s.disk.used b false)
    (hrefs : t.refs e = Function.update (s.refs e) x none)
    (halloc : (t.cache e).copy.type ≠ .free) : Working e t := by
  refine ⟨⟨?_, fun b' hb' => ?_⟩, halloc⟩
  · rw [hused]
    change Exact _ _ (t.refs e)
    rw [hrefs]
    exact h.owned.exact.release hx
  · have hne : b' ≠ b := by
      rintro rfl
      exact absurd (h.dataBlock hx).1 (Nat.not_le.2 hb')
    rw [hused, Function.update_of_ne hne]
    exact h.owned.metaUsed b' hb'

theorem Dinode.ref_clearAddr (d : Dinode) (data : ℕ → Block) {k : AddrIdx} (hk : k ≠ indirect) :
    (d.setAddr k 0).ref data = Function.update (d.ref data) (.addr k) none := by
  funext y
  cases y with
  | addr k' =>
    by_cases hkk : k' = k
    · simp only [hkk, Dinode.ref, setAddr, Function.update_self]
      rfl
    · rw [Function.update_of_ne (by simp [hkk])]
      simp only [Dinode.ref, setAddr, Function.update_of_ne hkk]
  | entry j =>
    rw [Function.update_of_ne (by simp)]
    simp only [Dinode.ref, setAddr, Function.update_of_ne hk.symm]

theorem direct_ne_indirect (k : Fin NDIRECT) : direct k ≠ indirect := by
  intro h
  have hval := congrArg Fin.val h
  change k.val = NDIRECT at hval
  omega

/-- The direct blocks below `k` are gone. -/
theorem truncDirect_ends (h : Working e s) (k : Fin NDIRECT) :
    Ends (fun _ t => Working e t ∧ Frame e s t ∧
      (t.cache e).copy.addrs = Function.update (s.cache e).copy.addrs (direct k) 0)
      Legal (truncDirect e k s) := by
  simp only [truncDirect, run_get_bind]
  split_ifs with h0
  · have hx := (h.refs_addr (direct k)).2 ⟨rfl, h0⟩
    rw [run_bind_ok (bfree_run (h.dataBlock hx) (h.owned.exact.marked _ _ hx))]
    simp only [setAddr, setCopy, run_modify, ends_ok, FsState.setUsed_cache]
    have hrefs : ((s.setUsed ((s.cache e).copy.addrs (direct k)) false).setCopy e
        ((s.cache e).copy.setAddr (direct k) 0)).refs e =
        Function.update (s.refs e) ((s.cache e).inum, .addr (direct k)) none := by
      rw [FsState.refs, FsState.table_setCopy]
      refine refs_update h.type_table ((s.cache e).copy.setAddr (direct k) 0) h.alloc ?_
      rw [FsState.table_self]
      exact Dinode.ref_clearAddr _ _ (direct_ne_indirect k)
    refine ⟨h.release hx rfl hrefs (by rw [FsState.setCopy_self]; exact h.alloc),
      ⟨rfl, ⟨_, rfl⟩, fun y hy => ?_⟩, ?_⟩
    · rw [hrefs, Function.update_of_ne]
      rintro rfl
      exact hy rfl
    · rw [FsState.setCopy_self]
      rfl
  · refine ends_ok.2 ⟨h, .refl e s, ?_⟩
    rw [not_not] at h0
    rw [← h0, Function.update_eq_self]

/-- The references without the first `j` entries of the indirect block of `i`. -/
def dropEntries (own : Inum × Place → Option ℕ) (i : Inum) (j : ℕ) : Inum × Place → Option ℕ
  | (i', .entry j') => if i' = i ∧ j'.val < j then none else own (i', .entry j')
  | (i', .addr k) => own (i', .addr k)

theorem dropEntries_zero (own : Inum × Place → Option ℕ) (i : Inum) : dropEntries own i 0 = own := by
  funext ⟨i', x⟩
  cases x with
  | addr k => rfl
  | entry j' => simp [dropEntries]

theorem dropEntries_self (own : Inum × Place → Option ℕ) (i : Inum) (j : Fin NINDIRECT) :
    dropEntries own i j (i, .entry j) = own (i, .entry j) := by simp [dropEntries]

theorem dropEntries_of_ne (own : Inum × Place → Option ℕ) {i : Inum} (j : ℕ) {y : Inum × Place}
    (h : y.1 ≠ i) : dropEntries own i j y = own y := by
  obtain ⟨i', x⟩ := y
  cases x with
  | addr k => rfl
  | entry j' => exact if_neg fun h' => h h'.1

theorem dropEntries_succ (own : Inum × Place → Option ℕ) (i : Inum) (j : Fin NINDIRECT) :
    dropEntries own i (j + 1) = Function.update (dropEntries own i j) (i, .entry j) none := by
  funext ⟨i', x⟩
  cases x with
  | addr k =>
    rw [Function.update_of_ne (by simp)]
    rfl
  | entry j' =>
    by_cases h : i' = i ∧ j' = j
    · rw [h.1, h.2, Function.update_self]
      simp [dropEntries]
    · have hne : (i', Place.entry j') ≠ (i, .entry j) := by simpa using h
      have hiff : (i' = i ∧ j'.val < j.val + 1) ↔ (i' = i ∧ j'.val < j.val) := by
        refine and_congr_right fun hi => ⟨fun hlt => ?_, fun hlt => by omega⟩
        have hj : j' ≠ j := fun hj => h ⟨hi, hj⟩
        have := Fin.val_ne_of_ne hj
        omega
      rw [Function.update_of_ne hne]
      simp only [dropEntries, hiff]

/-- The loop of `itrunc` over the entries of the indirect block, which stay there. -/
theorem truncEntries_ends (h : Working e s) {addr : ℕ} (haddr : (s.cache e).copy.addrs indirect = addr)
    (h0 : addr ≠ 0) :
    Ends (fun _ t => (∃ used, t = { s with disk := { s.disk with used := used } }) ∧
      (∀ b < nmeta, t.disk.used b = true) ∧
      Exact DataBlock t.disk.used (dropEntries (s.refs e) (s.cache e).inum NINDIRECT)) Legal
      ((List.finRange NINDIRECT).forM (truncEntry (s.disk.data addr)) s) := by
  refine Ends.finRange (I := fun j t => (∃ used, t = { s with disk := { s.disk with used := used } }) ∧
    (∀ b < nmeta, t.disk.used b = true) ∧
    Exact DataBlock t.disk.used (dropEntries (s.refs e) (s.cache e).inum j)) ?_ ?_
  · refine ⟨⟨s.disk.used, rfl⟩, h.owned.metaUsed, ?_⟩
    rw [dropEntries_zero]
    exact h.owned.exact
  · rintro j t ⟨⟨used, rfl⟩, hmeta, hexact⟩
    have hself := dropEntries_self (s.refs e) (s.cache e).inum j
    rw [dropEntries_succ, truncEntry]
    split_ifs with hj
    · have hx : s.refs e ((s.cache e).inum, .entry j) = some (getUint (s.disk.data addr) j) :=
        (h.refs_entry (haddr ▸ h0) j).2 ⟨by rw [haddr], hj⟩
      rw [hx] at hself
      have hdata := hexact.domain _ _ hself
      rw [bfree_run hdata (hexact.marked _ _ hself)]
      refine ends_ok.2 ⟨⟨_, rfl⟩, fun b hb => ?_, hexact.release hself⟩
      have hne : b ≠ getUint (s.disk.data addr) j := by
        rintro rfl
        exact absurd hdata.1 (Nat.not_le.2 hb)
      rw [FsState.setUsed_used, Function.update_of_ne hne]
      exact hmeta b hb
    · refine ends_ok.2 ⟨⟨used, rfl⟩, hmeta, ?_⟩
      have hx : s.refs e ((s.cache e).inum, .entry j) = none := by
        rw [h.refs_self, Dinode.ref, if_neg (haddr ▸ h0), haddr, not_not.1 hj]
        rfl
      rw [← hx, ← hself, Function.update_eq_self]
      exact hexact

/-- Without its indirect block an inode has no entries. -/
theorem refs_clearIndirect (h : Working e s) :
    (s.setCopy e ((s.cache e).copy.setAddr indirect 0)).refs e =
      Function.update (dropEntries (s.refs e) (s.cache e).inum NINDIRECT)
        ((s.cache e).inum, .addr indirect) none := by
  funext ⟨i, x⟩
  rw [FsState.refs, FsState.table_setCopy]
  by_cases hi : i = (s.cache e).inum
  · subst hi
    rw [refs_of_ne_free (by rw [Function.update_self]; exact h.alloc), Function.update_self]
    cases x with
    | addr k =>
      by_cases hk : k = indirect
      · subst hk
        rw [Function.update_self]
        simp only [Dinode.ref, Dinode.setAddr, Function.update_self]
        rfl
      · rw [Function.update_of_ne (by simp [hk]), dropEntries, h.refs_self]
        simp only [Dinode.ref, Dinode.setAddr, Function.update_of_ne hk]
    | entry j =>
      rw [Function.update_of_ne (by simp), dropEntries, if_pos ⟨rfl, j.isLt⟩]
      simp only [Dinode.ref, Dinode.setAddr, Function.update_self, if_true]
  · rw [Function.update_of_ne (by simp [hi])]
    rw [dropEntries_of_ne _ _ hi]
    simp only [FsState.refs, refs, Function.update_of_ne hi, FsState.setCopy_disk]

theorem truncIndirect_ends (h : Working e s) :
    Ends (fun _ t => Working e t ∧ Frame e s t ∧
      (t.cache e).copy.addrs = Function.update (s.cache e).copy.addrs indirect 0)
      Legal (truncIndirect e s) := by
  simp only [truncIndirect, run_get_bind]
  split_ifs with h0
  · have hx := (h.refs_addr indirect).2 ⟨rfl, h0⟩
    rw [run_bind_ok (bread_run (h.dataBlock hx))]
    refine (truncEntries_ends h rfl h0).bind ?_
    rintro - t ⟨⟨used, rfl⟩, hmeta, hexact⟩
    have hdata := h.dataBlock hx
    have hx' : dropEntries (s.refs e) (s.cache e).inum NINDIRECT ((s.cache e).inum, .addr indirect) =
        some ((s.cache e).copy.addrs indirect) := hx
    rw [run_bind_ok (bfree_run hdata (hexact.marked _ _ hx'))]
    simp only [setAddr, setCopy, run_modify, ends_ok]
    have hrefs := refs_clearIndirect h
    refine ⟨⟨⟨?_, fun b hb => ?_⟩, ?_⟩, ⟨rfl, ⟨_, rfl⟩, fun y hy => ?_⟩, ?_⟩
    · have := hexact.release hx'
      rwa [← hrefs] at this
    · have hne : b ≠ (s.cache e).copy.addrs indirect := by
        rintro rfl
        exact absurd hdata.1 (Nat.not_le.2 hb)
      change Function.update used _ false b = true
      rw [Function.update_of_ne hne]
      exact hmeta b hb
    · rw [FsState.setCopy_self]
      exact h.alloc
    · refine (congrFun hrefs y).trans ?_
      rw [Function.update_of_ne fun heq => hy (congrArg Prod.fst heq)]
      exact dropEntries_of_ne _ _ hy
    · rw [FsState.setCopy_self]
      rfl
  · refine ends_ok.2 ⟨h, .refl e s, ?_⟩
    rw [not_not] at h0
    rw [← h0, Function.update_eq_self]

/-- `itrunc` has given all blocks back and written the inode. -/
structure Truncated (e : Entry) (s t : FsState) : Prop where
  work : Working e t
  empty : ∀ k, (t.cache e).copy.addrs k = 0
  size : (t.cache e).copy.size = 0
  entry : ∃ d, t.cache = Function.update s.cache e { s.cache e with copy := d }
  inode : ∀ j, j ≠ (s.cache e).inum → t.disk.inode j = s.disk.inode j
  others : ∀ y, y.1 ≠ (s.cache e).inum → t.refs e y = s.refs e y

theorem truncDirects_ends (h : Working e s) :
    Ends (fun _ t => Working e t ∧ Frame e s t ∧ ∀ k : Fin NDIRECT, (t.cache e).copy.addrs (direct k) = 0)
      Legal ((List.finRange NDIRECT).forM (truncDirect e) s) := by
  refine (Ends.finRange (I := fun n t => Working e t ∧ Frame e s t ∧
    ∀ k : Fin NDIRECT, k.val < n → (t.cache e).copy.addrs (direct k) = 0)
    ⟨h, .refl e s, fun k hk => absurd hk (Nat.not_lt_zero _)⟩ ?_).post ?_
  · rintro k t ⟨ht, hframe, hzero⟩
    refine (truncDirect_ends ht k).post ?_
    rintro - u ⟨hu, hframe', haddrs⟩
    refine ⟨hu, hframe.trans hframe', fun k' hk' => ?_⟩
    rw [haddrs, Function.update_apply]
    split_ifs with heq
    · rfl
    · apply hzero k'
      have hne : k'.val ≠ k.val := fun hval => heq (by rw [Fin.ext hval])
      omega
  · rintro - t ⟨ht, hframe, hzero⟩
    exact ⟨ht, hframe, fun k => hzero k k.isLt⟩

theorem itrunc_ends (h : Working e s) : Ends (fun _ => Truncated e s) Legal (itrunc e s) := by
  unfold itrunc
  refine (truncDirects_ends h).bind ?_
  rintro - t ⟨ht, hframe, hzero⟩
  refine (truncIndirect_ends ht).bind ?_
  rintro - u ⟨hu, hframe', haddrs⟩
  simp only [setCopy, iupdate, run_modify_bind, run_modify, ends_ok, FsState.setCopy_self]
  obtain ⟨hw, hrefs⟩ := hu.update (d := { (u.cache e).copy with size := 0 }) rfl rfl
  have hsu := hframe.trans hframe'
  obtain ⟨addrs, hcache⟩ := hsu.cache
  constructor
  case work => exact hw
  case empty =>
    intro k
    rw [FsState.setDinode_cache, FsState.setCopy_self]
    change (u.cache e).copy.addrs k = 0
    rw [haddrs, Function.update_apply]
    split_ifs with hk
    · rfl
    · exact hzero ⟨k.val, Fin.val_lt_last hk⟩
  case size =>
    rw [FsState.setDinode_cache, FsState.setCopy_self]
  case entry =>
    refine ⟨{ (u.cache e).copy with size := 0 }, ?_⟩
    change Function.update u.cache e _ = _
    rw [hcache, Function.update_idem, Function.update_self]
  case inode =>
    intro j hj
    rw [FsState.setDinode_inode, Function.update_of_ne (by rwa [hsu.inum])]
    exact congrFun hsu.inode j
  case others =>
    intro y hy
    rw [hrefs, hsu.others y hy]

/-- The inode is free on the disk, and the blocks are those of the others. -/
structure Freed (e : Entry) (s t : FsState) : Prop where
  owned : Owned t.disk.inode t.disk.used t.disk.data
  free : (t.disk.inode (s.cache e).inum).type = .free
  inode : ∀ j, j ≠ (s.cache e).inum → t.disk.inode j = s.disk.inode j
  entry : ∃ d, t.cache = Function.update s.cache e { s.cache e with copy := d, valid := false }
  others : ∀ y, y.1 ≠ (s.cache e).inum → refs t.disk.inode t.disk.data y = s.refs e y

theorem freeInode_ends (h : Working e s) : Ends (fun _ => Freed e s) Legal (freeInode e s) := by
  unfold freeInode
  refine (itrunc_ends h).bind ?_
  rintro - t ht
  obtain ⟨d, hd⟩ := ht.entry
  have hinum : (t.cache e).inum = (s.cache e).inum := by rw [hd, Function.update_self]
  simp only [setCopy, iupdate, setInode, run_modify_bind, run_modify, ends_ok,
    FsState.setCopy_self, FsState.setDinode_cache]
  have hrefs : refs (Function.update t.disk.inode (t.cache e).inum
      { (t.cache e).copy with type := .free }) t.disk.data = t.refs e := by
    funext y
    obtain ⟨i, x⟩ := y
    by_cases hi : i = (t.cache e).inum
    · subst hi
      rw [ht.work.refs_self]
      simp only [refs, Function.update_self, if_true]
      cases x with
      | addr k => simp only [Dinode.ref, ht.empty, stored, if_true]
      | entry j => simp only [Dinode.ref, ht.empty, if_true]
    · simp only [FsState.refs, FsState.table, refs, Function.update_of_ne hi]
  constructor
  case owned =>
    refine ⟨?_, ht.work.owned.metaUsed⟩
    change Exact DataBlock t.disk.used (refs (Function.update t.disk.inode _ _) t.disk.data)
    rw [hrefs]
    exact ht.work.owned.exact
  case free =>
    change (Function.update t.disk.inode (t.cache e).inum _ (s.cache e).inum).type = _
    rw [hinum, Function.update_self]
  case inode =>
    intro j hj
    change Function.update t.disk.inode (t.cache e).inum _ j = _
    rw [Function.update_of_ne (by rwa [hinum]), ht.inode j hj]
  case entry =>
    refine ⟨{ (t.cache e).copy with type := .free }, ?_⟩
    change Function.update (Function.update t.cache e _) e _ = _
    rw [Function.update_idem, hd, Function.update_idem, Function.update_self]
  case others =>
    intro y hy
    exact (congrFun hrefs y).trans (ht.others y hy)

/-! ### Between operations -/

/-- An operation under the lock of `e` has loaded it and leaves the other inodes alone. -/
structure Touched (e : Entry) (s t : FsState) : Prop where
  cache : ∀ e', e' ≠ e → t.cache e' = s.cache e'
  inum : (t.cache e).inum = (s.cache e).inum
  ref : (t.cache e).ref = (s.cache e).ref
  valid : (t.cache e).valid = true
  inode : ∀ j, j ≠ (s.cache e).inum → t.disk.inode j = s.disk.inode j

theorem Touched.worked (h : Touched e s t) (hw : Worked e t u) : Touched e s u := by
  obtain ⟨d, hd⟩ := hw.entry
  have hself : u.cache e = { t.cache e with copy := d } := by rw [hd, Function.update_self]
  constructor
  case cache =>
    intro e' he'
    rw [hd, Function.update_of_ne he', h.cache e' he']
  case inum =>
    rw [hself, h.inum]
  case ref =>
    rw [hself, h.ref]
  case valid =>
    rw [hself, h.valid]
  case inode =>
    intro j hj
    rw [hw.others j (by rwa [h.inum]), h.inode j hj]

/-- Entry `e` has one more reference and is that of inode `i`; a copy in use stays. -/
structure Referred (i : Inum) (e : Entry) (s t : FsState) : Prop where
  disk : t.disk = s.disk
  cache : ∀ e', e' ≠ e → t.cache e' = s.cache e'
  inum : (t.cache e).inum = i
  ref : (t.cache e).ref = (s.cache e).ref + 1
  used : (s.cache e).ref > 0 → (s.cache e).inum = i ∧ (t.cache e).valid = (s.cache e).valid
  inUse : (t.cache e).ref > 0

/-- Every block below the size of an allocated inode is allocated. -/
def NoHoles (disk : Disk) : Prop :=
  ∀ i, (disk.inode i).type ≠ .free → ∀ bn, bn * BSIZE < (disk.inode i).size →
    ∃ x b, blockPlace bn = some x ∧ refs disk.inode disk.data (i, x) = some b

/-- The disk is in order, and so is the cache: an inode is in at most one entry in use, and a
loaded copy is what the disk has. -/
structure Sound (s : FsState) : Prop where
  owned : Owned s.disk.inode s.disk.used s.disk.data
  noHoles : NoHoles s.disk
  distinct : ∀ e e', (s.cache e).ref > 0 → (s.cache e').ref > 0 →
    (s.cache e).inum = (s.cache e').inum → e = e'
  loaded : ∀ e, (s.cache e).ref > 0 → (s.cache e).valid = true →
    (s.cache e).copy = s.disk.inode (s.cache e).inum ∧ (s.cache e).copy.type ≠ .free

namespace Sound

variable (h : Sound s)
include h

theorem table_eq (hr : (s.cache e).ref > 0) (hv : (s.cache e).valid = true) :
    s.table e = s.disk.inode := by
  rw [FsState.table, (h.loaded e hr hv).1, Function.update_eq_self]

theorem working (hr : (s.cache e).ref > 0) (hv : (s.cache e).valid = true) : Working e s := by
  refine ⟨?_, (h.loaded e hr hv).2⟩
  rw [h.table_eq hr hv]
  exact h.owned

theorem filled (hr : (s.cache e).ref > 0) (hv : (s.cache e).valid = true) :
    Filled e s (s.cache e).copy.size := by
  obtain ⟨hcopy, htype⟩ := h.loaded e hr hv
  intro bn hbn
  obtain ⟨x, b, hx, hb⟩ := h.noHoles _ (hcopy ▸ htype) bn (hcopy ▸ hbn)
  refine ⟨b, ?_⟩
  rw [FsState.fileBlock, hx, FsState.refs, h.table_eq hr hv]
  exact hb

/-- After an operation on a loaded inode. -/
theorem worked (hr : (s.cache e).ref > 0) (hv : (s.cache e).valid = true) (hw : Worked e s t) :
    Sound t := by
  obtain ⟨d, hd⟩ := hw.entry
  have hself : t.cache e = { s.cache e with copy := d } := by rw [hd, Function.update_self]
  have hother : ∀ e', e' ≠ e → t.cache e' = s.cache e' := fun e' he' => by
    rw [hd, Function.update_of_ne he']
  have htable : t.table e = t.disk.inode := by
    rw [FsState.table, ← hw.synced, Function.update_eq_self]
  have hrefs : t.refs e = refs t.disk.inode t.disk.data := by rw [FsState.refs, htable]
  have hsame : ∀ e', (t.cache e').inum = (s.cache e').inum ∧ (t.cache e').ref = (s.cache e').ref ∧
      (t.cache e').valid = (s.cache e').valid := by
    intro e'
    by_cases he : e' = e
    · rw [he, hself]
      exact ⟨rfl, rfl, rfl⟩
    · rw [hother e' he]
      exact ⟨rfl, rfl, rfl⟩
  constructor
  case owned => exact htable ▸ hw.work.owned
  case noHoles =>
    intro i hi bn hbn
    by_cases hinum : i = (t.cache e).inum
    · subst hinum
      rw [hw.synced] at hbn
      obtain ⟨b, hb⟩ := hw.filled bn hbn
      obtain ⟨x, hx, hb⟩ := Option.bind_eq_some_iff.1 hb
      exact ⟨x, b, hx, hrefs ▸ hb⟩
    · rw [(hsame e).1] at hinum
      rw [hw.others i hinum] at hi hbn
      obtain ⟨x, b, hx, hb⟩ := h.noHoles i hi bn hbn
      refine ⟨x, b, hx, ?_⟩
      rw [← hrefs]
      apply hw.grows
      rw [FsState.refs, h.table_eq hr hv]
      exact hb
  case distinct =>
    intro e₁ e₂ h₁ h₂ heq
    rw [(hsame e₁).2.1] at h₁
    rw [(hsame e₂).2.1] at h₂
    rw [(hsame e₁).1, (hsame e₂).1] at heq
    exact h.distinct e₁ e₂ h₁ h₂ heq
  case loaded =>
    intro e' hr' hv'
    by_cases he : e' = e
    · subst he
      exact ⟨hw.synced.symm, hw.work.alloc⟩
    · rw [hother e' he] at hr' hv' ⊢
      rw [hw.others _ fun heq => he (h.distinct e' e hr' hr heq)]
      exact h.loaded e' hr' hv'

/-- An entry may change as long as it is one inode's, and its copy is what the disk has. -/
theorem setInode {ip : Inode} (hdist : ip.ref > 0 → ∀ e', e' ≠ e → (s.cache e').ref > 0 →
      (s.cache e').inum ≠ ip.inum)
    (hload : ip.ref > 0 → ip.valid = true →
      ip.copy = s.disk.inode ip.inum ∧ ip.copy.type ≠ .free) : Sound (s.setInode e ip) := by
  refine ⟨h.owned, h.noHoles, fun e₁ e₂ h₁ h₂ heq => ?_, fun e' hr hv => ?_⟩
  · by_cases he₁ : e₁ = e
    · subst he₁
      by_contra hne
      rw [FsState.setInode_self] at h₁ heq
      rw [FsState.setInode_of_ne _ _ _ (Ne.symm hne)] at h₂ heq
      exact hdist h₁ e₂ (Ne.symm hne) h₂ heq.symm
    · rw [FsState.setInode_of_ne _ _ _ he₁] at h₁ heq
      by_cases he₂ : e₂ = e
      · subst he₂
        rw [FsState.setInode_self] at h₂ heq
        exact absurd heq (hdist h₂ e₁ he₁ h₁)
      · rw [FsState.setInode_of_ne _ _ _ he₂] at h₂ heq
        exact h.distinct e₁ e₂ h₁ h₂ heq
  · by_cases he : e' = e
    · subst he
      rw [FsState.setInode_self] at hr hv ⊢
      exact hload hr hv
    · rw [FsState.setInode_of_ne _ _ _ he] at hr hv ⊢
      exact h.loaded e' hr hv

/-- One more reference to an entry, or one less. -/
theorem setRef {r : ℤ} (hr : (s.cache e).ref > 0) : Sound (s.setInode e { s.cache e with ref := r }) :=
  h.setInode (fun _ _ he' hr' heq => he' (h.distinct _ _ hr' hr heq)) fun _ hv => h.loaded e hr hv

theorem ilock_ends (hr : (s.cache e).ref > 0) :
    Ends (fun _ t => Sound t ∧ Touched e s t) Legal (ilock e s) := by
  simp only [ilock, run_get_bind]
  rw [if_neg (by omega)]
  split_ifs with hv
  · simp only [run_get_bind, Fs.setInode, run_modify_bind]
    split_ifs with htype
    · exact ends_error.2 ⟨by decide, by decide, by decide⟩
    · refine ends_ok.2 ⟨?_, ?_⟩
      · exact h.setInode (fun _ _ he' hr' heq => he' (h.distinct _ _ hr' hr heq))
          fun _ _ => ⟨rfl, htype⟩
      · refine ⟨fun e' he' => FsState.setInode_of_ne _ _ _ he', ?_, ?_, ?_, fun _ _ => rfl⟩
        all_goals rw [FsState.setInode_self]
  · exact ends_ok.2 ⟨h, fun _ _ => rfl, rfl, rfl, Bool.eq_true_of_not_eq_false hv, fun _ _ => rfl⟩

theorem iget_ends (inum : Inum) :
    Ends (fun e t => Sound t ∧ Referred inum e s t) Legal (iget inum s) := by
  simp only [iget, run_get_bind]
  cases hfind : (List.finRange NINODE).find? fun e =>
      decide ((s.cache e).ref > 0 ∧ (s.cache e).inum = inum) with
  | some e =>
    have hp := List.find?_some hfind
    rw [decide_eq_true_eq] at hp
    refine ends_ok.2 ⟨h.setRef hp.1, rfl, fun _ he' => FsState.setInode_of_ne _ _ _ he', ?_, ?_,
      fun _ => ⟨hp.2, ?_⟩, ?_⟩
    all_goals rw [FsState.setInode_self]
    · exact hp.2
    · exact Int.lt_add_one_of_le (Int.le_of_lt hp.1)
  | none =>
    cases hempty : (List.finRange NINODE).find? fun e => decide ((s.cache e).ref = 0) with
    | some e =>
      have hp := List.find?_some hempty
      rw [decide_eq_true_eq] at hp
      refine ends_ok.2 ⟨h.setInode (fun _ e' _ hr' heq => ?_) nofun, rfl,
        fun _ he' => FsState.setInode_of_ne _ _ _ he', ?_, ?_, fun hr => ?_, ?_⟩
      · have := List.find?_eq_none.1 hfind e' (List.mem_finRange e')
        rw [decide_eq_true_eq] at this
        exact this ⟨hr', heq⟩
      · rw [FsState.setInode_self]
      · rw [FsState.setInode_self, hp]
        rfl
      · omega
      · rw [FsState.setInode_self]
        exact Int.zero_lt_one
    | none => exact ends_error.2 ⟨by decide, by decide, by decide⟩

/-- A free inode becomes an empty one. -/
theorem fresh {i : Inum} (hi : (s.disk.inode i).type = .free) {type : FileType}
    (ht : type ≠ .free) : Sound (s.setDinode i (.fresh type)) := by
  have hrefs : refs (Function.update s.disk.inode i (.fresh type)) s.disk.data =
      refs s.disk.inode s.disk.data := by
    funext ⟨j, x⟩
    by_cases hj : j = i
    · subst hj
      simp only [refs, hi, if_true, Function.update_self]
      rw [if_neg (show (Dinode.fresh type).type ≠ .free from ht)]
      cases x <;> rfl
    · simp only [refs, Function.update_of_ne hj]
  constructor
  case owned =>
    refine ⟨?_, h.owned.metaUsed⟩
    rw [FsState.setDinode_inode, FsState.setDinode_data, hrefs]
    exact h.owned.exact
  case noHoles =>
    intro j hj bn hbn
    rw [FsState.setDinode_inode] at hj hbn ⊢
    rw [FsState.setDinode_data, hrefs]
    by_cases hji : j = i
    · subst hji
      rw [Function.update_self] at hbn
      exact absurd hbn (Nat.not_lt_zero _)
    · rw [Function.update_of_ne hji] at hj hbn
      exact h.noHoles j hj bn hbn
  case distinct => exact h.distinct
  case loaded =>
    intro e hr hv
    obtain ⟨hcopy, htype⟩ := h.loaded e hr hv
    refine ⟨?_, htype⟩
    rw [FsState.setDinode_inode, FsState.setDinode_cache, Function.update_of_ne, hcopy]
    rintro rfl
    exact htype (hcopy ▸ hi)

theorem ialloc_ends {type : FileType} (ht : type ≠ .free) :
    Ends (fun e t => Sound t ∧ ∃ i, (s.disk.inode i).type = .free ∧
      Referred i e (s.setDinode i (.fresh type)) t) Legal (ialloc type s) := by
  simp only [ialloc, run_get_bind]
  cases hfind : (List.finRange NINODES).find? fun i =>
      decide (i.val ≥ 1 ∧ (s.disk.inode i).type = .free) with
  | some i =>
    have hp := List.find?_some hfind
    rw [decide_eq_true_eq] at hp
    exact ((h.fresh hp.2 ht).iget_ends i).post fun e t hr => ⟨hr.1, i, hp.2, hr.2⟩
  | none => exact ends_error.2 ⟨by decide, by decide, by decide⟩

/-- Only the last reference frees the inode, so no other entry has it. -/
theorem freed (hr : (s.cache e).ref > 0) (hv : (s.cache e).valid = true) (hf : Freed e s t) :
    Sound t := by
  obtain ⟨d, hd⟩ := hf.entry
  have hself : t.cache e = { s.cache e with copy := d, valid := false } := by
    rw [hd, Function.update_self]
  have hother : ∀ e', e' ≠ e → t.cache e' = s.cache e' := fun e' he' => by
    rw [hd, Function.update_of_ne he']
  have hsame : ∀ e', (t.cache e').inum = (s.cache e').inum ∧ (t.cache e').ref = (s.cache e').ref := by
    intro e'
    by_cases he : e' = e
    · rw [he, hself]
      exact ⟨rfl, rfl⟩
    · rw [hother e' he]
      exact ⟨rfl, rfl⟩
  constructor
  case owned => exact hf.owned
  case noHoles =>
    intro i hi bn hbn
    have hinum : i ≠ (s.cache e).inum := by
      rintro rfl
      exact hi hf.free
    rw [hf.inode i hinum] at hi hbn
    obtain ⟨x, b, hx, hb⟩ := h.noHoles i hi bn hbn
    refine ⟨x, b, hx, ?_⟩
    rw [hf.others _ hinum, FsState.refs, h.table_eq hr hv]
    exact hb
  case distinct =>
    intro e₁ e₂ h₁ h₂ heq
    rw [(hsame e₁).2] at h₁
    rw [(hsame e₂).2] at h₂
    rw [(hsame e₁).1, (hsame e₂).1] at heq
    exact h.distinct e₁ e₂ h₁ h₂ heq
  case loaded =>
    intro e' hr' hv'
    by_cases he : e' = e
    · subst he
      rw [hself] at hv'
      cases hv'
    · rw [hother e' he] at hr' hv' ⊢
      rw [hf.inode _ fun heq => he (h.distinct e' e hr' hr heq)]
      exact h.loaded e' hr' hv'

theorem iput_ends (hr : (s.cache e).ref > 0) : Ends (fun _ => Sound) Legal (iput e s) := by
  simp only [iput, run_get_bind]
  split_ifs with hv hone
  · refine (freeInode_ends (h.working hr hv.1)).bind ?_
    rintro - t ht
    obtain ⟨d, hd⟩ := ht.entry
    refine ends_ok.2 ((h.freed hr hv.1 ht).setRef ?_)
    rw [hd, Function.update_self]
    exact hr
  · exact ends_ok.2 (h.setRef hr)
  · exact ends_ok.2 (h.setRef hr)

end Sound

/-! ### Runs -/

/-- The operations on inodes. `update` is what `create`, `sys_link` and `sys_unlink` do with
the fields that say nothing about blocks. -/
inductive Act where
  | ialloc (type : FileType)
  | iget (inum : Inum)
  | idup (e : Entry)
  | update (e : Entry) (major minor nlink : ℤ)
  | readi (e : Entry) (off n : UInt32) (input : List UInt8)
  | writei (e : Entry) (src : ℕ → UInt8) (off n : UInt32)
  | iput (e : Entry)

/-- The entry that an operation locks for its whole time. -/
def Act.locks : Act → Option Entry
  | .update e _ _ _ | .readi e _ _ _ | .writei e _ _ _ => some e
  | .ialloc _ | .iget _ | .idup _ | .iput _ => none

/-- The caller has a reference to the entry. -/
def held (e : Entry) (x : Run Unit) : Run Unit := do
  if ((← get).cache e).ref > 0 then x else throw .disabled

def perform : Act → Run Unit
  | .ialloc type => do
    if type = .free then throw .disabled
    else
      let _ ← Fs.ialloc type
      pure ()
  | .iget inum => do
    let _ ← Fs.iget inum
    pure ()
  | .idup e => held e (Fs.idup e)
  | .update e major minor nlink => held e do
    ilock e
    setCopy e fun d => { d with major := major, minor := minor, nlink := nlink }
    iupdate e
  | .readi e off n input => held e do
    ilock e
    let _ ← Fs.readi e off n input
    pure ()
  | .writei e src off n => held e do
    ilock e
    let _ ← Fs.writei e src off n
    pure ()
  | .iput e => held e (Fs.iput e)

def step (s : FsState) (a : Act) : Except Stop FsState :=
  match perform a s with
  | .ok _ t => .ok t
  | .error r _ => .error r

/-- The disk is in order and has no holes, and nothing is cached. -/
structure WellFormed (s : FsState) : Prop where
  owned : Owned s.disk.inode s.disk.used s.disk.data
  noHoles : NoHoles s.disk
  empty : ∀ e, (s.cache e).ref = 0

theorem WellFormed.sound (h : WellFormed s) : Sound s := by
  refine ⟨h.owned, h.noHoles, fun e _ hr => ?_, fun e hr => ?_⟩
  · rw [h.empty e] at hr
    exact absurd hr (by decide)
  · rw [h.empty e] at hr
    exact absurd hr (by decide)

theorem held_ends {x : Run Unit} {Q : Unit → FsState → Prop}
    (hx : (s.cache e).ref > 0 → Ends Q Legal (x s)) : Ends Q Legal (held e x s) := by
  simp only [held, run_get_bind]
  split_ifs with hr
  · exact hx hr
  · exact ends_error.2 ⟨by decide, by decide, by decide⟩

namespace Sound

/-- The operations under `ip->lock`. -/
theorem work_ends (h : Sound s) {a : Act} (ha : a.locks = some e) :
    Ends (fun _ t => Sound t ∧ Touched e s t) Legal (perform a s) := by
  cases a with
  | ialloc _ => cases ha
  | iget _ => cases ha
  | idup _ => cases ha
  | update e major minor nlink =>
    cases ha
    refine held_ends fun hr => (h.ilock_ends hr).bind ?_
    rintro - t ⟨ht, htouch⟩
    have hr' : (t.cache e).ref > 0 := htouch.ref ▸ hr
    simp only [setCopy, iupdate, run_modify_bind, run_modify, ends_ok, FsState.setCopy_self]
    have hw := (ht.working hr' htouch.valid).worked (d := { (t.cache e).copy with
      major := major, minor := minor, nlink := nlink }) rfl rfl (ht.filled hr' htouch.valid)
    exact ⟨ht.worked hr' htouch.valid hw, htouch.worked hw⟩
  | readi e off n input =>
    cases ha
    refine held_ends fun hr => (h.ilock_ends hr).bind ?_
    rintro - t ⟨ht, htouch⟩
    have hr' : (t.cache e).ref > 0 := htouch.ref ▸ hr
    refine (readi_ends (ht.working hr' htouch.valid) (ht.filled hr' htouch.valid) off n
      input).bind ?_
    rintro _ u rfl
    exact ends_ok.2 ⟨ht, htouch⟩
  | writei e src off n =>
    cases ha
    refine held_ends fun hr => (h.ilock_ends hr).bind ?_
    rintro - t ⟨ht, htouch⟩
    have hr' : (t.cache e).ref > 0 := htouch.ref ▸ hr
    refine (writei_ends (ht.working hr' htouch.valid) (ht.loaded e hr' htouch.valid).1.symm
      (ht.filled hr' htouch.valid) src off n).bind ?_
    exact fun _ u hu => ends_ok.2 ⟨ht.worked hr' htouch.valid hu, htouch.worked hu⟩
  | iput _ => cases ha

theorem perform_ends (h : Sound s) (a : Act) : Ends (fun _ => Sound) Legal (perform a s) := by
  cases a with
  | ialloc type =>
    rw [perform]
    split_ifs with ht
    · exact ends_error.2 ⟨by decide, by decide, by decide⟩
    · exact (h.ialloc_ends ht).bind fun _ _ ht => ends_ok.2 ht.1
  | iget inum => exact (h.iget_ends inum).bind fun _ _ ht => ends_ok.2 ht.1
  | idup e => exact held_ends fun hr => ends_ok.2 (h.setRef hr)
  | update e major minor nlink => exact (h.work_ends rfl).post fun _ _ ht => ht.1
  | readi e off n input => exact (h.work_ends rfl).post fun _ _ ht => ht.1
  | writei e src off n => exact (h.work_ends rfl).post fun _ _ ht => ht.1
  | iput e => exact held_ends fun hr => h.iput_ends hr

theorem of_step (h : Sound s) {a : Act} (ht : step s a = .ok t) : Sound t := by
  unfold step at ht
  split at ht
  next _ u hu =>
    cases ht
    exact (h.perform_ends a).1 _ _ hu
  next => cases ht

theorem of_reach (hs : Reach step always WellFormed s) : Sound s :=
  hs.invariant (fun _ h => h.sound) fun _ _ _ h _ ht => h.of_step ht

end Sound

/-- In every run from a file system without holes, between any two operations: the blocks
that the allocated inodes hold are data blocks, marked used, and each held once; a data
block that is marked used is held by an allocated inode; and there are no holes. No
operation frees a block that is free or leaves the data area. -/
theorem blocks_owned (hs : Reach step always WellFormed s) :
    Owned s.disk.inode s.disk.used s.disk.data ∧ NoHoles s.disk ∧
    ∀ a r, step s a = .error r → Legal r := by
  have h := Sound.of_reach hs
  refine ⟨h.owned, h.noHoles, fun a r hr => ?_⟩
  unfold step at hr
  split at hr
  next => cases hr
  next _ t ht =>
    cases hr
    exact (h.perform_ends a).2 _ _ ht

/-- A disk on which no inode is allocated. -/
def emptyFs : FsState where
  disk := ⟨fun _ => .fresh .free, fun b => b < nmeta, fun _ _ => 0⟩
  cache _ := ⟨0, 0, false, .fresh .free⟩

theorem emptyFs_wellFormed : WellFormed emptyFs := by
  have hrefs : ∀ x, refs emptyFs.disk.inode emptyFs.disk.data x = none := fun x => rfl
  refine ⟨⟨⟨fun x b hx => ?_, fun x b hx => ?_, fun x y b hx => ?_, fun b hb hu => ?_⟩,
    fun b hb => ?_⟩, fun i hi => absurd rfl hi, fun e => rfl⟩
  · cases (hrefs x).symm.trans hx
  · cases (hrefs x).symm.trans hx
  · cases (hrefs x).symm.trans hx
  · exact absurd hb.1 (Nat.not_le.2 (of_decide_eq_true hu))
  · exact decide_eq_true hb

/-- A file of 600 bytes. -/
theorem blocks_owned_two_blocks : ∃ s, Reach step always WellFormed s ∧
    (s.disk.inode 1).addrs 0 = 59 ∧ (s.disk.inode 1).addrs 1 = 60 ∧
    Owned s.disk.inode s.disk.used s.disk.data ∧ NoHoles s.disk := by
  have hinit : Reach step always WellFormed emptyFs := .start emptyFs_wellFormed
  obtain ⟨s, hs, ht⟩ := hinit.of_endsIn
    (fun s => decide ((s.disk.inode 1).addrs 0 = 59 ∧ (s.disk.inode 1).addrs 1 = 60))
    [.ialloc .file, .update 0 0 0 1, .writei 0 (fun _ => 7) 0 600, .iput 0] (by decide +kernel)
  have h := blocks_owned hs
  exact ⟨s, hs, (of_decide_eq_true ht).1, (of_decide_eq_true ht).2, h.1, h.2.1⟩

end Xv6Container.Fs
