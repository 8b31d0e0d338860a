import Mathlib.Data.Fintype.Sum
import Mathlib.Data.Finset.Card
import Xv6Container.Fs.Owned
import Xv6Container.Ops.Reads

/-! Who owns the blocks, and what `bmap` does to them. The places of the inodes hold the blocks that
are marked in the bitmap, each of them once; while an operation works on an inode the table of inodes
is read with the copy in the cache. `bmap` fills empty places with blocks that were free, and stops
only when there are fewer free blocks than empty places. -/

namespace Xv6Container.Ops

open Lib
open Fs (BSIZE NDIRECT NINDIRECT MAXFILE AddrIdx Dinode Block Entry Place getUint putUint direct
  indirect stored stored_eq_some stored_of_ne blockPlace getUint_putUint getUint_putUint_of_ne)

variable {sb : Superblock} {b len : ℕ} {e : Entry} {s t u : State} {x : Place}

/-- The blocks that the allocated inodes hold. -/
def refs (table : ℕ → Dinode) (data : ℕ → Block) (x : ℕ × Place) : Option ℕ :=
  if (table x.1).type = .free then none else (table x.1).ref data x.2

/-- A block of an allocated inode is a data block, marked used and held in one place; a data block
that is marked used is held by an allocated inode. -/
structure Owned (sb : Superblock) (table : ℕ → Dinode) (used : ℕ → Bool) (data : ℕ → Block) :
    Prop where
  exact : Exact sb.DataBlock used (refs table data)
  metaUsed : ∀ b < sb.datastart, used b = true

namespace State

/-- The inodes, with the copy of entry `e` in the place of its inode. -/
def table (s : State) (e : Entry) : ℕ → Dinode :=
  Function.update s.disk.inode (s.cache e).inum (s.cache e).copy

def refs (s : State) (e : Entry) : ℕ × Place → Option ℕ := Ops.refs (s.table e) s.disk.data

/-- The block of part `bn` of the file of entry `e`. -/
def fileBlock (s : State) (e : Entry) (bn : ℕ) : Option ℕ :=
  (blockPlace bn).bind fun x => s.refs e ((s.cache e).inum, x)

/-- The blocks that `balloc` may take. -/
def unused (sb : Superblock) (s : State) : Finset ℕ :=
  {b ∈ Finset.range sb.size | s.disk.used b = false}

end State

instance : Fintype Place :=
  Fintype.ofEquiv (AddrIdx ⊕ Fin NINDIRECT)
    { toFun := Sum.elim Place.addr Place.entry
      invFun
        | .addr k => .inl k
        | .entry j => .inr j
      left_inv := by rintro (k | j) <;> rfl
      right_inv := by rintro (k | j) <;> rfl }

/-- The first byte of a file that needs the place. -/
def start : Place → ℕ
  | .addr k => k * BSIZE
  | .entry j => (NDIRECT + j) * BSIZE

/-- The places that a file of `len` bytes needs and that are empty. -/
def State.missing (s : State) (e : Entry) (len : ℕ) : Finset Place :=
  {x | start x < len ∧ s.refs e ((s.cache e).inum, x) = none}

/-- There are blocks enough for the file of `e` to grow to `len` bytes. -/
def Room (sb : Superblock) (e : Entry) (len : ℕ) (s : State) : Prop :=
  (s.missing e len).card ≤ (s.unused sb).card

instance (e : Entry) (s : State) : Decidable (Room sb e len s) :=
  inferInstanceAs (Decidable ((s.missing e len).card ≤ (s.unused sb).card))

/-- Entry `e` has the inode that counts. -/
structure Working (sb : Superblock) (e : Entry) (s : State) : Prop where
  owned : Owned sb (s.table e) s.disk.used s.disk.data
  alloc : (s.cache e).copy.type ≠ .free

/-- What `bmap` may have changed: there are new blocks, and places for them. -/
structure Extends (e : Entry) (s t : State) : Prop where
  inode : t.disk.inode = s.disk.inode
  file : t.file = s.file
  proc : t.proc = s.proc
  cache : ∃ addrs, t.cache = Function.update s.cache e
    { s.cache e with copy := { (s.cache e).copy with addrs := addrs } }
  grows : ∀ y b, s.refs e y = some b → t.refs e y = some b
  others : ∀ y, y.1 ≠ (s.cache e).inum → t.refs e y = s.refs e y
  data : ∀ y b, s.refs e y = some b → y ≠ ((s.cache e).inum, .addr indirect) →
    t.disk.data b = s.disk.data b

variable {table : ℕ → Dinode} {used : ℕ → Bool} {data : ℕ → Block} {i : ℕ}

theorem refs_of_ne_free (h : (table i).type ≠ .free) (x : Place) :
    refs table data (i, x) = (table i).ref data x := if_neg h

theorem Superblock.DataBlock.ne_zero (h : sb.DataBlock b) : b ≠ 0 := by
  have := sb.datastart_pos
  have := h.1
  omega

theorem Superblock.DataBlock.lt_pow (h : sb.DataBlock b) : b < 2 ^ 32 := by
  have := sb.one_bitmap
  have := h.2
  simp only [Fs.BPB, BSIZE] at *
  omega

theorem State.table_self : s.table e (s.cache e).inum = (s.cache e).copy :=
  Function.update_self _ _ _

theorem Working.refs_self (h : Working sb e s) (x : Place) :
    s.refs e ((s.cache e).inum, x) = (s.cache e).copy.ref s.disk.data x := by
  have hfree : (s.table e (s.cache e).inum).type ≠ .free := by
    rw [State.table_self]
    exact h.alloc
  rw [State.refs, refs_of_ne_free hfree, State.table_self]

theorem Working.dataBlock (h : Working sb e s) {y : ℕ × Place} (hy : s.refs e y = some b) :
    sb.DataBlock b :=
  h.owned.exact.domain y b hy

namespace Extends

theorem refl (e : Entry) (s : State) : Extends e s s :=
  ⟨rfl, rfl, rfl, ⟨(s.cache e).copy.addrs, (Function.update_eq_self e s.cache).symm⟩,
    fun _ _ => id, fun _ _ => rfl, fun _ _ _ _ => rfl⟩

theorem inum (h : Extends e s t) : (t.cache e).inum = (s.cache e).inum := by
  obtain ⟨a, ha⟩ := h.cache
  rw [ha, Function.update_self]

theorem trans (h : Extends e s t) (h' : Extends e t u) : Extends e s u := by
  obtain ⟨a, ha⟩ := h.cache
  obtain ⟨a', ha'⟩ := h'.cache
  have hinum := h.inum
  constructor
  case inode => exact h'.inode.trans h.inode
  case file => exact h'.file.trans h.file
  case proc => exact h'.proc.trans h.proc
  case cache =>
    refine ⟨a', ?_⟩
    rw [ha', ha, Function.update_self, Function.update_idem]
  case grows => exact fun y b hy => h'.grows y b (h.grows y b hy)
  case others =>
    intro y hy
    rw [h'.others y (by rwa [hinum]), h.others y hy]
  case data =>
    intro y b hy hne
    rw [h'.data y b (h.grows y b hy) (by rwa [hinum]), h.data y b hy hne]

theorem fileBlock (h : Extends e s t) {bn : ℕ} (hb : s.fileBlock e bn = some b) :
    t.fileBlock e bn = some b := by
  obtain ⟨x, hx, hb⟩ := Option.bind_eq_some_iff.1 hb
  rw [State.fileBlock, hx, h.inum]
  exact h.grows _ _ hb

end Extends

/-! ### A free block is taken -/

/-- A change to a block that is no indirect block moves no reference. -/
theorem refs_data (a : Block)
    (h : ∀ i, (table i).type ≠ .free → (table i).addrs indirect ≠ 0 →
      (table i).addrs indirect ≠ b) :
    refs table (Function.update data b a) = refs table data := by
  funext ⟨i, x⟩
  simp only [refs]
  split_ifs with hf
  · rfl
  · cases x with
    | addr k => rfl
    | entry j =>
      simp only [Dinode.ref]
      split_ifs with h0
      · rfl
      · rw [Function.update_of_ne (h i hf h0)]

/-- The other inodes do not see a change to the slots of one. -/
theorem refs_update (h : (table i).type ≠ .free) (d : Dinode) (hd : d.type ≠ .free)
    {r : Option ℕ} (hx : d.ref data = Function.update ((table i).ref data) x r) :
    refs (Function.update table i d) data = Function.update (refs table data) (i, x) r := by
  funext ⟨j, y⟩
  by_cases hj : j = i
  · subst hj
    simp only [refs, Function.update_self, if_neg hd, hx, Function.update_apply, Prod.mk.injEq,
      true_and, if_neg h]
  · rw [Function.update_of_ne (by simp [hj])]
    simp only [refs, Function.update_of_ne hj]

namespace Owned

/-- A block that is not marked is no indirect block. -/
theorem indirect_ne (h : Owned sb table used data) (hb : used b = false) (i : ℕ)
    (hi : (table i).type ≠ .free) (h0 : (table i).addrs indirect ≠ 0) :
    (table i).addrs indirect ≠ b := by
  intro heq
  apply h.exact.ne_of_unused hb (i := (i, .addr indirect))
  rw [refs_of_ne_free hi, Dinode.ref, heq, stored_of_ne (heq ▸ h0)]

/-- No two inodes have the same indirect block. -/
theorem indirect_inj (h : Owned sb table used data) {i j : ℕ} (hi : (table i).type ≠ .free)
    (hj : (table j).type ≠ .free) (h0 : (table i).addrs indirect ≠ 0)
    (heq : (table j).addrs indirect = (table i).addrs indirect) : j = i := by
  have hplace : ∀ k, (table k).type ≠ .free → (table k).addrs indirect = (table i).addrs indirect →
      refs table data (k, .addr indirect) = some ((table i).addrs indirect) := by
    intro k hk heq
    rw [refs_of_ne_free hk, Dinode.ref, heq, stored_of_ne h0]
  have := h.exact.unique _ _ _ (hplace j hj heq) (hplace i hi rfl)
  exact congrArg Prod.fst this

/-- A new entry of an indirect block. -/
theorem refs_putEntry (h : Owned sb table used data) (hi : (table i).type ≠ .free)
    (h0 : (table i).addrs indirect ≠ 0) (hdata : sb.DataBlock b) (hfree : used b = false)
    (j : Fin NINDIRECT) :
    refs table (Function.update (Function.update data b fun _ => 0) ((table i).addrs indirect)
      (putUint (data ((table i).addrs indirect)) j b)) =
      Function.update (refs table data) (i, .entry j) (some b) := by
  funext ⟨i', x⟩
  by_cases hf : (table i').type = .free
  · have hne : i' ≠ i := by
      rintro rfl
      exact hi hf
    rw [Function.update_of_ne (by simp [hne])]
    simp only [refs, if_pos hf]
  · rw [refs_of_ne_free hf]
    cases x with
    | addr k =>
      rw [Function.update_of_ne (by simp), refs_of_ne_free hf]
      rfl
    | entry j' =>
      by_cases hii : i' = i
      · subst hii
        by_cases hjj : j' = j
        · subst hjj
          rw [Function.update_self]
          simp only [Dinode.ref, if_neg h0, Function.update_self, getUint_putUint _ _ hdata.lt_pow,
            stored_of_ne hdata.ne_zero]
        · rw [Function.update_of_ne (by simp [hjj]), refs_of_ne_free hf]
          simp only [Dinode.ref, if_neg h0, Function.update_self, getUint_putUint_of_ne _ _ hjj]
      · rw [Function.update_of_ne (by simp [hii]), refs_of_ne_free hf]
        simp only [Dinode.ref]
        split_ifs with hc
        · rfl
        · rw [Function.update_of_ne fun heq => hii (h.indirect_inj hi hf h0 heq),
            Function.update_of_ne (h.indirect_ne hfree i' hf hc)]

end Owned

/-- The state after `balloc` has returned `b`. -/
def State.take (sb : Superblock) (s : State) (b : ℕ) : State :=
  let t := s.setDisk { s.disk with used := Function.update s.disk.used b true } (sb.bblock b)
  t.setDisk { t.disk with data := Function.update t.disk.data b fun _ => 0 } b

/-- `balloc` marks a data block that was free, and clears it. -/
theorem balloc_halts (h : Owned sb table s.disk.used s.disk.data) :
    Halts (fun b t => sb.DataBlock b ∧ s.disk.used b = false ∧ t = s.take sb b)
      (fun _ => s.unused sb = ∅) (balloc sb s) := by
  simp only [balloc, run_get_bind]
  cases hb : (List.range sb.size).find? fun b => !s.disk.used b with
  | some b =>
    have hfree : s.disk.used b = false := by simpa using List.find?_some hb
    have hlt : b < sb.size := List.mem_range.1 (List.mem_of_find?_eq_some hb)
    have hdata : sb.DataBlock b := by
      refine ⟨?_, hlt⟩
      by_contra hlow
      rw [h.metaUsed b (by omega)] at hfree
      cases hfree
    simp only [logBit, run_modify_bind, bzero, logWrite, if_pos hdata, run_pure, halts_ok]
    exact ⟨hdata, hfree, rfl⟩
  | none =>
    show s.unused sb = ∅
    rw [State.unused, Finset.filter_eq_empty_iff]
    intro b hlt
    have := List.find?_eq_none.1 hb b (List.mem_range.2 (Finset.mem_range.1 hlt))
    simpa using this

theorem bread_run (hb : sb.DataBlock b) : bread sb b s = .ok (s.disk.data b) s := by
  simp only [bread, if_pos hb]
  rfl

theorem logWrite_run (hb : sb.DataBlock b) (a : Block) : logWrite sb b a s =
    .ok () (s.setDisk { s.disk with data := Function.update s.disk.data b a } b) := by
  simp only [logWrite, if_pos hb]
  rfl

/-! ### An empty place takes the block -/

/-- `t` is `s` with a free block in a place of the inode of `e`. -/
structure Takes (sb : Superblock) (e : Entry) (x : Place) (b : ℕ) (s t : State) : Prop where
  empty : s.refs e ((s.cache e).inum, x) = none
  dataBlock : sb.DataBlock b
  free : s.disk.used b = false
  used : t.disk.used = Function.update s.disk.used b true
  refs : t.refs e = Function.update (s.refs e) ((s.cache e).inum, x) (some b)
  data : ∀ c, c ≠ b → s.refs e ((s.cache e).inum, .addr indirect) ≠ some c →
    t.disk.data c = s.disk.data c
  inode : t.disk.inode = s.disk.inode
  file : t.file = s.file
  proc : t.proc = s.proc
  cache : ∃ addrs, t.cache = Function.update s.cache e
    { s.cache e with copy := { (s.cache e).copy with addrs := addrs } }

namespace Takes

variable (h : Takes sb e x b s t)
include h

theorem inum : (t.cache e).inum = (s.cache e).inum := by
  obtain ⟨a, ha⟩ := h.cache
  rw [ha, Function.update_self]

theorem working (hs : Working sb e s) : Working sb e t := by
  refine ⟨⟨?_, ?_⟩, ?_⟩
  · rw [h.used]
    change Exact _ _ (t.refs e)
    rw [h.refs]
    exact hs.owned.exact.assign h.empty h.dataBlock h.free
  · intro c hc
    have hne : c ≠ b := by
      have := h.dataBlock.1
      omega
    rw [h.used, Function.update_of_ne hne]
    exact hs.owned.metaUsed c hc
  · obtain ⟨a, ha⟩ := h.cache
    rw [ha, Function.update_self]
    exact hs.alloc

theorem extend (hs : Working sb e s) : Extends e s t := by
  have hne : ∀ y c, s.refs e y = some c → y ≠ ((s.cache e).inum, x) := by
    rintro y c hy rfl
    cases h.empty.symm.trans hy
  refine ⟨h.inode, h.file, h.proc, h.cache, ?_, ?_, ?_⟩
  · intro y c hy
    rw [h.refs, Function.update_of_ne (hne y c hy)]
    exact hy
  · intro y hy
    rw [h.refs, Function.update_of_ne]
    rintro rfl
    exact hy rfl
  · intro y c hy hind
    apply h.data
    · rintro rfl
      exact hs.owned.exact.ne_of_unused h.free hy
    · intro hc
      exact hind (hs.owned.exact.unique y _ c hy hc)

theorem missing (hx : start x < len) :
    x ∈ s.missing e len ∧ t.missing e len = (s.missing e len).erase x := by
  constructor
  · simp only [State.missing, Finset.mem_filter, Finset.mem_univ, true_and]
    exact ⟨hx, h.empty⟩
  · ext y
    simp only [State.missing, Finset.mem_erase, Finset.mem_filter, Finset.mem_univ, true_and, h.inum,
      h.refs]
    by_cases hy : y = x
    · simp [hy]
    · rw [Function.update_of_ne (by simpa using hy)]
      simp [hy]

theorem unused : b ∈ s.unused sb ∧ t.unused sb = (s.unused sb).erase b := by
  have hlt := h.dataBlock.2
  constructor
  · simp only [State.unused, Finset.mem_filter, Finset.mem_range]
    exact ⟨hlt, h.free⟩
  · ext c
    simp only [State.unused, Finset.mem_erase, Finset.mem_filter, Finset.mem_range, h.used]
    by_cases hc : c = b
    · simp [hc]
    · rw [Function.update_of_ne hc]
      simp [hc]

theorem room (hx : start x < len) (hs : Room sb e len s) : Room sb e len t := by
  obtain ⟨hmem, hmissing⟩ := h.missing hx
  obtain ⟨hmem', hunused⟩ := h.unused
  rw [Room] at hs ⊢
  rw [hmissing, hunused, Finset.card_erase_of_mem hmem, Finset.card_erase_of_mem hmem']
  exact Nat.sub_le_sub_right hs 1

end Takes

/-! ### `bmap` -/

/-- What `bmap` returns for place `x`: the block is there afterwards, and nothing has changed if it was
there before. -/
structure Placed (sb : Superblock) (e : Entry) (x : Place) (s : State) (b : ℕ) (t : State) :
    Prop where
  working : Working sb e t
  extend : Extends e s t
  here : t.refs e ((t.cache e).inum, x) = some b
  same : s.refs e ((s.cache e).inum, x) ≠ none → t = s
  room : ∀ len, start x < len → Room sb e len s → Room sb e len t

/-- There is no block left for place `x`. -/
def Full (sb : Superblock) (e : Entry) (x : Place) (s : State) : Prop :=
  ∀ len, start x < len → ¬ Room sb e len s

theorem full_of_unused (hx : s.refs e ((s.cache e).inum, x) = none) (h : s.unused sb = ∅) :
    Full sb e x s := by
  intro len hlen hroom
  rw [Room, h, Finset.card_empty, Nat.le_zero, Finset.card_eq_zero, State.missing,
    Finset.filter_eq_empty_iff] at hroom
  exact hroom (Finset.mem_univ x) ⟨hlen, hx⟩

theorem Takes.placed (h : Takes sb e x b s t) (hs : Working sb e s) : Placed sb e x s b t := by
  refine ⟨h.working hs, h.extend hs, ?_, fun hne => absurd h.empty hne, fun len => h.room⟩
  rw [h.refs, h.inum, Function.update_self]

/-- An empty slot takes a block; a new indirect block has no entries yet. -/
theorem take_takes (h : Working sb e s) {k : AddrIdx} (h0 : (s.cache e).copy.addrs k = 0)
    (hdata : sb.DataBlock b) (hfree : s.disk.used b = false) :
    Takes sb e (.addr k) b s ((s.take sb b).setInode e
      { s.cache e with copy := (s.cache e).copy.setAddr k b }) := by
  have htype : (s.table e (s.cache e).inum).type ≠ .free := by
    rw [State.table_self]
    exact h.alloc
  have htable : ((s.take sb b).setInode e
      { s.cache e with copy := (s.cache e).copy.setAddr k b }).table e =
      Function.update (s.table e) (s.cache e).inum ((s.cache e).copy.setAddr k b) := by
    rw [State.table, State.table, State.setInode_self, Function.update_idem]
    rfl
  constructor
  case empty =>
    rw [h.refs_self, Dinode.ref, h0]
    rfl
  case dataBlock => exact hdata
  case free => exact hfree
  case used => rfl
  case refs =>
    rw [State.refs, htable]
    change refs _ (Function.update s.disk.data b fun _ => 0) = _
    rw [refs_update htype ((s.cache e).copy.setAddr k b) h.alloc (x := .addr k) (r := some b),
      refs_data _ (h.owned.indirect_ne hfree)]
    · rfl
    · rw [State.table_self]
      exact Dinode.ref_setAddr _ k hdata.ne_zero h0 (Function.update_self _ _ _)
  case data => exact fun c hc _ => Function.update_of_ne hc _ _
  case inode => rfl
  case file => rfl
  case proc => rfl
  case cache => exact ⟨_, rfl⟩

theorem addrBlock_halts (h : Working sb e s) (k : AddrIdx) :
    Halts (Placed sb e (.addr k) s) (fun _ => Full sb e (.addr k) s) (addrBlock sb e k s) := by
  simp only [addrBlock, run_get_bind]
  split_ifs with h0
  · have hempty : s.refs e ((s.cache e).inum, .addr k) = none := by
      rw [h.refs_self, Dinode.ref, h0]
      rfl
    refine ((balloc_halts h.owned).mono (fun _ _ => id) fun _ => full_of_unused hempty).bind ?_
    rintro b - ⟨hdata, hfree, rfl⟩
    exact (take_takes h h0 hdata hfree).placed h
  · refine ⟨h, .refl e s, ?_, fun _ => rfl, fun _ _ => id⟩
    rw [h.refs_self, Dinode.ref, stored_of_ne h0]

/-- A free block goes into an entry of the indirect block `addr`. -/
theorem putEntry_takes (h : Working sb e s) {addr : ℕ} (haddr : (s.cache e).copy.addrs indirect = addr)
    (h0 : addr ≠ 0) {j : Fin NINDIRECT} (hj : getUint (s.disk.data addr) j = 0)
    (hdata : sb.DataBlock b) (hfree : s.disk.used b = false) :
    Takes sb e (.entry j) b s ((s.take sb b).setDisk { (s.take sb b).disk with
      data := Function.update (s.take sb b).disk.data addr (putUint (s.disk.data addr) j b) }
      addr) := by
  subst haddr
  have htype : (s.table e (s.cache e).inum).type ≠ .free := by
    rw [State.table_self]
    exact h.alloc
  constructor
  case empty =>
    rw [h.refs_self, Dinode.ref, if_neg h0, hj]
    rfl
  case dataBlock => exact hdata
  case free => exact hfree
  case used => rfl
  case refs =>
    have := h.owned.refs_putEntry htype (by rwa [State.table_self]) hdata hfree j
    rw [State.table_self] at this
    exact this
  case data =>
    intro c hc hind
    have hne : c ≠ (s.cache e).copy.addrs indirect := by
      rintro rfl
      apply hind
      rw [h.refs_self, Dinode.ref, stored_of_ne h0]
    show Function.update (Function.update s.disk.data b _) _ _ c = _
    rw [Function.update_of_ne hne, Function.update_of_ne hc]
  case inode => rfl
  case file => rfl
  case proc => rfl
  case cache => exact ⟨(s.cache e).copy.addrs, (Function.update_eq_self e s.cache).symm⟩

theorem start_of_blockPlace {bn : ℕ} (hx : blockPlace bn = some x) : start x = bn * BSIZE := by
  unfold blockPlace at hx
  split_ifs at hx with h1 h2
  · cases hx
    rfl
  · cases hx
    simp only [start]
    congr 1
    omega

theorem bmap_halts (h : Working sb e s) {bn : ℕ} (hx : blockPlace bn = some x) :
    Halts (Placed sb e x s) (fun _ => Full sb e x s) (bmap sb e bn s) := by
  unfold blockPlace at hx
  rw [bmap]
  split_ifs at hx ⊢ with h1 h2
  · cases hx
    exact addrBlock_halts h _
  · cases hx
    have hstart : start (.addr indirect) ≤ start (.entry ⟨bn - NDIRECT, h2⟩) := by
      simp only [start]
      exact Nat.mul_le_mul_right _ (Nat.le_add_right _ _)
    refine ((addrBlock_halts h indirect).mono (fun _ _ => id) fun _ hfull len hlen =>
      hfull len (hstart.trans_lt hlen)).bind ?_
    intro addr t ht
    have hhere := ht.here
    rw [ht.working.refs_self, Dinode.ref, stored_eq_some] at hhere
    obtain ⟨haddr, h0⟩ := hhere
    have hpresent : s.refs e ((s.cache e).inum, .entry ⟨bn - NDIRECT, h2⟩) ≠ none → t = s := by
      intro hne
      apply ht.same
      rw [h.refs_self, Dinode.ref] at hne
      rw [h.refs_self, Dinode.ref]
      split_ifs at hne with hzero
      · exact absurd rfl hne
      · rw [stored_of_ne hzero]
        rintro ⟨⟩
    rw [run_bind_ok (bread_run (ht.working.dataBlock ht.here))]
    have hempty : getUint (t.disk.data addr) ⟨bn - NDIRECT, h2⟩ = 0 →
        t.refs e ((t.cache e).inum, .entry ⟨bn - NDIRECT, h2⟩) = none := by
      intro hz
      rw [ht.working.refs_self, Dinode.ref, haddr, if_neg h0, hz]
      rfl
    split_ifs with hz
    · refine ((balloc_halts ht.working.owned).mono (fun _ _ => id) ?_).bind ?_
      · intro _ hnone len hlen hroom
        exact full_of_unused (hempty hz) hnone len hlen (ht.room len (hstart.trans_lt hlen) hroom)
      · rintro b - ⟨hdata, hfree, rfl⟩
        rw [run_bind_ok (logWrite_run (ht.working.dataBlock ht.here) _)]
        have hput := (putEntry_takes ht.working haddr h0 hz hdata hfree).placed ht.working
        refine ⟨hput.working, ht.extend.trans hput.extend, hput.here, ?_, ?_⟩
        · intro hne
          have hts := hpresent hne
          subst hts
          exact absurd (hempty hz) hne
        · intro len hlen hroom
          exact hput.room len hlen (ht.room len (hstart.trans_lt hlen) hroom)
    · refine ⟨ht.working, ht.extend, ?_, hpresent, fun len hlen => ht.room len (hstart.trans_lt hlen)⟩
      rw [ht.working.refs_self, Dinode.ref, haddr, if_neg h0, stored_of_ne hz]

end Xv6Container.Ops
