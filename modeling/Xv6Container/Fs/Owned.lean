import Mathlib.Data.Fin.Tuple.Basic
import Xv6Container.Fs.Blocks
import Xv6Container.Lib.Ends
import Xv6Container.Lib.Ownership

/-! Who owns the blocks of the data area. A place is a slot of an inode or of its indirect
block; `refs` says which block each place holds. Between operations the places hold the
blocks that are marked in the bitmap, each of them once. While an operation works on an
inode the table of inodes is read with the copy in the cache, which the disk has only after
`iupdate`. -/

namespace Xv6Container.Fs

open Lib

/-! ### Places -/

theorem getUint_putUint (a : Block) (j : Fin NINDIRECT) {x : ℕ} (hx : x < 2 ^ 32) :
    getUint (putUint a j x) j = x := by
  have h : ∀ k : Fin 4, putUint a j x (wordByte j k) = .ofNat (x / 256 ^ k.val) := by
    intro k
    have hdiv : (wordByte j k).val / 4 = j := by simp only [wordByte]; omega
    have hmod : (wordByte j k).val % 4 = k := by simp only [wordByte]; omega
    rw [putUint, if_pos hdiv, hmod]
  simp only [getUint, h]
  simp
  omega

theorem getUint_putUint_of_ne (a : Block) {j j' : Fin NINDIRECT} (x : ℕ) (hj : j' ≠ j) :
    getUint (putUint a j x) j' = getUint a j' := by
  have h : ∀ k : Fin 4, putUint a j x (wordByte j' k) = a (wordByte j' k) := by
    intro k
    refine if_neg fun hdiv => hj (Fin.ext ?_)
    simp only [wordByte] at hdiv
    omega
  simp only [getUint, h]

@[simp] theorem getUint_zero (j : Fin NINDIRECT) : getUint (fun _ => 0) j = 0 := rfl

/-- The places of an inode that hold a block number. -/
inductive Place where
  | addr (k : AddrIdx)
  | entry (j : Fin NINDIRECT)
  deriving DecidableEq

/-- Block number 0 stands for no block. -/
def stored (b : ℕ) : Option ℕ := if b = 0 then none else some b

theorem stored_eq_some {b c : ℕ} : stored b = some c ↔ b = c ∧ c ≠ 0 := by
  unfold stored
  split_ifs with h
  · simp only [false_iff]
    rintro ⟨rfl, h'⟩
    exact h' h
  · rw [Option.some.injEq]
    exact ⟨fun h' => ⟨h', h' ▸ h⟩, fun h' => h'.1⟩

theorem stored_of_ne {b : ℕ} (h : b ≠ 0) : stored b = some b := if_neg h

def Dinode.ref (d : Dinode) (data : ℕ → Block) : Place → Option ℕ
  | .addr k => stored (d.addrs k)
  | .entry j => if d.addrs indirect = 0 then none else stored (getUint (data (d.addrs indirect)) j)

/-- The place of block `bn` of a file. -/
def blockPlace (bn : ℕ) : Option Place :=
  if h : bn < NDIRECT then some (.addr (direct ⟨bn, h⟩))
  else if h : bn - NDIRECT < NINDIRECT then some (.entry ⟨bn - NDIRECT, h⟩)
  else none

/-- The blocks that the allocated inodes hold. -/
def refs (table : Inum → Dinode) (data : ℕ → Block) (x : Inum × Place) : Option ℕ :=
  if (table x.1).type = .free then none else (table x.1).ref data x.2

/-- Every block of an allocated inode is a data block, marked used and held in one place;
every data block that is marked used is held by an allocated inode. -/
structure Owned (table : Inum → Dinode) (used : ℕ → Bool) (data : ℕ → Block) : Prop where
  exact : Exact DataBlock used (refs table data)
  metaUsed : ∀ b < nmeta, used b = true

namespace FsState

/-- The inodes, with the copy of entry `e` in the place of its inode. -/
def table (s : FsState) (e : Entry) : Inum → Dinode :=
  Function.update s.disk.inode (s.cache e).inum (s.cache e).copy

def refs (s : FsState) (e : Entry) : Inum × Place → Option ℕ := Fs.refs (s.table e) s.disk.data

end FsState

variable {table : Inum → Dinode} {used : ℕ → Bool} {data : ℕ → Block} {i : Inum} {b : ℕ}

theorem refs_of_ne_free (h : (table i).type ≠ .free) (x : Place) :
    refs table data (i, x) = (table i).ref data x := if_neg h

theorem DataBlock.ne_zero (h : DataBlock b) : b ≠ 0 := by
  rintro rfl
  exact absurd h.1 (by decide)

theorem DataBlock.lt (h : DataBlock b) : b < BPB := h.2.trans (by decide)

/-- A change to a block that is no indirect block moves no reference. -/
theorem refs_data (a : Block)
    (h : ∀ i, (table i).type ≠ .free → (table i).addrs indirect ≠ 0 →
      (table i).addrs indirect ≠ b) :
    refs table (Function.update data b a) = refs table data := by
  funext ⟨i, x⟩
  simp only [refs]
  split_ifs with hf
  · rfl
  · cases x with
    | addr k => rfl
    | entry j =>
      simp only [Dinode.ref]
      split_ifs with h0
      · rfl
      · rw [Function.update_of_ne (h i hf h0)]

/-- The other inodes do not see a change to the slots of one. -/
theorem refs_update (h : (table i).type ≠ .free) (d : Dinode) (hd : d.type ≠ .free)
    {x : Place} {r : Option ℕ} (hx : d.ref data = Function.update ((table i).ref data) x r) :
    refs (Function.update table i d) data = Function.update (refs table data) (i, x) r := by
  funext ⟨j, y⟩
  by_cases hj : j = i
  · subst hj
    simp only [refs, Function.update_self, if_neg hd, hx, Function.update_apply, Prod.mk.injEq,
      true_and, if_neg h]
  · rw [Function.update_of_ne (by simp [hj])]
    simp only [refs, Function.update_of_ne hj]

/-! ### Work on one inode -/

/-- The stops that are left: the ownership results exclude the others. -/
def Legal (e : Stop) : Prop :=
  e ≠ .panic "freeing free block" ∧ e ≠ .panic "bmap: out of range" ∧ e ≠ .outOfBounds

/-- Entry `e` is locked and loaded, and its copy is the inode that counts. -/
structure Working (e : Entry) (s : FsState) : Prop where
  owned : Owned (s.table e) s.disk.used s.disk.data
  alloc : (s.cache e).copy.type ≠ .free

/-- What `bmap` may have changed: new blocks, and the slots for them. -/
structure Extends (e : Entry) (s t : FsState) : Prop where
  inode : t.disk.inode = s.disk.inode
  cache : ∃ addrs, t.cache = Function.update s.cache e
    { s.cache e with copy := { (s.cache e).copy with addrs := addrs } }
  grows : ∀ y b, s.refs e y = some b → t.refs e y = some b

variable {e : Entry} {s t u : FsState} {n : ℕ}

theorem FsState.table_self : s.table e (s.cache e).inum = (s.cache e).copy :=
  Function.update_self _ _ _

theorem Working.refs_self (h : Working e s) (x : Place) :
    s.refs e ((s.cache e).inum, x) = (s.cache e).copy.ref s.disk.data x := by
  have := @refs_of_ne_free (s.table e) s.disk.data (s.cache e).inum
    (by rw [FsState.table_self]; exact h.alloc) x
  rwa [FsState.table_self] at this

namespace Extends

theorem refl (e : Entry) (s : FsState) : Extends e s s :=
  ⟨rfl, ⟨(s.cache e).copy.addrs, (Function.update_eq_self e s.cache).symm⟩, fun _ _ => id⟩

theorem trans (h : Extends e s t) (h' : Extends e t u) : Extends e s u := by
  obtain ⟨a, ha⟩ := h.cache
  obtain ⟨a', ha'⟩ := h'.cache
  refine ⟨h'.inode.trans h.inode, ⟨a', ?_⟩, fun y b hy => h'.grows y b (h.grows y b hy)⟩
  rw [ha', ha, Function.update_self, Function.update_idem]

theorem inum (h : Extends e s t) : (t.cache e).inum = (s.cache e).inum := by
  obtain ⟨a, ha⟩ := h.cache
  rw [ha, Function.update_self]

theorem size (h : Extends e s t) : (t.cache e).copy.size = (s.cache e).copy.size := by
  obtain ⟨a, ha⟩ := h.cache
  rw [ha, Function.update_self]

end Extends

/-- A block that is not marked is no indirect block. -/
theorem Owned.indirect_ne (h : Owned table used data) (hb : used b = false) (i : Inum)
    (hi : (table i).type ≠ .free) (h0 : (table i).addrs indirect ≠ 0) :
    (table i).addrs indirect ≠ b := by
  intro heq
  apply h.exact.ne_of_unused hb (i := (i, .addr indirect))
  rw [refs_of_ne_free hi, Dinode.ref, heq, stored_of_ne (heq ▸ h0)]

/-- The state after `balloc` has returned `b`. -/
def FsState.take (s : FsState) (b : ℕ) : FsState := (s.setUsed b true).setData b fun _ => 0

/-- `balloc` marks a data block that was free, and clears it. -/
theorem balloc_ends (h : Owned table s.disk.used s.disk.data) :
    Ends (fun b t => DataBlock b ∧ s.disk.used b = false ∧ t = s.take b) Legal (balloc s) := by
  simp only [balloc, run_get_bind]
  cases hb : (List.range FSSIZE).find? fun b => !s.disk.used b with
  | some b =>
    have hfree : s.disk.used b = false := by simpa using List.find?_some hb
    have hlt : b < FSSIZE := List.mem_range.1 (List.mem_of_find?_eq_some hb)
    have hdata : DataBlock b := by
      refine ⟨?_, hlt⟩
      by_contra hlow
      rw [h.metaUsed b (by omega)] at hfree
      cases hfree
    simp only [run_modify_bind, bzero, logWrite, if_pos hdata, run_pure, ends_ok]
    exact ⟨hdata, hfree, rfl⟩
  | none => exact ends_error.2 ⟨by decide, by decide, by decide⟩

theorem bread_run (hb : DataBlock b) : bread b s = .ok (s.disk.data b) s := by
  simp only [bread, if_pos hb]
  rfl

theorem logWrite_run (hb : DataBlock b) (a : Block) :
    logWrite b a s = .ok () (s.setData b a) := by
  simp only [logWrite, if_pos hb]
  rfl

/-- `bfree` of a block that is marked. -/
theorem bfree_run (hb : DataBlock b) (hu : s.disk.used b = true) :
    bfree b s = .ok () (s.setUsed b false) := by
  simp only [bfree, run_get_bind]
  rw [if_neg (Nat.not_le.2 hb.lt), if_neg (by simp [hu])]
  rfl

/-! ### `bmap` -/

/-- An empty slot takes a block; a new indirect block has no entries yet. -/
theorem Dinode.ref_setAddr (d : Dinode) (k : AddrIdx) (hb : b ≠ 0) (h0 : d.addrs k = 0)
    (hzero : data b = fun _ => 0) :
    (d.setAddr k b).ref data =
      Function.update (d.ref data) (.addr k) (some b) := by
  funext y
  cases y with
  | addr k' =>
    by_cases hk : k' = k
    · simp only [hk, Dinode.ref, setAddr, Function.update_self, stored_of_ne hb]
    · rw [Function.update_of_ne (by simp [hk])]
      simp only [Dinode.ref, setAddr, Function.update_of_ne hk]
  | entry j =>
    rw [Function.update_of_ne (by simp)]
    by_cases hk : indirect = k
    · subst hk
      simp only [Dinode.ref, setAddr, Function.update_self, h0, if_neg hb, hzero, if_true]
      rfl
    · simp only [Dinode.ref, setAddr, Function.update_of_ne hk]

/-- A change to the copy of `e`, seen in the table. -/
theorem FsState.table_setCopy (d : Dinode) :
    (s.setCopy e d).table e = Function.update (s.table e) (s.cache e).inum d := by
  rw [table, table, setCopy_self, setCopy_disk, Function.update_idem]

namespace Working

theorem type_table (h : Working e s) : (s.table e (s.cache e).inum).type ≠ .free := by
  rw [FsState.table_self]
  exact h.alloc

/-- An empty place has taken a free block. -/
theorem assign (h : Working e s) {x : Inum × Place} (hx : s.refs e x = none) (hdata : DataBlock b)
    (hfree : s.disk.used b = false) (hused : t.disk.used = Function.update s.disk.used b true)
    (hrefs : t.refs e = Function.update (s.refs e) x (some b))
    (halloc : (t.cache e).copy.type ≠ .free) :
    Working e t ∧ ∀ y b', s.refs e y = some b' → t.refs e y = some b' := by
  refine ⟨⟨⟨?_, fun b' hb' => ?_⟩, halloc⟩, fun y b' hy => ?_⟩
  · rw [hused]
    change Exact _ _ (t.refs e)
    rw [hrefs]
    exact h.owned.exact.assign hx hdata hfree
  · have hne : b' ≠ b := by
      rintro rfl
      exact absurd hdata.1 (Nat.not_le.2 hb')
    rw [hused, Function.update_of_ne hne]
    exact h.owned.metaUsed b' hb'
  · have hne : y ≠ x := by
      rintro rfl
      cases hx.symm.trans hy
    rw [hrefs, Function.update_of_ne hne]
    exact hy

/-- A free block goes to an empty slot of the inode. -/
theorem refs_takeAddr (h : Working e s) {k : AddrIdx} (h0 : (s.cache e).copy.addrs k = 0)
    (hdata : DataBlock b) (hfree : s.disk.used b = false) :
    ((s.take b).setCopy e ((s.cache e).copy.setAddr k b)).refs e =
      Function.update (s.refs e) ((s.cache e).inum, .addr k) (some b) := by
  rw [FsState.refs, FsState.table_setCopy]
  change Fs.refs (Function.update (s.table e) (s.cache e).inum _)
    (Function.update s.disk.data b fun _ => 0) = _
  rw [refs_update h.type_table ((s.cache e).copy.setAddr k b) h.alloc (x := .addr k) (r := some b),
    refs_data _ (h.owned.indirect_ne hfree)]
  · rfl
  · rw [FsState.table_self]
    exact Dinode.ref_setAddr _ k hdata.ne_zero h0 (Function.update_self _ _ _)

end Working

theorem addrBlock_ends (h : Working e s) (k : AddrIdx) :
    Ends (fun b t => Working e t ∧ Extends e s t ∧ (t.cache e).copy.addrs k = b ∧ b ≠ 0 ∧
      ((s.cache e).copy.addrs k ≠ 0 → t = s)) Legal (addrBlock e k s) := by
  simp only [addrBlock, run_get_bind]
  split_ifs with h0
  · refine (balloc_ends h.owned).bind ?_
    rintro b - ⟨hdata, hfree, rfl⟩
    have hnone : s.refs e ((s.cache e).inum, .addr k) = none := by
      rw [h.refs_self, Dinode.ref, h0]
      rfl
    simp only [setAddr, setCopy, run_modify_bind, run_pure, ends_ok]
    obtain ⟨hw, hgrows⟩ := h.assign (t := (s.take b).setCopy e ((s.cache e).copy.setAddr k b))
      hnone hdata hfree rfl (h.refs_takeAddr h0 hdata hfree)
      (by rw [FsState.setCopy_self]; exact h.alloc)
    refine ⟨hw, ⟨rfl, ⟨_, rfl⟩, hgrows⟩, ?_, hdata.ne_zero, fun h' => absurd h0 h'⟩
    rw [FsState.setCopy_self]
    exact Function.update_self _ _ _
  · exact ends_ok.2 ⟨h, .refl e s, rfl, h0, fun _ => rfl⟩

/-- Block `bn` of the file that entry `e` has a copy of. -/
def FsState.fileBlock (s : FsState) (e : Entry) (bn : ℕ) : Option ℕ :=
  (blockPlace bn).bind fun x => s.refs e ((s.cache e).inum, x)

/-- No two inodes have the same indirect block. -/
theorem Owned.indirect_inj (h : Owned table used data) {i j : Inum} (hi : (table i).type ≠ .free)
    (hj : (table j).type ≠ .free) (h0 : (table i).addrs indirect ≠ 0)
    (heq : (table j).addrs indirect = (table i).addrs indirect) : j = i := by
  have hplace : ∀ k, (table k).type ≠ .free → (table k).addrs indirect = (table i).addrs indirect →
      refs table data (k, .addr indirect) = some ((table i).addrs indirect) := by
    intro k hk heq
    rw [refs_of_ne_free hk, Dinode.ref, heq, stored_of_ne h0]
  have := h.exact.unique _ _ _ (hplace j hj heq) (hplace i hi rfl)
  exact congrArg Prod.fst this

/-- A new entry of an indirect block. -/
theorem Owned.refs_putEntry (h : Owned table used data) (hi : (table i).type ≠ .free)
    (h0 : (table i).addrs indirect ≠ 0) (hdata : DataBlock b) (hfree : used b = false)
    (j : Fin NINDIRECT) :
    refs table (Function.update (Function.update data b fun _ => 0) ((table i).addrs indirect)
      (putUint (data ((table i).addrs indirect)) j b)) =
      Function.update (refs table data) (i, .entry j) (some b) := by
  funext ⟨i', x⟩
  by_cases hf : (table i').type = .free
  · have hne : i' ≠ i := by
      rintro rfl
      exact hi hf
    rw [Function.update_of_ne (by simp [hne])]
    simp only [refs, if_pos hf]
  · rw [refs_of_ne_free hf]
    cases x with
    | addr k =>
      rw [Function.update_of_ne (by simp), refs_of_ne_free hf]
      rfl
    | entry j' =>
      by_cases hii : i' = i
      · subst hii
        by_cases hjj : j' = j
        · have hb : b < 2 ^ 32 := hdata.2.trans (by decide)
          subst hjj
          rw [Function.update_self]
          simp only [Dinode.ref, if_neg h0, Function.update_self, getUint_putUint _ _ hb,
            stored_of_ne hdata.ne_zero]
        · rw [Function.update_of_ne (by simp [hjj]), refs_of_ne_free hf]
          simp only [Dinode.ref, if_neg h0, Function.update_self, getUint_putUint_of_ne _ _ hjj]
      · rw [Function.update_of_ne (by simp [hii]), refs_of_ne_free hf]
        simp only [Dinode.ref]
        split_ifs with hc
        · rfl
        · rw [Function.update_of_ne fun heq => hii (h.indirect_inj hi hf h0 heq),
            Function.update_of_ne (h.indirect_ne hfree i' hf hc)]

namespace Working

theorem refs_addr (h : Working e s) (k : AddrIdx) :
    s.refs e ((s.cache e).inum, .addr k) = some b ↔ (s.cache e).copy.addrs k = b ∧ b ≠ 0 := by
  rw [h.refs_self, Dinode.ref, stored_eq_some]

theorem refs_entry (h : Working e s) (h0 : (s.cache e).copy.addrs indirect ≠ 0)
    (j : Fin NINDIRECT) : s.refs e ((s.cache e).inum, .entry j) = some b ↔
      getUint (s.disk.data ((s.cache e).copy.addrs indirect)) j = b ∧ b ≠ 0 := by
  rw [h.refs_self, Dinode.ref, if_neg h0, stored_eq_some]

theorem refs_entry_none (h : Working e s) (h0 : (s.cache e).copy.addrs indirect = 0)
    (j : Fin NINDIRECT) : s.refs e ((s.cache e).inum, .entry j) = none := by
  rw [h.refs_self, Dinode.ref, if_pos h0]

theorem dataBlock (h : Working e s) {x : Inum × Place} (hx : s.refs e x = some b) : DataBlock b :=
  h.owned.exact.domain x b hx

end Working

/-- What `bmap` returns: the block is there afterwards, and nothing has changed if it was
there before. -/
def Mapped (e : Entry) (bn : ℕ) (s : FsState) (b : ℕ) (t : FsState) : Prop :=
  Working e t ∧ Extends e s t ∧ t.fileBlock e bn = some b ∧ (∀ b', s.fileBlock e bn = some b' → t = s)

theorem bmap_entry_ends (h : Working e s) {bn : ℕ} (hn : ¬ bn < NDIRECT)
    (hj : bn - NDIRECT < NINDIRECT) : Ends (Mapped e bn s) Legal (bmap e bn s) := by
  have hplace : blockPlace bn = some (.entry ⟨bn - NDIRECT, hj⟩) := by
    rw [blockPlace, dif_neg hn, dif_pos hj]
  simp only [bmap, dif_neg hn, dif_pos hj]
  refine (addrBlock_ends h indirect).bind ?_
  rintro addr t ⟨ht, hext, haddr, h0, hsame⟩
  have hdata : DataBlock addr := ht.dataBlock ((ht.refs_addr indirect).2 ⟨haddr, h0⟩)
  have hind : (t.cache e).copy.addrs indirect ≠ 0 := haddr ▸ h0
  rw [run_bind_ok (bread_run hdata)]
  have hpresent : ∀ b', s.fileBlock e bn = some b' → t = s := by
    intro b' hb'
    rw [FsState.fileBlock, hplace] at hb'
    apply hsame
    intro hzero
    cases (h.refs_entry_none hzero _).symm.trans hb'
  split_ifs with hz
  · refine (balloc_ends ht.owned).bind ?_
    rintro b - ⟨hb, hfree, rfl⟩
    rw [run_bind_ok (logWrite_run hdata _)]
    have hnone : t.refs e ((t.cache e).inum, .entry ⟨bn - NDIRECT, hj⟩) = none := by
      rw [ht.refs_self, Dinode.ref, if_neg hind, haddr, hz]
      rfl
    have hrefs := ht.owned.refs_putEntry ht.type_table (by rwa [FsState.table_self]) hb hfree
      ⟨bn - NDIRECT, hj⟩
    rw [FsState.table_self, haddr] at hrefs
    obtain ⟨hw, hgrows⟩ := ht.assign (t := (t.take b).setData addr
      (putUint (t.disk.data addr) ⟨bn - NDIRECT, hj⟩ b)) hnone hb hfree rfl hrefs ht.alloc
    refine ends_ok.2 ⟨hw, hext.trans ⟨rfl, (Extends.refl e t).cache, hgrows⟩, ?_, ?_⟩
    · rw [FsState.fileBlock, hplace]
      exact (congrFun hrefs _).trans (Function.update_self _ _ _)
    · intro b' hb'
      have hts := hpresent b' hb'
      subst hts
      rw [FsState.fileBlock, hplace] at hb'
      cases hnone.symm.trans hb'
  · refine ends_ok.2 ⟨ht, hext, ?_, hpresent⟩
    rw [FsState.fileBlock, hplace]
    exact (ht.refs_entry hind _).2 ⟨by rw [haddr], hz⟩

theorem bmap_ends (h : Working e s) {bn : ℕ} (hn : bn < MAXFILE) :
    Ends (Mapped e bn s) Legal (bmap e bn s) := by
  by_cases hd : bn < NDIRECT
  · have hplace : blockPlace bn = some (.addr (direct ⟨bn, hd⟩)) := dif_pos hd
    simp only [bmap, dif_pos hd]
    refine (addrBlock_ends h (direct ⟨bn, hd⟩)).post ?_
    rintro b t ⟨ht, hext, haddr, h0, hsame⟩
    refine ⟨ht, hext, ?_, fun b' hb' => hsame ?_⟩
    · rw [FsState.fileBlock, hplace]
      exact (ht.refs_addr _).2 ⟨haddr, h0⟩
    · rw [FsState.fileBlock, hplace] at hb'
      obtain ⟨h1, h2⟩ := (h.refs_addr _).1 hb'
      exact h1 ▸ h2
  · exact bmap_entry_ends h hd (by simp only [MAXFILE] at hn; omega)

/-! ### `readi` and `writei` -/

/-- The test of `readi` and `writei` for an overflow. -/
theorem add_lt_self_iff (off n : UInt32) : off + n < off ↔ 2 ^ 32 ≤ off.toNat + n.toNat := by
  have hoff := off.toNat_lt
  have hn := n.toNat_lt
  rw [UInt32.lt_iff_toNat_lt, UInt32.toNat_add]
  omega

theorem blockPlace_ne_indirect {bn : ℕ} {x : Place} (h : blockPlace bn = some x) :
    x ≠ .addr indirect := by
  unfold blockPlace at h
  split_ifs at h with hd hj
  · rw [← Option.some.inj h]
    intro heq
    have hval := congrArg Fin.val (Place.addr.inj heq)
    change bn = NDIRECT at hval
    omega
  · rw [← Option.some.inj h]
    exact nofun

theorem blockPlace_inj {m n : ℕ} {x : Place} (hm : blockPlace m = some x)
    (hn : blockPlace n = some x) : m = n := by
  unfold blockPlace at hm hn
  split_ifs at hm hn with h1 h2 h3 h4
  · have := congrArg Fin.val (Place.addr.inj (Option.some.inj (hm.trans hn.symm)))
    exact this
  · cases hm.trans hn.symm
  · cases hm.trans hn.symm
  · have := congrArg Fin.val (Place.entry.inj (Option.some.inj (hm.trans hn.symm)))
    dsimp only at this
    omega

theorem lt_of_blockPlace {bn : ℕ} {x : Place} (hx : blockPlace bn = some x) : bn < MAXFILE := by
  unfold blockPlace at hx
  simp only [MAXFILE]
  split_ifs at hx with h1 h2 <;> omega

theorem blockPlace_of_lt {bn : ℕ} (h : bn < MAXFILE) : ∃ x, blockPlace bn = some x := by
  unfold blockPlace
  split_ifs with h1 h2
  · exact ⟨_, rfl⟩
  · exact ⟨_, rfl⟩
  · simp only [MAXFILE] at h
    omega

theorem FsState.fileBlock_lt {bn : ℕ} (h : s.fileBlock e bn = some b) : bn < MAXFILE := by
  by_contra hn
  have hnone : blockPlace bn = none := by
    rw [blockPlace, dif_neg (by simp only [MAXFILE] at hn; omega),
      dif_neg (by simp only [MAXFILE] at hn; omega)]
  rw [fileBlock, hnone] at h
  cases h

/-- A block of the file is no indirect block, so what is written there moves no reference. -/
theorem Working.refs_setData (h : Working e s) {bn : ℕ} (hb : s.fileBlock e bn = some b)
    (a : Block) : (s.setData b a).refs e = s.refs e := by
  obtain ⟨x, hx, hb⟩ := Option.bind_eq_some_iff.1 hb
  refine @refs_data (s.table e) s.disk.data b a fun i hi h0 heq => ?_
  have hind : s.refs e (i, .addr indirect) = some b := by
    have := @refs_of_ne_free (s.table e) s.disk.data i hi (.addr indirect)
    rw [FsState.refs, this, Dinode.ref, heq, stored_of_ne (heq ▸ h0)]
  have := h.owned.exact.unique _ _ b hind hb
  exact blockPlace_ne_indirect hx (congrArg Prod.snd this).symm

theorem Working.setData (h : Working e s) {bn : ℕ} (hb : s.fileBlock e bn = some b) (a : Block) :
    Working e (s.setData b a) := by
  refine ⟨⟨?_, h.owned.metaUsed⟩, h.alloc⟩
  change Exact DataBlock s.disk.used ((s.setData b a).refs e)
  rw [h.refs_setData hb]
  exact h.owned.exact

/-- The file of entry `e` has all its blocks below `n`. -/
def Filled (e : Entry) (s : FsState) (n : ℕ) : Prop :=
  ∀ bn, bn * BSIZE < n → ∃ b, s.fileBlock e bn = some b

theorem Extends.fileBlock (h : Extends e s t) {bn : ℕ} (hb : s.fileBlock e bn = some b) :
    t.fileBlock e bn = some b := by
  obtain ⟨x, hx, hb⟩ := Option.bind_eq_some_iff.1 hb
  rw [FsState.fileBlock, hx, h.inum]
  exact h.grows _ _ hb

theorem Extends.filled (h : Extends e s t) (hf : Filled e s n) : Filled e t n := by
  intro bn hbn
  obtain ⟨b, hb⟩ := hf bn hbn
  exact ⟨b, h.fileBlock hb⟩

theorem readLoop_ends (h : Working e s) (n fuel tot off : ℕ) (dst : List UInt8)
    (hfuel : n - tot ≤ fuel) (hf : Filled e s (off + (n - tot))) :
    Ends (fun _ t => t = s) Legal (readLoop e n fuel tot off dst s) := by
  induction fuel generalizing tot off dst with
  | zero => exact ends_ok.2 rfl
  | succ fuel ih =>
    rw [readLoop]
    split_ifs with htot
    · obtain ⟨b, hb⟩ := hf (off / BSIZE) (by simp only [BSIZE]; omega)
      refine (bmap_ends h (FsState.fileBlock_lt hb)).bind ?_
      rintro b' t ⟨-, -, hb', hsame⟩
      have hts := hsame b hb
      subst hts
      obtain ⟨x, -, hx⟩ := Option.bind_eq_some_iff.1 hb'
      rw [run_bind_ok (bread_run (h.dataBlock hx))]
      have hmod : off % BSIZE < BSIZE := Nat.mod_lt _ (by decide)
      refine ih _ _ _ (by omega) fun bn hbn => hf bn (by omega)
    · exact ends_ok.2 rfl

theorem readi_ends (h : Working e s) (hf : Filled e s (s.cache e).copy.size) (off n : UInt32)
    (input : List UInt8) : Ends (fun _ t => t = s) Legal (readi e off n input s) := by
  simp only [readi, run_get_bind]
  by_cases hdev : (s.cache e).copy.type = .dev
  · rw [if_pos hdev]
    exact ends_ok.2 rfl
  · rw [if_neg hdev]
    by_cases hoff : off.toNat > (s.cache e).copy.size ∨ off + n < off
    · rw [if_pos hoff]
      exact ends_ok.2 rfl
    · rw [if_neg hoff]
      refine (readLoop_ends h _ _ _ _ _ (Nat.sub_le _ _) fun bn hbn => hf bn ?_).bind ?_
      · split_ifs at hbn with hn
        · omega
        · omega
      · rintro _ t rfl
        exact ends_ok.2 rfl

/-- A pass of the loop in `writei` fills the file up to its end. -/
theorem Filled.next {off m : ℕ} (hf : Filled e s (max n off)) (hm : m ≤ BSIZE - off % BSIZE)
    (hb : s.fileBlock e (off / BSIZE) = some b) : Filled e s (max n (off + m)) := by
  intro bn hbn
  by_cases hlt : bn * BSIZE < max n off
  · exact hf bn hlt
  · have heq : bn = off / BSIZE := by simp only [BSIZE] at *; omega
    exact ⟨b, heq ▸ hb⟩

theorem writeLoop_ends (src : ℕ → UInt8) (n fuel tot off : ℕ) (h : Working e s)
    (hfuel : n - tot ≤ fuel) (hmax : off + (n - tot) ≤ MAXFILE * BSIZE)
    (hf : Filled e s (max (s.cache e).copy.size off)) :
    Ends (fun off' t => off' = off + (n - tot) ∧ Working e t ∧ Extends e s t ∧
      Filled e t (max (s.cache e).copy.size off') ∧
      (off' ≤ (s.cache e).copy.size → t.cache = s.cache)) Legal
      (writeLoop e src n fuel tot off s) := by
  induction fuel generalizing tot off s with
  | zero =>
    refine ends_ok.2 ⟨by omega, h, .refl e s, hf, fun _ => rfl⟩
  | succ fuel ih =>
    rw [writeLoop]
    split_ifs with htot
    · have hmod : off % BSIZE < BSIZE := Nat.mod_lt _ (by decide)
      have hbn : off / BSIZE < MAXFILE := by simp only [MAXFILE, BSIZE] at hmax ⊢; omega
      refine (bmap_ends h hbn).bind ?_
      rintro b t ⟨ht, hext, hb, hsame⟩
      obtain ⟨x, -, hx⟩ := Option.bind_eq_some_iff.1 hb
      have hdata := ht.dataBlock hx
      rw [run_bind_ok (bread_run hdata), run_bind_ok (logWrite_run hdata _)]
      have hm : min (n - tot) (BSIZE - off % BSIZE) ≤ BSIZE - off % BSIZE := Nat.min_le_right _ _
      generalize copyIn (t.disk.data b) (off % BSIZE) (min (n - tot) (BSIZE - off % BSIZE))
        (fun i => src (tot + i)) = a
      have hext' : Extends e s (t.setData b a) := by
        refine hext.trans ⟨rfl, (Extends.refl e t).cache, fun y b' hy => ?_⟩
        rw [ht.refs_setData hb]
        exact hy
      have hsize := hext'.size
      have hnext : Filled e (t.setData b a) (max (s.cache e).copy.size
          (off + min (n - tot) (BSIZE - off % BSIZE))) := by
        refine (hext'.filled hf).next (b := b) hm ?_
        rw [FsState.fileBlock, ht.refs_setData hb]
        exact hb
      refine (ih _ _ (ht.setData hb a) (by omega) (by omega) (by rwa [hsize])).post ?_
      rw [hsize]
      rintro off' u ⟨hoff, hu, hextu, hfu, hcache⟩
      refine ⟨by omega, hu, hext'.trans hextu, hfu, fun hle => ?_⟩
      obtain ⟨b', hb'⟩ := hf (off / BSIZE) (by simp only [BSIZE]; omega)
      rw [hcache hle, FsState.setData_cache, hsame b' hb']
    · exact ends_ok.2 ⟨by omega, h, .refl e s, hf, fun _ => rfl⟩

/-- What a whole operation on the inode of `e` leaves behind: the disk has the copy of `e`,
the file has no holes, and nothing else has lost a block. -/
structure Worked (e : Entry) (s t : FsState) : Prop where
  work : Working e t
  synced : t.disk.inode (t.cache e).inum = (t.cache e).copy
  entry : ∃ d, t.cache = Function.update s.cache e { s.cache e with copy := d }
  others : ∀ j, j ≠ (s.cache e).inum → t.disk.inode j = s.disk.inode j
  grows : ∀ y b, s.refs e y = some b → t.refs e y = some b
  filled : Filled e t (t.cache e).copy.size

/-- Fields other than the type and the slots do not matter for the references. -/
theorem refs_setCopy {d : Dinode} (htype : d.type = (s.cache e).copy.type)
    (haddrs : d.addrs = (s.cache e).copy.addrs) : (s.setCopy e d).refs e = s.refs e := by
  rw [FsState.refs, FsState.table_setCopy]
  funext ⟨j, x⟩
  by_cases hj : j = (s.cache e).inum
  · subst hj
    cases x <;>
      simp only [FsState.refs, refs, Function.update_self, FsState.table_self, htype, Dinode.ref,
        haddrs, FsState.setCopy_disk]
  · simp only [FsState.refs, refs, Function.update_of_ne hj, FsState.setCopy_disk]

theorem FsState.table_iupdate :
    (s.setDinode (s.cache e).inum (s.cache e).copy).table e = s.table e :=
  Function.update_idem _ _ _

/-- A change to the other fields, written to the disk. -/
theorem Working.update (h : Working e s) {d : Dinode} (htype : d.type = (s.cache e).copy.type)
    (haddrs : d.addrs = (s.cache e).copy.addrs) :
    Working e ((s.setCopy e d).setDinode (s.cache e).inum d) ∧
    ((s.setCopy e d).setDinode (s.cache e).inum d).refs e = s.refs e := by
  have hself : (s.setCopy e d).cache e = { s.cache e with copy := d } := FsState.setCopy_self s d e
  have htable : ((s.setCopy e d).setDinode (s.cache e).inum d).table e = (s.setCopy e d).table e := by
    have := FsState.table_iupdate (s := s.setCopy e d) (e := e)
    rwa [hself] at this
  have hrefs : ((s.setCopy e d).setDinode (s.cache e).inum d).refs e = s.refs e := by
    rw [← refs_setCopy htype haddrs, FsState.refs, FsState.refs, htable]
    rfl
  refine ⟨⟨⟨?_, h.owned.metaUsed⟩, ?_⟩, hrefs⟩
  · change Exact DataBlock s.disk.used (FsState.refs _ e)
    rw [hrefs]
    exact h.owned.exact
  · rw [FsState.setDinode_cache, hself, htype]
    exact h.alloc

theorem Working.worked (h : Working e s) {d : Dinode} (htype : d.type = (s.cache e).copy.type)
    (haddrs : d.addrs = (s.cache e).copy.addrs) (hf : Filled e s d.size) :
    Worked e s ((s.setCopy e d).setDinode (s.cache e).inum d) := by
  obtain ⟨hw, hrefs⟩ := h.update htype haddrs
  have hself : ((s.setCopy e d).setDinode (s.cache e).inum d).cache e =
      { s.cache e with copy := d } := FsState.setCopy_self s d e
  constructor
  case work => exact hw
  case synced =>
    rw [hself]
    exact Function.update_self _ _ _
  case entry => exact ⟨d, rfl⟩
  case others => exact fun j hj => Function.update_of_ne hj _ _
  case grows =>
    intro y b hy
    rw [hrefs]
    exact hy
  case filled =>
    intro bn hbn
    rw [hself] at hbn
    obtain ⟨b, hb⟩ := hf bn hbn
    refine ⟨b, ?_⟩
    rw [FsState.fileBlock, hself, hrefs]
    exact hb

/-- New blocks first, then the rest of the operation. -/
theorem Extends.worked (h : Extends e s t) (hw : Worked e t u) : Worked e s u := by
  obtain ⟨addrs, ha⟩ := h.cache
  obtain ⟨d, hd⟩ := hw.entry
  refine ⟨hw.work, hw.synced, ⟨d, ?_⟩, fun j hj => ?_, fun y b hy => hw.grows y b (h.grows y b hy),
    hw.filled⟩
  · rw [hd, ha, Function.update_self, Function.update_idem]
  · rw [hw.others j (by rwa [h.inum]), h.inode]

theorem writei_ends (h : Working e s) (hsync : s.disk.inode (s.cache e).inum = (s.cache e).copy)
    (hf : Filled e s (s.cache e).copy.size) (src : ℕ → UInt8) (off n : UInt32) :
    Ends (fun _ => Worked e s) Legal (writei e src off n s) := by
  have hsame : Worked e s s := ⟨h, hsync, ⟨_, (Function.update_eq_self e s.cache).symm⟩,
    fun _ _ => rfl, fun _ _ => id, hf⟩
  simp only [writei, run_get_bind]
  by_cases hdev : (s.cache e).copy.type = .dev
  · rw [if_pos hdev]
    exact ends_ok.2 hsame
  rw [if_neg hdev]
  split_ifs with hoff hmax
  · exact ends_ok.2 hsame
  · exact ends_ok.2 hsame
  · refine (writeLoop_ends src n.toNat n.toNat 0 off.toNat h (Nat.sub_le _ _) (by omega)
      (by rwa [Nat.max_eq_left (by omega)])).bind ?_
    rintro off' u ⟨hoff', hu, hext, hfu, hcache⟩
    split_ifs with hgrow
    · simp only [setCopy, iupdate, run_modify_bind, run_pure, ends_ok, FsState.setCopy_self]
      refine hext.worked (hu.worked rfl rfl fun bn hbn => ?_)
      exact hfu bn (hbn.trans_le (Nat.le_max_right _ _))
    · have hle : off' ≤ (s.cache e).copy.size := by omega
      have huc := hcache hle
      refine ends_ok.2 ⟨hu, ?_, ?_, fun j _ => congrFun hext.inode j, hext.grows, ?_⟩
      · rw [hext.inode, huc, hsync]
      · exact ⟨(s.cache e).copy, by rw [huc]; exact (Function.update_eq_self e s.cache).symm⟩
      · rw [huc]
        intro bn hbn
        exact hfu bn (hbn.trans_le (Nat.le_max_left _ _))

end Xv6Container.Fs
