import Xv6Container.Ops.Content

/-! `readi` and `writei` on the flat array of bytes that a file is. -/

namespace Xv6Container.Ops

open Lib
open Fs (BSIZE NDIRECT NINDIRECT MAXFILE FileType Dinode Block Entry Place indirect stored_eq_some stored_of_ne
  blockPlace copyIn copyOut add_lt_self_iff)

variable {sb : Superblock} {b m n off : ℕ} {e : Entry} {s t u : State} {x : Place} {src : ℕ → UInt8}

/-! ### `writei` -/

/-- Entry `e` has the inode as the disk has it, and the blocks are owned. -/
structure Held (sb : Superblock) (e : Entry) (s : State) : Prop where
  owned : Owned sb s.disk.inode s.disk.used s.disk.data
  synced : s.disk.inode (s.cache e).inum = (s.cache e).copy
  alloc : (s.cache e).copy.type ≠ .free

/-- The file of `e` has `n` bytes of `src` at `off`, on the disk and in the cache, and all else is as it
was. -/
structure Rewritten (sb : Superblock) (e : Entry) (off n : ℕ) (src : ℕ → UInt8) (s t : State) :
    Prop where
  held : Held sb e t
  solid : t.disk.Solid (t.cache e).copy
  content : t.disk.content (t.cache e).copy =
    splice (s.disk.content (s.cache e).copy) off ((List.range n).map src)
  entry : ∃ d, t.cache = Function.update s.cache e { s.cache e with copy := d } ∧
    d.type = (s.cache e).copy.type ∧ d.nlink = (s.cache e).copy.nlink
  inode : ∀ j, j ≠ (s.cache e).inum → t.disk.inode j = s.disk.inode j
  others : ∀ j, j ≠ (s.cache e).inum → (s.disk.inode j).type ≠ .free →
    t.disk.content (t.disk.inode j) = s.disk.content (s.disk.inode j)
  file : t.file = s.file
  proc : t.proc = s.proc

theorem Held.table_eq (h : Held sb e s) : s.table e = s.disk.inode := by
  rw [State.table, ← h.synced, Function.update_eq_self]

theorem Held.working (h : Held sb e s) : Working sb e s := by
  refine ⟨?_, h.alloc⟩
  rw [h.table_eq]
  exact h.owned

/-- Fields other than the type and the slots do not matter for the references. -/
theorem refs_fields {table : ℕ → Dinode} {data : ℕ → Block} {i : ℕ} {d d' : Dinode}
    (htype : d'.type = d.type) (haddrs : d'.addrs = d.addrs) :
    refs (Function.update table i d') data = refs (Function.update table i d) data := by
  funext ⟨j, x⟩
  by_cases hj : j = i
  · subst hj
    cases x <;> simp only [refs, Function.update_self, htype, Dinode.ref, haddrs]
  · simp only [refs, Function.update_of_ne hj]

theorem Held.byte_other (h : Held sb e s) {j : ℕ} (hj : (s.disk.inode j).type ≠ .free) (o : ℕ) :
    s.byte e j o = byteAt ((s.disk.inode j).ref s.disk.data) s.disk.data o := by
  simp only [State.byte, State.refs, h.table_eq, refs_of_ne_free hj]

theorem Held.filled (h : Held sb e s) (hsolid : s.disk.Solid (s.cache e).copy) {o : ℕ}
    (ho : o < (s.cache e).copy.size) : s.fileBlock e (o / BSIZE) ≠ none := by
  rw [h.working.fileBlock_eq]
  exact mapped_iff.1 (hsolid.mapped ho)

/-- The inode goes to the disk. -/
theorem Wrote.rewritten {v : State} {d' : Dinode} (h : Wrote e off n src s u) (hs : Held sb e s)
    (hu : Working sb e u) (hsolid : s.disk.Solid (s.cache e).copy)
    (hoff : off ≤ (s.cache e).copy.size)
    (hd : d' = { (u.cache e).copy with size := max (s.cache e).copy.size (off + n) })
    (hinode : v.disk.inode = Function.update u.disk.inode (u.cache e).inum d')
    (hused : v.disk.used = u.disk.used) (hdata : v.disk.data = u.disk.data)
    (hcache : v.cache = Function.update u.cache e { u.cache e with copy := d' })
    (hfile : v.file = u.file) (hproc : v.proc = u.proc) : Rewritten sb e off n src s v := by
  have hcopy : (v.cache e).copy = d' := by rw [hcache, Function.update_self]
  have hinum : (v.cache e).inum = (u.cache e).inum := by rw [hcache, Function.update_self]
  have hsynced : v.disk.inode (v.cache e).inum = (v.cache e).copy := by
    rw [hinode, hinum, hcopy, Function.update_self]
  have hrefs : Ops.refs v.disk.inode v.disk.data = u.refs e := by
    rw [hinode, hdata, State.refs, State.table]
    exact refs_fields (hd ▸ rfl) (hd ▸ rfl)
  have halloc : (v.cache e).copy.type ≠ .free := by
    rw [hcopy, hd]
    exact hu.alloc
  have hheld : Held sb e v := by
    refine ⟨⟨?_, ?_⟩, hsynced, halloc⟩
    · rw [hrefs, hused]
      exact hu.owned.exact
    · rw [hused]
      exact hu.owned.metaUsed
  have hbyte : ∀ i o, v.byte e i o = u.byte e i o := by
    intro i o
    rw [State.byte, State.byte, State.refs, hheld.table_eq, hrefs, hdata]
  have hblock : ∀ bn, v.fileBlock e bn = u.fileBlock e bn := by
    intro bn
    rw [State.fileBlock, State.fileBlock, State.refs, hheld.table_eq, hrefs, hinum]
  have hself : ∀ j, j ≠ (s.cache e).inum → v.disk.inode j = s.disk.inode j := by
    intro j hj
    rw [hinode, Function.update_of_ne (by rwa [h.inum]), h.inode]
  constructor
  case held => exact hheld
  case solid =>
    intro bn hbn
    rw [hcopy, hd] at hbn
    rw [mapped_iff, ← hheld.working.fileBlock_eq, hblock]
    by_cases hlow : bn * BSIZE < (s.cache e).copy.size
    · apply h.grows
      have := hs.filled hsolid hlow
      rwa [Nat.mul_div_cancel _ (by decide)] at this
    · -- the part is in the bytes that were written
      have := h.filled (bn * BSIZE - off) (by dsimp only at hbn; omega)
      rwa [Nat.add_sub_cancel' (by omega), Nat.mul_div_cancel _ (by decide)] at this
  case content =>
    have hsize : (v.cache e).copy.size = max (s.cache e).copy.size (off + n) := by rw [hcopy, hd]
    have hle : off ≤ (s.disk.content (s.cache e).copy).length := by rwa [length_content]
    have hown : ∀ o, byteAt ((v.cache e).copy.ref v.disk.data) v.disk.data o =
        u.byte e (s.cache e).inum o := by
      intro o
      rw [← hheld.working.byte_self, hbyte, hinum, h.inum]
    apply List.ext_getElem?
    intro o
    rw [getElem?_splice hle, List.length_map, List.length_range, getElem?_content, getElem?_content,
      hsize, hown, ← hs.working.byte_self]
    by_cases hin : off ≤ o ∧ o < off + n
    · have := h.written (o - off) (by omega)
      rw [Nat.add_sub_cancel' hin.1] at this
      rw [if_pos (by omega), if_neg (by omega), if_pos hin.2, this, List.getElem?_map,
        List.getElem?_range (by omega), Option.map_some]
    · by_cases hold : o < (s.cache e).copy.size
      · rw [if_pos (by omega), if_pos hold, h.kept o (by omega) (hs.filled hsolid hold)]
        split_ifs <;> first | rfl | omega
      · rw [if_neg (by omega), if_neg hold, if_neg (by omega), if_neg (by omega)]
  case entry =>
    refine ⟨d', ?_, ?_, ?_⟩
    · obtain ⟨a, ha⟩ := h.cache
      rw [hcache, ha, Function.update_self, Function.update_idem]
    · obtain ⟨a, ha⟩ := h.cache
      rw [hd, ha, Function.update_self]
    · obtain ⟨a, ha⟩ := h.cache
      rw [hd, ha, Function.update_self]
  case inode => exact hself
  case others =>
    intro j hj hfree
    have hj' : (v.disk.inode j).type ≠ .free := by rwa [hself j hj]
    rw [Disk.content, Disk.content, hself j hj]
    refine List.map_congr_left fun o _ => ?_
    rw [← hs.byte_other hfree, ← h.elsewhere j hj, ← hbyte, hheld.byte_other hj', hself j hj]
  case file => exact hfile.trans h.file
  case proc => exact hproc.trans h.proc

theorem setCopy_run (e : Entry) (f : Dinode → Dinode) (s : State) : setCopy e f s =
    .ok () (s.setInode e { s.cache e with copy := f (s.cache e).copy }) := rfl

theorem iupdate_run (sb : Superblock) (e : Entry) (s : State) : iupdate sb e s =
    .ok () (s.setDisk { s.disk with
      inode := Function.update s.disk.inode (s.cache e).inum (s.cache e).copy }
      (sb.iblock (s.cache e).inum)) := rfl

/-- `writei` refuses what begins behind the end of the file, overflows or makes it too long. -/
def Refused (len : ℕ) (off n : UInt32) : Prop :=
  len < off.toNat ∨ 2 ^ 32 ≤ off.toNat + n.toNat ∨ MAXFILE * BSIZE < off.toNat + n.toNat

instance (len : ℕ) (off n : UInt32) : Decidable (Refused len off n) :=
  inferInstanceAs (Decidable (len < off.toNat ∨ 2 ^ 32 ≤ off.toNat + n.toNat ∨
    MAXFILE * BSIZE < off.toNat + n.toNat))

theorem writei_refused (hdev : (s.cache e).copy.type ≠ .dev) {off n : UInt32}
    (h : Refused (s.cache e).copy.size off n) (src : ℕ → UInt8) :
    writei sb e src off n s = .ok (-1) s := by
  simp only [writei, run_get_bind, add_lt_self_iff]
  rw [if_neg hdev]
  split_ifs with h1 h2
  · rfl
  · rfl
  · rcases h with h | h | h
    · exact absurd (.inl h) h1
    · exact absurd (.inr h) h1
    · exact absurd h h2

theorem writei_halts (h : Held sb e s) (hdev : (s.cache e).copy.type ≠ .dev)
    (hsolid : s.disk.Solid (s.cache e).copy) {off n : UInt32}
    (hok : ¬ Refused (s.cache e).copy.size off n) (src : ℕ → UInt8) :
    Halts (fun r t => r = (n.toNat : ℤ) ∧ Rewritten sb e off.toNat n.toNat src s t)
      (fun _ => NoRoom sb e (off.toNat + n.toNat) s) (writei sb e src off n s) := by
  simp only [Refused, not_or, Nat.not_lt, Nat.not_le] at hok
  obtain ⟨hoff, hover, hmax⟩ := hok
  simp only [writei, run_get_bind, add_lt_self_iff]
  rw [if_neg hdev, if_neg (by omega), if_neg (by omega)]
  have hfuel : n.toNat - 0 ≤ n.toNat := Nat.sub_le _ _
  refine (writeLoop_halts src h.working hfuel hmax).bind ?_
  rintro off' u ⟨hoff', hu, hwrote, -⟩
  rw [Nat.sub_zero] at hoff' hwrote
  simp only [Nat.zero_add] at hwrote
  subst hoff'
  split_ifs with hgrow
  · have hd : ({ (u.cache e).copy with size := off.toNat + n.toNat } : Dinode) =
        { (u.cache e).copy with size := max (s.cache e).copy.size (off.toNat + n.toNat) } := by
      rw [Nat.max_eq_right hgrow.2.le]
    rw [run_bind_ok (setCopy_run _ _ _), run_bind_ok (iupdate_run _ _ _), State.setInode_self]
    exact ⟨rfl, hwrote.rewritten h hu hsolid hoff hd rfl rfl rfl rfl rfl rfl⟩
  · -- no part was missing, so the inode has not changed
    have hle : off.toNat + n.toNat ≤ (s.cache e).copy.size := by omega
    have hcache : u.cache = s.cache := by
      apply hwrote.still
      intro k hk
      exact h.filled hsolid (by omega)
    have hd : (u.cache e).copy =
        { (u.cache e).copy with size := max (s.cache e).copy.size (off.toNat + n.toNat) } := by
      rw [Nat.max_eq_left hle, hcache]
    refine ⟨rfl, hwrote.rewritten h hu hsolid hoff hd ?_ rfl rfl ?_ rfl rfl⟩
    · rw [hcache, hwrote.inode, ← h.synced, Function.update_eq_self]
    · rw [Function.update_eq_self]

theorem copyIn_congr {src' : ℕ → UInt8} (h : ∀ k < m, src' k = src k) (a : Block) (o : ℕ) :
    copyIn a o m src' = copyIn a o m src := by
  funext k
  rw [copyIn, copyIn]
  split_ifs with hk
  · exact h _ (by omega)
  · rfl

/-- `writei` looks at `n` bytes only. -/
theorem writei_congr {src' : ℕ → UInt8} {n : UInt32} (h : ∀ k < n.toNat, src' k = src k)
    (off : UInt32) : writei sb e src' off n = writei sb e src off n := by
  have hloop : ∀ fuel tot o, writeLoop sb e src' n.toNat fuel tot o =
      writeLoop sb e src n.toNat fuel tot o := by
    intro fuel
    induction fuel with
    | zero => exact fun _ _ => rfl
    | succ fuel ih =>
      intro tot o
      rw [writeLoop, writeLoop]
      refine if_congr Iff.rfl (bind_congr fun b => bind_congr fun bp => ?_) rfl
      dsimp only
      rw [copyIn_congr fun k hk => h (tot + k) (by omega)]
      exact bind_congr fun _ => ih _ _
  rw [writei, writei, hloop]

/-! ### `readi` -/

theorem bmap_run (h : Working sb e s) {bn : ℕ} (hx : blockPlace bn = some x)
    (hb : s.refs e ((s.cache e).inum, x) = some b) : bmap sb e bn s = .ok b s := by
  rw [h.refs_self] at hb
  unfold blockPlace at hx
  rw [bmap]
  split_ifs at hx ⊢ with h1 h2
  · cases hx
    obtain ⟨rfl, hne⟩ := stored_eq_some.1 hb
    exact addrBlock_reads hne
  · cases hx
    rw [Dinode.ref] at hb
    split_ifs at hb with h0
    obtain ⟨rfl, hne⟩ := stored_eq_some.1 hb
    have hind : sb.DataBlock ((s.cache e).copy.addrs indirect) := by
      refine h.dataBlock (y := ((s.cache e).inum, .addr indirect)) ?_
      rw [h.refs_self, Dinode.ref, stored_of_ne h0]
    rw [run_bind_ok (addrBlock_reads h0), run_bind_ok (bread_run hind), if_neg hne]
    rfl

/-- A pass of the loop in `readi` reads the bytes of the file. -/
theorem copyOut_block (hx : blockPlace (off / BSIZE) = some x)
    (hb : s.refs e ((s.cache e).inum, x) = some b) (hm : m ≤ BSIZE - off % BSIZE) :
    copyOut (s.disk.data b) (off % BSIZE) m =
      (List.range m).map fun k => s.byte e (s.cache e).inum (off + k) := by
  have hmod : off % BSIZE < BSIZE := Nat.mod_lt _ (by decide)
  rw [copyOut]
  refine List.map_congr_left fun k hk => ?_
  have hk := List.mem_range.1 hk
  have hdiv : (off + k) / BSIZE = off / BSIZE := by
    simp only [BSIZE] at hm ⊢
    omega
  have hidx : (off + k) % BSIZE = off % BSIZE + k := by
    simp only [BSIZE] at hm ⊢
    omega
  rw [dif_pos (by omega), State.byte, byteAt_some (b := b)]
  · congr 1
    exact Fin.ext hidx.symm
  · rw [hdiv, hx, Option.bind_some, hb]

theorem readLoop_run (h : Working sb e s) {fuel tot : ℕ} (dst : List UInt8) (hfuel : n - tot ≤ fuel)
    (hf : ∀ k < n - tot, s.fileBlock e ((off + k) / BSIZE) ≠ none) :
    readLoop sb e n fuel tot off dst s = .ok (dst ++ (List.range (n - tot)).map fun k =>
      s.byte e (s.cache e).inum (off + k)) s := by
  induction fuel generalizing tot off dst with
  | zero =>
    rw [Nat.le_zero.1 hfuel, List.range_zero, List.map_nil, List.append_nil]
    rfl
  | succ fuel ih =>
    rw [readLoop]
    split_ifs with htot
    · have hmod : off % BSIZE < BSIZE := Nat.mod_lt _ (by decide)
      obtain ⟨b, hb⟩ := Option.ne_none_iff_exists'.1 (hf 0 (by omega))
      obtain ⟨x, hx, hb⟩ := Option.bind_eq_some_iff.1 hb
      rw [Nat.add_zero] at hx
      rw [run_bind_ok (bmap_run h hx hb), run_bind_ok (bread_run (h.dataBlock hb))]
      set m := min (n - tot) (BSIZE - off % BSIZE) with hm
      have hrest : ∀ k < n - (tot + m), s.fileBlock e ((off + m + k) / BSIZE) ≠ none := by
        intro k hk
        rw [Nat.add_assoc]
        exact hf (m + k) (by omega)
      rw [copyOut_block hx hb (by omega), ih _ (by omega) hrest, List.append_assoc,
        show n - tot = m + (n - (tot + m)) by omega, List.range_add, List.map_append, List.map_map]
      simp only [Function.comp_def, Nat.add_assoc]
    · rw [show n - tot = 0 by omega, List.range_zero, List.map_nil, List.append_nil]
      rfl

theorem Working.bytes_eq (h : Working sb e s) (hm : off + m ≤ (s.cache e).copy.size) :
    ((List.range m).map fun k => s.byte e (s.cache e).inum (off + k)) =
      ((s.disk.content (s.cache e).copy).drop off).take m := by
  apply List.ext_getElem?
  intro k
  by_cases hk : k < m
  · rw [List.getElem?_map, List.getElem?_range hk, Option.map_some, List.getElem?_take_of_lt hk,
      List.getElem?_drop, getElem?_content, if_pos (by omega), h.byte_self]
  · rw [List.getElem?_eq_none, List.getElem?_eq_none]
    · rw [List.length_take]
      omega
    · rw [List.length_map, List.length_range]
      omega

/-- `readi` returns the bytes of the file, up to its end. -/
theorem readi_run (h : Held sb e s) (hdev : (s.cache e).copy.type ≠ .dev)
    (hsolid : s.disk.Solid (s.cache e).copy) (off n : UInt32) : readi sb e off n s = .ok
      (if (s.cache e).copy.size < off.toNat ∨ 2 ^ 32 ≤ off.toNat + n.toNat then none
        else some (((s.disk.content (s.cache e).copy).drop off.toNat).take n.toNat)) s := by
  have hlen := length_content s.disk (s.cache e).copy
  have hloop : ∀ m, off.toNat + m ≤ (s.cache e).copy.size → readLoop sb e m m 0 off.toNat [] s =
      .ok (((s.disk.content (s.cache e).copy).drop off.toNat).take m) s := by
    intro m hm
    rw [readLoop_run h.working [] (Nat.sub_le _ _), Nat.sub_zero, List.nil_append,
      h.working.bytes_eq hm]
    intro k hk
    exact h.filled hsolid (by omega)
  simp only [readi, run_get_bind, add_lt_self_iff]
  rw [if_neg hdev]
  split_ifs with hbad hcut
  · rfl
  · rw [run_bind_ok (hloop _ (by omega)), run_pure, List.take_of_length_le, List.take_of_length_le]
    · rw [List.length_drop]
      omega
    · rw [List.length_drop]
      omega
  · rw [run_bind_ok (hloop _ (by omega)), run_pure]

/-! ### Files as flat arrays -/

/-- In every file system whose blocks are owned, for every inode that is no device and has no holes:
`writei` refuses a write exactly if it begins behind the end, overflows or makes the file too long, and
else, with blocks enough, the file is the old one with the bytes in place, its size is raised, and the
other inodes are as they were; `readi` returns the bytes up to the end of the file. -/
theorem writei_readi_flat (h : Held sb e s) (hdev : (s.cache e).copy.type ≠ .dev)
    (hsolid : s.disk.Solid (s.cache e).copy) (off n : UInt32) (src : ℕ → UInt8) :
    (Refused (s.cache e).copy.size off n → writei sb e src off n s = .ok (-1) s) ∧
    (¬ Refused (s.cache e).copy.size off n → Room sb e (off.toNat + n.toNat) s →
      ∃ t, writei sb e src off n s = .ok n.toNat t ∧
        Rewritten sb e off.toNat n.toNat src s t ∧
        (t.cache e).copy.size = if 0 < n.toNat then max (s.cache e).copy.size (off.toNat + n.toNat)
          else (s.cache e).copy.size) ∧
    readi sb e off n s = .ok
      (if (s.cache e).copy.size < off.toNat ∨ 2 ^ 32 ≤ off.toNat + n.toNat then none
        else some (((s.disk.content (s.cache e).copy).drop off.toNat).take n.toNat)) s := by
  refine ⟨fun hbad => writei_refused hdev hbad src, fun hok hroom => ?_, readi_run h hdev hsolid off n⟩
  have hends := writei_halts h hdev hsolid hok src
  cases hw : writei sb e src off n s with
  | error r t =>
    rw [hw] at hends
    exact absurd hroom (hends _ (le_refl _))
  | ok r t =>
    rw [hw] at hends
    obtain ⟨rfl, ht⟩ := hends
    have hsize := congrArg List.length ht.content
    rw [length_content, length_splice, length_content, List.length_map, List.length_range] at hsize
    · refine ⟨t, rfl, ht, ?_⟩
      rw [hsize]
      split_ifs with hpos
      · rfl
      · simp only [Refused, not_or] at hok
        omega
    · simp only [Refused, not_or] at hok
      rw [length_content]
      omega

/-- A disk with 60 data blocks, on which inode 1 is the only one. -/
def oneFile (type : FileType) : State where
  disk := ⟨fun i => if i = 1 then .fresh type else .fresh .free, fun b => b < 4, fun _ _ => 0⟩
  cache e := if e = 0 then ⟨1, 1, false, true, .fresh type⟩ else ⟨0, 0, false, false, .fresh .free⟩
  file _ := ⟨0, .none, 0, false, false⟩
  proc _ := ⟨0, none, fun _ => none⟩
  logged := ∅
  ended := []

def smallSb : Superblock := ⟨64, 8, 2, 3, 4, by decide, by decide⟩

theorem oneFile_held (type : FileType) (h : type ≠ .free) : Held smallSb 0 (oneFile type) := by
  have hrefs : ∀ x, refs (oneFile type).disk.inode (oneFile type).disk.data x = none := by
    rintro ⟨i, x⟩
    rw [refs]
    split_ifs
    · rfl
    · simp only [oneFile]
      split_ifs <;> cases x <;> rfl
  refine ⟨⟨⟨?_, ?_, ?_, ?_⟩, fun b hb => decide_eq_true hb⟩, rfl, h⟩
  · intro x b hx
    cases (hrefs x).symm.trans hx
  · intro x b hx
    cases (hrefs x).symm.trans hx
  · intro x y b hx
    cases (hrefs x).symm.trans hx
  · intro b hb hu
    exact absurd hb.1 (Nat.not_le.2 (of_decide_eq_true hu))

/-- The first 600 bytes of a file. -/
theorem writei_readi_flat_two_blocks : ∃ t,
    writei smallSb 0 (fun _ => 7) 0 600 (oneFile .file) = .ok 600 t ∧
    Rewritten smallSb 0 0 600 (fun _ => 7) (oneFile .file) t ∧ (t.cache 0).copy.size = 600 := by
  have hflat := writei_readi_flat (oneFile_held .file (by decide)) (by decide)
    (fun bn hbn => absurd hbn (Nat.not_lt_zero _)) 0 600 fun _ => 7
  exact hflat.2.1 (by decide) (by decide +kernel)

end Xv6Container.Ops
