import Xv6Container.Ops.Dirlink

/-! What `create` costs. A new inode holds no blocks yet, so the directory that it goes to is as it was;
the entries of a new directory are written to blocks that are its own. -/

namespace Xv6Container.Ops

open Lib
open Fs (FileType Dinode Entry Place CString)
open Names (one one_self add_one_pos add_one_nonneg lt_add_one gain SHRT_MAX Name Slot)
open Log (MAXOPBLOCKS)

variable {sb : Superblock} {R : Entry → ℤ} {K : Finset ℕ} {n i : ℕ} {e dp ip : Entry} {s t u : State}
  {d : Dinode} {type : FileType} {major minor : ℤ}

/-! ### A new inode -/

/-- `t` is `s` with a new inode in entry `ip`. -/
structure Fresh (ip : Entry) (s t : State) : Prop where
  free : (s.disk.inode (t.cache ip).inum).type = .free
  idle : 0 < (s.cache ip).ref → (s.cache ip).inum = (t.cache ip).inum
  inode : t.disk.inode = Function.update s.disk.inode (t.cache ip).inum (t.cache ip).copy
  used : t.disk.used = s.disk.used
  data : t.disk.data = s.disk.data
  alloc : (t.cache ip).copy.type ≠ .free
  size : (t.cache ip).copy.size = 0
  addrs : (t.cache ip).copy.addrs = fun _ => 0
  others : ∀ x, x ≠ ip → t.cache x = s.cache x
  file : t.file = s.file

/-- `ilock` of an inode that is not in the cache yet. -/
theorem ilock_loads {E : State → Prop} (hv : (s.cache e).valid = false) (hE : Mute E s) :
    Halts (fun _ t => t = s.setInode e { s.cache e with
        locked := true, valid := true, copy := s.disk.inode (s.cache e).inum } ∧
        (s.disk.inode (s.cache e).inum).type ≠ .free) E (ilock e s) := by
  rw [ilock, run_get_bind]
  split_ifs
  · exact hE.self
  · refine (acquiresleep_halts hE.self).bind ?_
    rintro _ t rfl
    rw [run_get_bind, State.setInode_self, if_pos hv]
    simp only [setInode, run_modify_bind, State.setInode_self]
    split_ifs with hfree
    · exact hE _ rfl rfl
    · refine ⟨?_, hfree⟩
      simp only [State.setInode, Function.update_idem]

/-- The inode of `create` has one link, and its block is logged. -/
theorem newInode_halts {E : State → Prop} (hs : Counted R s) (hE : E s)
    (hE' : ∀ i d, Mute E (s.setDisk d (sb.iblock i))) (type : FileType) (major minor : ℤ) :
    Halts (fun ip t => Fresh ip s t ∧ (t.cache ip).copy.type = type ∧ (t.cache ip).copy.nlink = 1 ∧
        t.logged = insert (sb.iblock (t.cache ip).inum) s.logged ∧ t.ended = s.ended) E
      (newInode sb type major minor s) := by
  simp only [newInode, ialloc, bind_assoc, run_get_bind]
  cases hi : (List.range sb.ninodes).find? fun i => i ≥ 1 ∧ (s.disk.inode i).type = .free with
  | none => exact hE
  | some i =>
    have hfree : (s.disk.inode i).type = .free := by
      have := List.find?_some hi
      simp only [decide_eq_true_eq] at this
      exact this.2
    simp only [bind_assoc, logDinode, run_modify_bind]
    set s₁ := s.setDisk { s.disk with inode := Function.update s.disk.inode i (.fresh type) }
      (sb.iblock i) with hs₁
    have hE₁ : Mute E s₁ := hE' i _
    refine (iget_entry hE₁.self).bind ?_
    rintro ip t ⟨x, rfl, hx, hold, hvalid⟩
    -- a valid entry has an inode that is not free
    have hv : x.valid = false := by
      rw [Bool.eq_false_iff]
      intro hv
      obtain ⟨href, hv'⟩ := hvalid hv
      have hpos : 0 < R ip := hs.count ip ▸ href
      have hsync := hs.synced ip hpos hv'
      have hinum : (s.cache ip).inum = i := hold href
      rw [hsync.1, hinum] at hsync
      exact hsync.2 hfree
    have hE₂ : Mute E (s₁.setInode ip x) := fun u hlogged hended => hE₁ u hlogged hended
    refine (ilock_loads (by rw [State.setInode_self, hv]) hE₂).bind ?_
    rintro _ u ⟨rfl, htype⟩
    rw [run_bind_ok (setCopy_run _ _ _), run_bind_ok (iupdate_run _ _ _)]
    subst hx
    simp only [hs₁, State.setInode, State.setDisk, Function.update_self, Function.update_idem,
      Dinode.fresh, Finset.insert_idem] at htype ⊢
    rw [run_pure, halts_ok]
    refine ⟨⟨?_, ?_, ?_, rfl, rfl, ?_, ?_, ?_, ?_, rfl⟩, ?_, ?_, ?_, rfl⟩ <;>
      simp only [Function.update_self]
    · exact hfree
    · exact hold
    · exact htype
    · exact fun y hy => Function.update_of_ne hy ..

theorem newInode_costs (h : Spent K n s) (hK : K.card + (n + 1) ≤ MAXOPBLOCKS) (hs : Counted R s)
    (type : FileType) (major minor : ℤ) :
    Halts (fun ip t => Spent (insert (sb.iblock (t.cache ip).inum) K) n t ∧ Fresh ip s t ∧
        (t.cache ip).copy.type = type) Budget (newInode sb type major minor s) := by
  have hlog : ∀ i d, Spent (insert (sb.iblock i) K) n (s.setDisk d (sb.iblock i)) := fun i d =>
    (h.weaken _).log (Finset.mem_insert_self _ K) d
  refine (newInode_halts hs (h.budget (by omega)) ?_ type major minor).post ?_
  · exact fun i d => ((hlog i d).budget (card_insert_le hK _)).mute
  · rintro ip t ⟨hfresh, htype, -, hlogged, hended⟩
    exact ⟨(hlog _ s.disk).congr hlogged hended, hfresh, htype⟩

/-- A free inode holds no blocks, and a new one has none. -/
theorem refs_fresh {table : ℕ → Dinode} {data : ℕ → Fs.Block} (hi : (table i).type = .free)
    (hd : d.addrs = fun _ => 0) : refs (Function.update table i d) data = refs table data := by
  funext ⟨j, x⟩
  by_cases hj : j = i
  · subst hj
    have hnone : d.ref data x = none := by
      cases x <;> simp [Dinode.ref, hd, Fs.stored]
    simp only [refs, Function.update_self, hi, if_true, hnone, ite_self]
  · simp only [refs, Function.update_of_ne hj]

namespace Fresh

theorem held (h : Fresh ip s t) (hs : Owned sb s.disk.inode s.disk.used s.disk.data) :
    Held sb ip t := by
  refine ⟨⟨?_, ?_⟩, ?_, h.alloc⟩
  · rw [h.inode, h.used, h.data, refs_fresh h.free h.addrs]
    exact hs.exact
  · rw [h.used]
    exact hs.metaUsed
  · rw [h.inode, Function.update_self]

theorem solid (h : Fresh ip s t) : t.disk.Solid (t.cache ip).copy := by
  intro bn hbn
  rw [h.size] at hbn
  exact absurd hbn (Nat.not_lt_zero _)

/-- A directory in use is another inode. -/
theorem ne (h : Fresh ip s t) (hd : Loaded dp s) (href : 0 < (s.cache dp).ref) :
    (s.cache dp).inum ≠ (t.cache ip).inum ∧ dp ≠ ip := by
  have hinum : (s.cache dp).inum ≠ (t.cache ip).inum := by
    intro heq
    have hfree := h.free
    rw [← heq, hd.synced, hd.dir] at hfree
    cases hfree
  refine ⟨hinum, ?_⟩
  rintro rfl
  exact hinum (h.idle href)

theorem loaded (h : Fresh ip s t) (hd : Loaded dp s) (href : 0 < (s.cache dp).ref) :
    Loaded dp t := by
  obtain ⟨hinum, hne⟩ := h.ne hd href
  have hcache := h.others dp hne
  refine ⟨?_, ?_, ?_⟩
  · rw [hcache, h.inode, Function.update_of_ne hinum, hd.synced]
  · rw [hcache, hd.dir]
  · rw [hcache]
    exact hd.solid.congr h.data rfl rfl

end Fresh

/-! ### A link more or less -/

/-- The inode of `e` has another number of links, in the cache and on the disk. -/
def State.relink (sb : Superblock) (s : State) (e : Entry) (k : ℤ) : State :=
  let d : Dinode := { (s.cache e).copy with nlink := k }
  (s.setInode e { s.cache e with copy := d }).setDisk
    { s.disk with inode := Function.update s.disk.inode (s.cache e).inum d }
    (sb.iblock (s.cache e).inum)

theorem relink_cache (s : State) (e : Entry) (k : ℤ) : (s.relink sb e k).cache e =
    { s.cache e with copy := { (s.cache e).copy with nlink := k } } :=
  State.setInode_self ..

theorem relink_of_ne {x : Entry} (h : x ≠ e) (k : ℤ) : (s.relink sb e k).cache x = s.cache x :=
  State.setInode_of_ne s h _

theorem relink_inode (s : State) (e : Entry) (k : ℤ) : (s.relink sb e k).disk.inode =
    Function.update s.disk.inode (s.cache e).inum { (s.cache e).copy with nlink := k } := rfl

theorem iupdate_relink (s : State) (e : Entry) (k : ℤ) :
    iupdate sb e (s.setInode e { s.cache e with copy := { (s.cache e).copy with nlink := k } }) =
      .ok () (s.relink sb e k) := by
  rw [iupdate_run, State.setInode_self]
  rfl

theorem incLink_halts {E : State → Prop} (hE : E s) :
    Halts (fun _ t => t = s.setInode e { s.cache e with
        copy := { (s.cache e).copy with nlink := (s.cache e).copy.nlink + 1 } }) E
      (incLink e s) := by
  rw [incLink, run_get_bind]
  split_ifs
  · exact hE
  · exact rfl

theorem Spent.relink (h : Spent K n s) (hib : sb.iblock (s.cache e).inum ∈ K) (k : ℤ) :
    Spent K n (s.relink sb e k) :=
  (h.log hib s.disk).congr rfl rfl

theorem Retains.relink (sb : Superblock) (s : State) (e : Entry) (k : ℤ) : Retains s (s.relink sb e k) := by
  refine ⟨fun x => ?_, rfl⟩
  by_cases hx : x = e
  · rw [hx, relink_cache]
  · rw [relink_of_ne hx]

theorem Loaded.relink (h : Loaded dp s) (sb : Superblock) (k : ℤ) : Loaded dp (s.relink sb dp k) := by
  refine ⟨?_, ?_, ?_⟩
  · rw [relink_cache, relink_inode, Function.update_self]
  · rw [relink_cache, h.dir]
  · rw [relink_cache]
    exact h.solid.congr rfl rfl rfl

theorem Loaded.relink_other (h : Loaded ip s) (sb : Superblock)
    (hne : (s.cache ip).inum ≠ (s.cache e).inum) (k : ℤ) : Loaded ip (s.relink sb e k) := by
  have hcache : (s.relink sb e k).cache ip = s.cache ip :=
    relink_of_ne (fun heq => hne (congrArg (fun x => (s.cache x).inum) heq)) k
  refine ⟨?_, ?_, ?_⟩
  · rw [hcache, relink_inode, Function.update_of_ne hne, h.synced]
  · rw [hcache, h.dir]
  · rw [hcache]
    exact h.solid.congr rfl rfl rfl

theorem Held.relink_other (h : Held sb ip s) (hd : s.disk.inode (s.cache e).inum = (s.cache e).copy)
    (hne : (s.cache ip).inum ≠ (s.cache e).inum) (k : ℤ) : Held sb ip (s.relink sb e k) := by
  have hcache : (s.relink sb e k).cache ip = s.cache ip :=
    relink_of_ne (fun heq => hne (congrArg (fun x => (s.cache x).inum) heq)) k
  have hrefs : refs (s.relink sb e k).disk.inode s.disk.data = refs s.disk.inode s.disk.data := by
    rw [relink_inode]
    calc refs (Function.update s.disk.inode (s.cache e).inum { (s.cache e).copy with nlink := k })
          s.disk.data
        = refs (Function.update s.disk.inode (s.cache e).inum (s.cache e).copy) s.disk.data :=
          refs_fields rfl rfl
      _ = refs s.disk.inode s.disk.data := by rw [← hd, Function.update_eq_self]
  refine ⟨⟨?_, h.owned.metaUsed⟩, ?_, ?_⟩
  · change Exact sb.DataBlock s.disk.used (refs (s.relink sb e k).disk.inode s.disk.data)
    rw [hrefs]
    exact h.owned.exact
  · rw [hcache, relink_inode, Function.update_of_ne hne, h.synced]
  · rw [hcache]
    exact h.alloc

/-! ### `create` -/

/-- The parent gets a link, and the new directory two entries. -/
theorem createDots_costs (h : Spent K n s) (hbm : sb.bmapstart ∈ K)
    (hdp : sb.iblock (s.cache dp).inum ∈ K) (hip : sb.iblock (s.cache ip).inum ∈ K)
    (hK : K.card + (n + 4) ≤ MAXOPBLOCKS) (hd : Loaded dp s) (hi : Loaded ip s) (hs : Held sb ip s)
    (hne : (s.cache dp).inum ≠ (s.cache ip).inum) :
    Halts (fun _ t => Spent K (n + 4) t ∧ Retains s t ∧ Loaded dp t) Budget
      (createDots sb dp ip s) := by
  have hentry : dp ≠ ip := fun heq => hne (congrArg (fun x => (s.cache x).inum) heq)
  rw [createDots]
  refine (incLink_halts (h.budget (by omega))).bind ?_
  rintro _ t rfl
  rw [run_bind_ok (iupdate_relink _ _ _), run_get_bind]
  set k := (s.cache dp).copy.nlink + 1
  have h₁ := h.relink hdp k
  have hd₁ := hd.relink sb k
  have hi₁ := hi.relink_other sb hne.symm k
  have hs₁ := hs.relink_other hd.synced hne.symm k
  have hkeep₁ := Retains.relink sb s dp k
  set s₁ := s.relink sb dp k
  have hdot : ∀ (name : Name) (inum m : ℕ) (t : State), m ≤ n + 2 → Spent K m t → Retains s₁ t →
      Held sb ip t → Loaded ip t → Loaded dp t →
      Halts (fun r u => Spent K (m + 2) u ∧ (r = true → Retains s₁ u ∧ Held sb ip u ∧ Loaded ip u ∧
        Loaded dp u)) Budget (dirlink sb ip name inum t) := by
    intro name inum m t hm ht hkeep hst hit hdt
    have hib : sb.iblock (t.cache ip).inum ∈ K := by rwa [hkeep.inum, hkeep₁.inum]
    refine (dirlink_costs ht hbm hib (by omega) (fun _ => hit.solid) name inum).post ?_
    rintro r u ⟨hu, -, hr⟩
    refine ⟨hu, fun hok => ?_⟩
    obtain ⟨hkeep', hlinked⟩ := hr hok
    have hl := hlinked ⟨hst, hit⟩
    refine ⟨hkeep.trans hkeep', hl.held, hl.loaded, ?_⟩
    refine hdt.spares hl.spares ?_ (hl.others dp hentry)
    rwa [hkeep.inum, hkeep.inum, hkeep₁.inum, hkeep₁.inum]
  refine (hdot .dot _ n s₁ (by omega) h₁ (.refl s₁) hs₁ hi₁ hd₁).bind ?_
  rintro r t ⟨ht, hr⟩
  cases r with
  | false => exact ht.budget (by omega)
  | true =>
    obtain ⟨hkeep, hst, hit, hdt⟩ := hr rfl
    refine (hdot .dotdot _ (n + 2) t (le_refl _) ht hkeep hst hit hdt).bind ?_
    rintro r' u ⟨hu, hr'⟩
    cases r' with
    | false => exact hu.budget (by omega)
    | true =>
      obtain ⟨hkeep', -, -, hdu⟩ := hr' rfl
      exact ⟨hu, hkeep₁.trans hkeep', hdu⟩

/-- What `t` has logged leaves room for `iput` of `o`; the table of files is that of `s`. -/
structure Charged (sb : Superblock) (o : Option Entry) (s t : State) : Prop where
  file : t.file = s.file
  spent : ∃ K n, Spent K n t ∧ sb.bmapstart ∈ K ∧ K.card + n ≤ MAXOPBLOCKS ∧
    ∀ ip, o = some ip → sb.iblock (t.cache ip).inum ∈ K

/-- Nothing has been logged yet. -/
theorem Spent.of_empty (h : Spent ∅ 0 s) (K : Finset ℕ) : Spent K 0 s :=
  ⟨h.within.weaken (Finset.empty_subset K), h.ended⟩

theorem Looked.charged (h : Looked R s t) (sb : Superblock) (hs : Spent ∅ 0 s) (o : Option Entry) :
    Charged sb o s t := by
  refine ⟨h.file, named₁ sb ((o.map fun e => (t.cache e).inum).getD 0), 0, ?_, bmap_mem sb _,
    named₁_budget sb _, ?_⟩
  · exact (hs.of_empty _).congr h.logged h.ended
  · rintro ip rfl
    exact iblock_mem sb _

/-- `create` once there is a new inode: the bitmap and two inodes, and six other blocks. -/
theorem newEntry_costs (h : Spent K 0 s) (hbm : sb.bmapstart ∈ K)
    (hdp : sb.iblock (s.cache dp).inum ∈ K) (hip : sb.iblock (s.cache ip).inum ∈ K)
    (hK : K.card ≤ 3) (hd : Loaded dp s) (hi : type = .dir → Loaded ip s) (hs : Held sb ip s)
    (hne : (s.cache dp).inum ≠ (s.cache ip).inum) (name : Name) :
    Halts (fun o t => Charged sb o s t) Budget ((do
      if type = .dir then createDots sb dp ip
      if ← dirlink sb dp name ((← get).cache ip).inum then
        iunlockput sb dp
        return some ip
      else throw (.panic "create: dirlink") : Run (Option Entry)) s) := by
  have hmax := maxopblocks_eq
  have hrest : ∀ t, Spent K 4 t → Retains s t → Loaded dp t → Halts (fun o u => Charged sb o s u)
      Budget ((do
        if ← dirlink sb dp name ((← get).cache ip).inum then
          iunlockput sb dp
          return some ip
        else throw (.panic "create: dirlink") : Run (Option Entry)) t) := by
    intro t ht hkeep hdt
    rw [run_get_bind]
    have hib : sb.iblock (t.cache dp).inum ∈ K := by rwa [hkeep.inum]
    refine (dirlink_costs ht hbm hib (by omega) (fun _ => hdt.solid) name _).bind ?_
    rintro r u ⟨hu, -, hr⟩
    cases r with
    | false => exact hu.budget (by omega)
    | true =>
      have hkeep' := hkeep.trans (hr rfl).1
      have hib' : sb.iblock (u.cache dp).inum ∈ K := by rwa [hkeep'.inum]
      refine (iunlockput_costs hbm (by omega) hu hib').bind ?_
      rintro _ v ⟨hv, hkeep''⟩
      have hall := hkeep'.trans hkeep''
      refine ⟨hall.file, K, 6, hv, hbm, by omega, ?_⟩
      rintro e he
      cases he
      rwa [hall.inum]
  split_ifs with htype
  · refine (createDots_costs h hbm hdp hip (by omega) hd (hi htype) hs hne).bind ?_
    rintro _ t ⟨ht, hkeep, hdt⟩
    exact hrest t ht hkeep hdt
  · exact hrest s (h.mono (by omega)) (.refl s) hd

theorem create_costs (h : Cached R s) (hR : ∀ x, 0 ≤ R x) (hset : Settled R s) (hcwd : Seated R s)
    (ho : Owned sb s.disk.inode s.disk.used s.disk.data) (hs : Spent ∅ 0 s) (p : Slot)
    (path : CString) (type : FileType) (major minor : ℤ) :
    Halts (fun o t => Charged sb o s t) Budget (create sb p path type major minor s) := by
  have hE : Mute Budget s := (hs.budget (by decide)).mute
  rw [create]
  refine (nameiparent_halts h hR hset hcwd hE p path).bind ?_
  rintro (_ | ⟨dp, name⟩) t ⟨-, hnone, hsome⟩
  · exact (hnone rfl).2.charged sb hs none
  · dsimp only
    refine ((hsome _ rfl).ilock hR hE).bind ?_
    rintro _ u ⟨⟨hu, -⟩, hv⟩
    refine (hu.dirlookup hR hE hset hv name).bind ?_
    rintro (_ | ⟨ip, off⟩) v ⟨-, hdir, hsame, hboth⟩
    · -- the name is new
      obtain rfl := hsame rfl
      have hpos := add_one_pos (hR dp)
      have hd : Loaded dp v := hu.cached.loaded hpos hv hdir
      have href : 0 < (v.cache dp).ref := hu.cached.count dp ▸ hpos
      have hcard := card_named₁ sb (v.cache dp).inum
      have hmax := maxopblocks_eq
      have hspent : Spent (named₁ sb (v.cache dp).inum) 0 v :=
        (hs.of_empty _).congr hu.looked.logged hu.looked.ended
      dsimp only
      refine (newInode_costs hspent (by omega) hu.cached.toCounted type major minor).bind ?_
      rintro ip w ⟨hw, hfresh, htype⟩
      obtain ⟨hinum, hne⟩ := hfresh.ne hd href
      have hdp : sb.iblock (w.cache dp).inum ∈
          insert (sb.iblock (w.cache ip).inum) (named₁ sb (v.cache dp).inum) := by
        rw [hfresh.others dp hne]
        exact Finset.mem_insert_of_mem (iblock_mem sb _)
      have hheld : Held sb ip w := hfresh.held (hu.looked.disk ▸ ho)
      refine (newEntry_costs hw (Finset.mem_insert_of_mem (bmap_mem sb _)) hdp
        (Finset.mem_insert_self _ _) ((Finset.card_insert_le _ _).trans (by omega))
        (hfresh.loaded hd href) (fun hdirtype => ⟨hheld.synced, htype.trans hdirtype, hfresh.solid⟩)
        hheld ?_ name).post ?_
      · rwa [hfresh.others dp hne]
      · exact fun o x hx => ⟨(hx.file.trans hfresh.file).trans hu.looked.file, hx.spent⟩
    · dsimp only
      refine ((hboth _ rfl).symm.iunlockput hR hE).bind ?_
      rintro _ w ⟨hw, -⟩
      refine (hw.ilock hR hE).bind ?_
      rintro _ x ⟨⟨hx, -⟩, -⟩
      rw [run_get_bind]
      split_ifs
      · exact hx.looked.charged sb hs (some ip)
      · refine (hx.iunlockput hR hE).bind ?_
        rintro _ y ⟨-, hl⟩
        exact hl.charged sb hs none

end Xv6Container.Ops
