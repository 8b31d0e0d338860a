import Xv6Container.Ops.Transactions

/-! What a call that fails leaves behind. The lookups change nothing and `sys_link` takes its link back,
but what `create` has made stays: `sys_open` that gets no file or no descriptor for a new file fails all the
same. -/

namespace Xv6Container.Ops

open Lib
open Fs (FileType Dinode Entry Stop CString openPath)
open Names (one one_self add_one_pos add_one_nonneg lt_add_one gain ptr Slot FileId Fd Name O_CREATE)

/-! ### Calls that look up paths -/

inductive PathCall
  | sysOpen (path : Option CString) (omode : UInt32)
  | sysMkdir (path : Option CString)
  | sysMknod (path : Option CString) (major minor : ℤ)
  | sysLink (old new : Option CString)
  | sysUnlink (path : Option CString)
  | sysChdir (path : Option CString)

/-- The call of process `p`; `false` is -1. -/
def PathCall.run (sb : Superblock) (p : Slot) : PathCall → Run Bool
  | .sysOpen path omode => do return (← Ops.sysOpen sb p path omode).isSome
  | .sysMkdir path => Ops.sysMkdir sb p path
  | .sysMknod path major minor => Ops.sysMknod sb p path major minor
  | .sysLink old new => Ops.sysLink sb p old new
  | .sysUnlink path => Ops.sysUnlink sb p path
  | .sysChdir path => Ops.sysChdir sb p path

/-- The path leads to a directory that does not have its last element. -/
def State.absent (s : State) (p : Slot) (path : CString) : Bool :=
  (s.lookup p path true).any fun x => (s.disk.find (s.disk.inode x.1) x.2).isNone

/-- The call is `sys_open` of a file that is not there, with `O_CREATE`. -/
def PathCall.creates (s : State) (p : Slot) : PathCall → Bool
  | .sysOpen (some path) omode => omode &&& O_CREATE != 0 &&
      (openPath (s.proc p).containerID path true).toOption.any (s.absent p)
  | _ => false

/-- The disk is as it was, and so are the inodes that the cache has of it. -/
structure Unchanged (s t : State) : Prop where
  disk : t.disk = s.disk
  copies : ∀ e, 0 < (t.cache e).ref → (t.cache e).valid = true →
    (t.cache e).copy = s.disk.inode (t.cache e).inum

variable {sb : Superblock} {R R' : Entry → ℤ} {i : ℕ} {e dp ip : Entry} {s t u : State} {p : Slot}
  {path : CString} {name : Name} {E : State → Prop} {d : Disk}

/-! ### What is kept -/

/-- The disk is `d`, and the cache goes with it and has the references `R`. -/
structure Kept (R : Entry → ℤ) (d : Disk) (t : State) : Prop where
  disk : t.disk = d
  cached : Cached R t

namespace Kept

theorem congr (h : Kept R d t) (hdisk : u.disk = t.disk) (hcache : u.cache = t.cache) :
    Kept R d u :=
  ⟨hdisk.trans h.disk, h.cached.congr hdisk hcache⟩

theorem unchanged (h : Kept R s.disk t) : Unchanged s t := by
  refine ⟨h.disk, fun e href hv => ?_⟩
  rw [← h.disk]
  exact (h.cached.synced e (h.cached.count e ▸ href) hv).1

theorem endOp {α : Type} (h : Kept R d t) (a : α) :
    Halts (fun _ => Kept R d) E ((do endOp; return a : Run α) t) :=
  h.congr rfl rfl

end Kept

theorem Looked.kept (h : Looked R' s t) (ht : Cached R t) : Kept R s.disk t := ⟨h.disk, ht⟩

/-- A call that has not failed. -/
theorem Kept.of_true (t : State) : true = false → Kept R d t := by
  intro h
  cases h

/-- What is left of a transaction with a locked inode. -/
theorem Found.finish {α : Type} (h : Found R ip s t) (hR : ∀ x, 0 ≤ R x) (a : α) :
    Halts (fun _ => Kept R s.disk) (fun _ => True) ((do
      Ops.iunlockput sb ip
      endOp
      return a : Run α) t) := by
  refine (h.iunlockput hR (mute_true s)).bind ?_
  rintro _ u ⟨hu, hl⟩
  exact (hl.kept hu).endOp a

/-! ### `sys_chdir` -/

theorem sysChdir_kept (hs : WellFormed sb s) (p : Slot) (path : Option CString) :
    Halts (fun r t => r = false → Kept (hold s) s.disk t) (fun _ => True)
      (sysChdir sb p path s) := by
  obtain ⟨hcached, hset, hcwd⟩ := hs.begin
  have hR := hold_nonneg s
  cases path with
  | none => exact fun _ => ⟨rfl, hcached.congr rfl rfl⟩
  | some path =>
    rw [sysChdir, beginOp, run_modify_bind]
    refine (namei_halts hcached hR hset hcwd (mute_true _) p path).bind ?_
    rintro (_ | ip) t ⟨hnone, hsome⟩
    · obtain ⟨ht, hl⟩ := hnone rfl
      exact ((hl.kept ht).endOp false).post fun _ _ h _ => h
    · refine ((hsome ip rfl).ilock hR (mute_true _)).bind ?_
      rintro _ u ⟨⟨hu, -⟩, -⟩
      rw [run_get_bind]
      split_ifs
      · exact (hu.finish hR false).post fun _ _ h _ => h
      · refine Halts.skip fun _ v => Halts.skip fun _ w => ?_
        exact Kept.of_true _

/-! ### `sys_unlink` -/

theorem unlinkEntry_kept {off : ℕ} (h : Both R dp ip s t) (hR : ∀ x, 0 ≤ R x) :
    Halts (fun r u => r = false → Kept R s.disk u) (fun _ => True) (unlinkEntry sb dp ip off t) := by
  rw [unlinkEntry]
  refine (h.ilock hR (mute_true s)).bind ?_
  rintro _ u ⟨hu, hv⟩
  rw [run_get_bind]
  dsimp only
  by_cases hlink : (u.cache ip).copy.nlink < 1
  · rw [if_pos hlink]
    trivial
  rw [if_neg hlink]
  have hpos := add_one_pos (add_one_nonneg hR dp ip)
  refine (Halts.mono (full_reads fun htype => (hu.cached.loaded hpos hv htype).solid)
    (fun _ _ => id) fun _ _ => trivial).bind ?_
  rintro full v ⟨rfl, -⟩
  cases full with
  | true =>
    refine (hu.iunlockput hR (mute_true s)).bind ?_
    rintro _ w ⟨hw, -⟩
    exact (hw.finish hR false).post fun _ _ h _ => h
  | false =>
    refine Halts.skip fun r w => ?_
    have hlast : ∀ x : State, Halts (fun r u => r = false → Kept R s.disk u) (fun _ => True) ((do
        iunlockput sb dp
        decLink ip
        iupdate sb ip
        iunlockput sb ip
        endOp
        return true : Run Bool) x) := fun x =>
      Halts.skip fun _ _ => Halts.skip fun _ _ => Halts.skip fun _ _ => Halts.skip fun _ y =>
        Kept.of_true _
    split_ifs
    · trivial
    · exact Halts.skip fun _ _ => Halts.skip fun _ x => hlast x
    · exact hlast w

theorem sysUnlink_kept (hs : WellFormed sb s) (p : Slot) (path : Option CString) :
    Halts (fun r t => r = false → Kept (hold s) s.disk t) (fun _ => True)
      (sysUnlink sb p path s) := by
  obtain ⟨hcached, hset, hcwd⟩ := hs.begin
  have hR := hold_nonneg s
  cases path with
  | none => exact fun _ => ⟨rfl, hs.cached⟩
  | some path =>
    rw [sysUnlink, beginOp, run_modify_bind]
    refine (nameiparent_halts hcached hR hset hcwd (mute_true _) p path).bind ?_
    rintro (_ | ⟨dp, name⟩) t ⟨-, hnone, hsome⟩
    · obtain ⟨ht, hl⟩ := hnone rfl
      exact ((hl.kept ht).endOp false).post fun _ _ h _ => h
    · dsimp only
      refine ((hsome _ rfl).ilock hR (mute_true _)).bind ?_
      rintro _ u ⟨⟨hu, -⟩, hv⟩
      split_ifs
      · exact (hu.finish hR false).post fun _ _ h _ => h
      · refine (hu.dirlookup hR (mute_true _) hset hv name).bind ?_
        rintro (_ | ⟨ip, off⟩) w ⟨-, -, hsame, hboth⟩
        · rw [hsame rfl]
          exact (hu.finish hR false).post fun _ _ h _ => h
        · have hkept : Halts _ _ (unlinkEntry sb dp ip off w) := unlinkEntry_kept (hboth _ rfl) hR
          exact hkept

/-- The name is there already, and the reference that `dirlookup` has taken is given back. -/
theorem Found.dirlink (h : Found R dp s t) (hR : ∀ x, 0 ≤ R x) (hset : Settled R s)
    (hv : (t.cache dp).valid = true) (name : Name) (inum : ℕ) :
    Halts (fun r u => r = false → Found R dp s u) (fun _ => True) (dirlink sb dp name inum t) := by
  rw [Ops.dirlink]
  refine (h.dirlookup hR (mute_true s) hset hv name).bind ?_
  rintro (_ | ⟨ip, off⟩) u ⟨-, -, -, hboth⟩
  · dsimp only
    rw [run_get_bind]
    refine Halts.skip fun free v => Halts.skip fun r w => ?_
    split_ifs
    · trivial
    · exact fun h => absurd h.symm Bool.false_ne_true
  · refine ((hboth _ rfl).iput hR (mute_true s)).bind ?_
    exact fun _ v hv _ => hv.1

/-! ### `create` -/

/-- Entry `ip` has a new inode with a link. -/
structure Made (ip : Entry) (s t : State) : Prop where
  free : (s.disk.inode (t.cache ip).inum).type = .free
  alloc : (t.disk.inode (t.cache ip).inum).type ≠ .free
  nlink : (t.cache ip).copy.nlink ≠ 0
  file : t.file = s.file

/-- Nothing changes but the entry `e` of the cache. -/
structure Stays (e : Entry) (s t : State) : Prop where
  disk : t.disk = s.disk
  file : t.file = s.file
  others : ∀ x, x ≠ e → t.cache x = s.cache x

theorem Stays.setInode (s : State) (e : Entry) (x : Inode) : Stays e s (s.setInode e x) :=
  ⟨rfl, rfl, fun _ hx => State.setInode_of_ne s hx x⟩

theorem Stays.trans (h : Stays e s t) (h' : Stays e t u) : Stays e s u :=
  ⟨h'.disk.trans h.disk, h'.file.trans h.file, fun x hx => (h'.others x hx).trans (h.others x hx)⟩

/-- An inode with links, or with other references, is not freed. -/
theorem iput_stays (h : (s.cache e).copy.nlink ≠ 0 ∨ (s.cache e).ref ≠ 1) :
    Halts (fun _ => Stays e s) (fun _ => True) (iput sb e s) := by
  rw [iput]
  refine (acquiresleep_halts trivial).bind ?_
  rintro _ t rfl
  rw [run_get_bind, if_neg ?_]
  · exact ((Stays.setInode s e _).trans (.setInode _ e _)).trans (.setInode _ e _)
  · rw [State.setInode_self]
    rintro ⟨-, hn, href⟩
    exact h.elim (fun hne => hne hn) fun hne => hne href

theorem iunlockput_stays (h : (s.cache e).copy.nlink ≠ 0 ∨ (s.cache e).ref ≠ 1) :
    Halts (fun _ => Stays e s) (fun _ => True) (iunlockput sb e s) := by
  have hunlock : Halts (fun _ t => t = s.setInode e { s.cache e with locked := false })
      (fun _ => True) (iunlock e s) := by
    rw [iunlock, run_get_bind]
    split_ifs
    · trivial
    · exact rfl
  rw [iunlockput]
  refine hunlock.bind ?_
  rintro _ t rfl
  refine (iput_stays ?_).post fun _ t ht => (Stays.setInode s e _).trans ht
  rwa [State.setInode_self]

/-- The reference is not the last one to an inode without links. -/
theorem Found.stays (h : Found R ip s t) (hR : ∀ x, 0 ≤ R x)
    (hsync : t.disk.inode (t.cache ip).inum = (t.cache ip).copy)
    (htype : (t.cache ip).copy.type ≠ .free) :
    (t.cache ip).copy.nlink ≠ 0 ∨ (t.cache ip).ref ≠ 1 := by
  obtain hn | ⟨e, he, hinum⟩ := h.anchored (by rwa [hsync])
  · left
    rwa [← hsync]
  · right
    obtain rfl := h.cached.distinct e ip (lt_add_one he ip) (add_one_pos (hR ip)) hinum
    rw [h.cached.count, Pi.add_apply, one_self]
    omega

/-- A new entry is written to the directory. -/
theorem dirlink_rewritten (h : Held sb dp s) (hd : Loaded dp s) (name : Name) (inum : ℕ) :
    Halts (fun r t => r = true → ∃ off n, Rewritten sb dp off n (dirent name inum) s t)
      (fun _ => True) (dirlink sb dp name inum s) := by
  have hdev : (s.cache dp).copy.type ≠ .dev := by
    rw [hd.dir]
    intro h
    cases h
  have hlookup : Halts (fun o t => o = none → t = s) (fun _ => True) (dirlookup sb dp name s) := by
    rw [dirlookup, run_get_bind, if_neg (not_not.2 hd.dir)]
    refine (Halts.mono (direntLoop_reads hd.solid (Nat.dvd_zero DIRENT)) (fun _ _ => id)
      fun _ _ => trivial).bind ?_
    rintro (_ | x) t ⟨rfl, -⟩
    · exact fun _ => rfl
    · exact Halts.skip fun _ _ h => absurd h (Option.some_ne_none _)
  rw [dirlink]
  refine hlookup.bind ?_
  rintro (_ | ⟨ip, off⟩) t hsame
  · obtain rfl := hsame rfl
    dsimp only
    rw [run_get_bind]
    refine (Halts.mono (direntLoop_reads hd.solid (Nat.dvd_zero DIRENT)) (fun _ _ => id)
      fun _ _ => trivial).bind ?_
    rintro free u ⟨rfl, -⟩
    set off := (free.map Prod.fst).getD (((u.cache dp).copy.size + DIRENT - 1) / DIRENT * DIRENT)
    by_cases hbad : Refused (u.cache dp).copy.size (.ofNat off) (.ofNat DIRENT)
    · rw [run_bind_ok (writei_refused hdev hbad _), if_pos (by decide)]
      trivial
    · refine ((writei_halts h hdev hd.solid hbad _).mono (fun _ _ => id) fun _ _ => trivial).bind ?_
      rintro r v ⟨-, hv⟩
      split_ifs
      · trivial
      · exact fun _ => ⟨_, _, hv⟩
  · exact Halts.skip fun _ _ h => absurd h Bool.false_ne_true

/-- The new inode gets its name. -/
theorem newEntry_made (hu : Found R dp s t) (hR : ∀ x, 0 ≤ R x) (hd : Loaded dp t)
    (ho : Owned sb t.disk.inode t.disk.used t.disk.data) (h : Fresh ip t u)
    (hlink : (u.cache ip).copy.nlink = 1) (name : Name) :
    Halts (fun o v => o = some ip ∧ Made ip s v) (fun _ => True) ((do
      if ← dirlink sb dp name ((← get).cache ip).inum then
        iunlockput sb dp
        return some ip
      else throw (.panic "create: dirlink") : Run (Option Entry)) u) := by
  have href : 0 < (t.cache dp).ref := hu.cached.count dp ▸ add_one_pos (hR dp)
  obtain ⟨hinum, hne⟩ := h.ne hd href
  have hdu := h.loaded hd href
  have hdir : (t.cache dp).copy.type ≠ .free := by
    rw [hd.dir]
    decide
  have hheld : Held sb dp u := by
    refine ⟨(h.held ho).owned, hdu.synced, ?_⟩
    rwa [h.others dp hne]
  rw [run_get_bind]
  refine (dirlink_rewritten hheld hdu name _).bind ?_
  rintro r v hr
  cases r with
  | false => trivial
  | true =>
    obtain ⟨off, n, hv⟩ := hr rfl
    obtain ⟨d, hcache, -, hnlink⟩ := hv.entry
    have hstays : (v.cache dp).copy.nlink ≠ 0 ∨ (v.cache dp).ref ≠ 1 := by
      have hold := hu.stays hR hd.synced hdir
      rw [hcache, Function.update_self, h.others dp hne]
      rwa [hnlink, h.others dp hne]
    refine (iunlockput_stays hstays).bind ?_
    rintro _ w hw
    have hip : w.cache ip = u.cache ip := by
      rw [hw.others ip hne.symm, hcache, Function.update_of_ne hne.symm]
    refine ⟨rfl, ?_, ?_, ?_, ?_⟩
    · rw [hip, ← hu.looked.disk]
      exact h.free
    · rw [hip, hw.disk, hv.inode, h.inode, Function.update_self]
      · exact h.alloc
      · rw [h.others dp hne]
        exact hinum.symm
    · rw [hip, hlink]
      decide
    · rw [hw.file, hv.file, h.file, hu.looked.file]

/-- `create` fails without a parent and for a name that stands for something else than a file; it finds
the file, or makes it where the name is new. -/
theorem create_found (h : Cached R s) (hR : ∀ x, 0 ≤ R x) (hset : Settled R s) (hcwd : Seated R s)
    (ho : Owned sb s.disk.inode s.disk.used s.disk.data) (p : Slot) (path : CString)
    (type : FileType) (major minor : ℤ) :
    Halts (fun o t => (o = none → s.absent p path = false ∧ Kept R s.disk t) ∧
        ∀ ip, o = some ip → (s.absent p path = false → Found R ip s t) ∧
          (s.absent p path = true → type = .file → Made ip s t)) (fun _ => True)
      (create sb p path type major minor s) := by
  rw [create]
  refine (nameiparent_halts h hR hset hcwd (mute_true s) p path).bind ?_
  rintro (_ | ⟨dp, name⟩) t ⟨hlookup, hnone, hsome⟩
  · obtain ⟨ht, hl⟩ := hnone rfl
    refine ⟨fun _ => ⟨?_, hl.kept ht⟩, fun ip hip => absurd hip (Option.some_ne_none _).symm⟩
    rw [State.absent, hlookup]
    rfl
  · dsimp only
    refine ((hsome _ rfl).ilock hR (mute_true s)).bind ?_
    rintro _ u ⟨⟨hu, hinum⟩, hv⟩
    dsimp only at hu hinum hv
    refine (hu.dirlookup hR (mute_true s) hset hv name).bind ?_
    rintro o v ⟨hfind, hdir, hsame, hboth⟩
    have habsent : s.absent p path = o.isNone := by
      rw [State.absent, hlookup, Option.map_some, Option.any_some, ← hinum, hfind, Option.isNone_map]
    rw [habsent]
    cases o with
    | none =>
      obtain rfl := hsame rfl
      have hd : Loaded dp v := hu.cached.loaded (add_one_pos (hR dp)) hv hdir
      have howned : Owned sb v.disk.inode v.disk.used v.disk.data := by
        rw [hu.looked.disk]
        exact ho
      suffices Halts (fun o t => o ≠ none ∧ ∀ ip, o = some ip → type = .file → Made ip s t)
          (fun _ => True) ((do
            let ip ← newInode sb type major minor
            if type = .dir then createDots sb dp ip
            if ← dirlink sb dp name ((← get).cache ip).inum then
              iunlockput sb dp
              return some ip
            else throw (.panic "create: dirlink") : Run (Option Entry)) v) by
        refine this.post ?_
        rintro o t ⟨hne, hmade⟩
        refine ⟨fun heq => absurd heq hne, fun ip hip => ⟨fun hf => ?_, fun _ => hmade ip hip⟩⟩
        cases hf
      refine (newInode_halts hu.cached.toCounted trivial (fun _ _ => mute_true _) type major
        minor).bind ?_
      rintro ip w ⟨hw, -, hlink, -, -⟩
      by_cases htype : type = .file
      · rw [htype, if_neg (by decide)]
        refine (newEntry_made hu hR hd howned hw hlink name).post ?_
        rintro o t ⟨rfl, hmade⟩
        refine ⟨Option.some_ne_none ip, fun e he _ => ?_⟩
        cases he
        exact hmade
      · have hrest : ∀ x : State, Halts (fun o t => o ≠ none ∧ ∀ ip, o = some ip → type = .file →
            Made ip s t) (fun _ => True) ((do
            if ← dirlink sb dp name ((← get).cache ip).inum then
              iunlockput sb dp
              return some ip
            else throw (.panic "create: dirlink") : Run (Option Entry)) x) := by
          intro x
          rw [run_get_bind]
          refine Halts.skip fun r y => ?_
          cases r with
          | false => trivial
          | true => exact Halts.skip fun _ z => ⟨Option.some_ne_none ip, fun _ _ h => absurd h htype⟩
        split_ifs
        · exact Halts.skip fun _ x => hrest x
        · exact hrest w
    | some x =>
      obtain ⟨ip, off⟩ := x
      dsimp only
      refine ((hboth _ rfl).symm.iunlockput hR (mute_true s)).bind ?_
      rintro _ w ⟨hw, -⟩
      refine (hw.ilock hR (mute_true s)).bind ?_
      rintro _ x ⟨⟨hx, -⟩, -⟩
      rw [run_get_bind]
      split_ifs
      · refine ⟨fun h => absurd h (Option.some_ne_none _), ?_⟩
        rintro e he
        cases he
        exact ⟨fun _ => hx, fun h => absurd h Bool.false_ne_true⟩
      · refine (hx.iunlockput hR (mute_true s)).bind ?_
        rintro _ y ⟨hy, hl⟩
        exact ⟨fun _ => ⟨rfl, hl.kept hy⟩, fun e he => absurd he (Option.some_ne_none _).symm⟩

theorem sysMake_kept (hs : WellFormed sb s) (p : Slot) (path : Option CString) (type : FileType)
    (major minor : ℤ) :
    Halts (fun r t => r = false → Kept (hold s) s.disk t) (fun _ => True)
      (sysMake sb p path type major minor s) := by
  obtain ⟨hcached, hset, hcwd⟩ := hs.begin
  cases path with
  | none => exact fun _ => ⟨rfl, hcached.congr rfl rfl⟩
  | some path =>
    rw [sysMake, beginOp, run_modify_bind]
    refine (create_found hcached (hold_nonneg s) hset hcwd hs.owned p path type major minor).bind ?_
    rintro (_ | ip) t ⟨hnone, -⟩
    · exact ((hnone rfl).2.endOp false).post fun _ _ h _ => h
    · exact Halts.skip fun _ u => Kept.of_true _

/-! ### `sys_open` -/

theorem openInode_found (hs : WellFormed sb s) (p : Slot) (path : CString) (omode : UInt32) :
    Halts (fun o t =>
        (o = none → (PathCall.sysOpen (some path) omode).creates s p = false ∧
          Kept (hold s) s.disk t) ∧
        ∀ ip, o = some ip →
          ((PathCall.sysOpen (some path) omode).creates s p = false →
            Found (hold s) ip { s with logged := ∅ } t) ∧
          ((PathCall.sysOpen (some path) omode).creates s p = true →
            Made ip { s with logged := ∅ } t)) (fun _ => True)
      (openInode sb p path omode { s with logged := ∅ }) := by
  obtain ⟨hcached, hset, hcwd⟩ := hs.begin
  have hR := hold_nonneg s
  rw [openInode, run_get_bind]
  by_cases hc : (omode &&& O_CREATE != 0) = true
  · simp only [PathCall.creates, hc, Bool.true_and]
    cases openPath (s.proc p).containerID path true with
    | error r => trivial
    | ok path' =>
      refine (create_found hcached hR hset hcwd hs.owned p path' .file 0 0).post ?_
      rintro o t ⟨hnone, hsome⟩
      exact ⟨hnone, fun ip hip => ⟨(hsome ip hip).1, fun h => (hsome ip hip).2 h rfl⟩⟩
  · rw [Bool.not_eq_true] at hc
    have hcreates : (PathCall.sysOpen (some path) omode).creates s p = false := by
      rw [PathCall.creates, hc, Bool.false_and]
    rw [hcreates, hc]
    cases openPath (s.proc p).containerID path false with
    | error r => trivial
    | ok path' =>
      dsimp only
      rw [if_neg Bool.false_ne_true]
      refine (namei_halts hcached hR hset hcwd (mute_true _) p path').bind ?_
      rintro (_ | ip) t ⟨hnone, hsome⟩
      · obtain ⟨ht, hl⟩ := hnone rfl
        exact ⟨fun _ => ⟨rfl, hl.kept ht⟩, fun ip hip => absurd hip (Option.some_ne_none _).symm⟩
      · refine ((hsome ip rfl).ilock hR (mute_true _)).bind ?_
        rintro _ u ⟨⟨hu, -⟩, -⟩
        rw [run_get_bind]
        split_ifs
        · refine (hu.iunlockput hR (mute_true _)).bind ?_
          rintro _ v ⟨hv, hl⟩
          exact ⟨fun _ => ⟨rfl, hl.kept hv⟩, fun e he => absurd he (Option.some_ne_none _).symm⟩
        · refine ⟨fun h => absurd h (Option.some_ne_none _), ?_⟩
          rintro e he
          cases he
          exact ⟨fun _ => hu, False.elim⟩

/-- A new file stays where there is no descriptor for it. -/
theorem sysOpen_fails (hs : WellFormed sb s) (p : Slot) (path : Option CString) (omode : UInt32) :
    Halts (fun o t => o = none →
        ((PathCall.sysOpen path omode).creates s p = false → Kept (hold s) s.disk t) ∧
        ((PathCall.sysOpen path omode).creates s p = true → t.disk ≠ s.disk)) (fun _ => True)
      (sysOpen sb p path omode s) := by
  cases path with
  | none => exact fun _ => ⟨fun _ => ⟨rfl, hs.cached⟩, fun h => absurd h Bool.false_ne_true⟩
  | some path =>
    rw [sysOpen, beginOp, run_modify_bind]
    refine (openInode_found hs p path omode).bind ?_
    rintro (_ | ip) t ⟨hnone, hsome⟩
    · obtain ⟨hc, hkept⟩ := hnone rfl
      rw [hc]
      refine (hkept.endOp none).post fun _ _ h _ => ⟨fun _ => h, fun h => ?_⟩
      cases h
    · obtain ⟨hfound, hmade⟩ := hsome ip rfl
      have hfile : t.file = s.file := by
        cases hc : (PathCall.sysOpen (some path) omode).creates s p with
        | false => exact (hfound hc).looked.file
        | true => exact (hmade hc).file
      have hclosed : ∀ f, (t.file f).ref = 0 → (t.file f).kind = .none := by
        rw [hfile]
        exact hs.closed
      dsimp only
      refine (openFile_halts hclosed).bind ?_
      rintro (_ | ⟨f, fd⟩) u ⟨hsame, -⟩
      · obtain rfl := hsame rfl
        dsimp only
        cases hc : (PathCall.sysOpen (some path) omode).creates s p with
        | false =>
          refine ((hfound hc).finish (hold_nonneg s) none).post fun _ _ h _ => ⟨fun _ => h, ?_⟩
          intro h
          cases h
        | true =>
          have hm := hmade hc
          refine (iunlockput_stays (.inl hm.nlink)).bind fun _ v hv _ => ⟨fun h => ?_, fun _ heq => ?_⟩
          · cases h
          · have hdisk : u.disk = s.disk := hv.disk.symm.trans heq
            exact hm.alloc (by rw [hdisk]; exact hm.free)
      · exact Halts.skip fun _ v h => absurd h (Option.some_ne_none _)

/-! ### `sys_link` -/

/-- The link is taken back. -/
theorem linkBad_kept (hR : ∀ x, 0 ≤ R x) (ha : Anchored R s (s.cache ip).inum)
    (hsync : s.disk.inode (s.cache ip).inum = (s.cache ip).copy)
    (hl : Looked (R + one ip) (s.relink sb ip ((s.cache ip).copy.nlink + 1)) t)
    (ht : Cached (R + one ip) t) :
    Halts (fun r u => r = false → Kept R s.disk u) (fun _ => True) (linkBad sb ip t) := by
  have hpos := add_one_pos (hR ip)
  rw [linkBad]
  refine (ilock_halts ht hpos (mute_true t)).bind ?_
  rintro _ u ⟨hu, hlu, hv⟩
  have hsu := hl.trans hlu
  have hinum : ∀ x, 0 < (R + one ip) x → (u.cache x).inum = (s.cache x).inum := fun x hx =>
    (hsu.inum x hx).trans ((Retains.relink sb s ip _).inum x)
  have hcopy : (u.cache ip).copy = { (s.cache ip).copy with nlink := (s.cache ip).copy.nlink + 1 } := by
    rw [(hu.synced ip hpos hv).1, hsu.disk, hinum ip hpos, relink_inode, Function.update_self]
  rw [decLink, run_bind_ok (setCopy_run _ _ _), run_bind_ok (iupdate_relink _ _ _)]
  set v := u.relink sb ip ((u.cache ip).copy.nlink - 1)
  have hinode : v.disk.inode = s.disk.inode := by
    rw [relink_inode, hsu.disk, relink_inode, hinum ip hpos, hcopy, Function.update_idem,
      Int.add_sub_cancel, ← hsync, Function.update_eq_self]
  have hdisk : v.disk = s.disk := by
    calc v.disk = { u.disk with inode := v.disk.inode } := rfl
      _ = { s.disk with inode := v.disk.inode } := by rw [hsu.disk]; rfl
      _ = s.disk := by rw [hinode]
  have hanchor : Anchored R v (v.cache ip).inum := by
    have hkeep : ∀ x, 0 < (R + one ip) x → (v.cache x).inum = (s.cache x).inum := fun x hx =>
      ((Retains.relink sb u ip _).inum x).trans (hinum x hx)
    rw [hkeep ip hpos]
    exact ha.congr hdisk fun x hx => hkeep x (lt_add_one hx ip)
  refine (iunlockput_halts (hu.relink hpos hv _) hR hanchor (mute_true v)).bind ?_
  rintro _ w ⟨hw, hlw⟩
  exact (Kept.endOp ⟨hlw.disk.trans hdisk, hw⟩ false).post fun _ _ h _ => h

/-- `sys_link` once the inode has its new link. -/
theorem linkEntry_kept (hR : ∀ x, 0 ≤ R x) (ha : Anchored R s (s.cache ip).inum)
    (hsync : s.disk.inode (s.cache ip).inum = (s.cache ip).copy)
    (h : Cached (R + one ip) (s.relink sb ip ((s.cache ip).copy.nlink + 1)))
    (hset : Settled (R + one ip) (s.relink sb ip ((s.cache ip).copy.nlink + 1)))
    (hcwd : Seated R s) (p : Slot) (path : CString) :
    Halts (fun r t => r = false → Kept R s.disk t) (fun _ => True) ((do
      iunlock ip
      match ← nameiparent sb p path with
      | none => linkBad sb ip
      | some (dp, name) =>
        ilock dp
        if ← dirlink sb dp name ((← get).cache ip).inum then
          iunlockput sb dp
          iput sb ip
          endOp
          return true
        else
          iunlockput sb dp
          linkBad sb ip : Run Bool) (s.relink sb ip ((s.cache ip).copy.nlink + 1))) := by
  have hR' := add_one_nonneg hR ip
  have hcwd' : Seated (R + one ip) (s.relink sb ip ((s.cache ip).copy.nlink + 1)) :=
    fun p e he => lt_add_one (hcwd p e he) ip
  refine (iunlock_halts h trivial).bind ?_
  rintro _ t ⟨ht, hlt, -⟩
  refine (nameiparent_halts ht hR' (hlt.settled hset) (hcwd'.looked hlt) (mute_true t) p path).bind ?_
  rintro (_ | ⟨dp, name⟩) u ⟨-, hnone, hsome⟩
  · obtain ⟨hu, hlu⟩ := hnone rfl
    exact linkBad_kept hR ha hsync (hlt.trans hlu) hu
  · dsimp only
    refine ((hsome _ rfl).ilock hR' (mute_true t)).bind ?_
    rintro _ v ⟨⟨hv, -⟩, hvalid⟩
    rw [run_get_bind]
    refine (hv.dirlink hR' (hlt.settled hset) hvalid name _).bind ?_
    rintro r w hr
    cases r with
    | false =>
      refine ((hr rfl).iunlockput hR' (mute_true t)).bind ?_
      rintro _ x ⟨hx, hlx⟩
      exact linkBad_kept hR ha hsync (hlt.trans hlx) hx
    | true =>
      exact Halts.skip fun _ _ => Halts.skip fun _ x => Kept.of_true _

theorem sysLink_kept (hs : WellFormed sb s) (p : Slot) (old new : Option CString) :
    Halts (fun r t => r = false → Kept (hold s) s.disk t) (fun _ => True)
      (sysLink sb p old new s) := by
  obtain ⟨hcached, hset, hcwd⟩ := hs.begin
  have hR := hold_nonneg s
  cases old with
  | none => exact fun _ => ⟨rfl, hs.cached⟩
  | some old =>
  cases new with
  | none => exact fun _ => ⟨rfl, hs.cached⟩
  | some new =>
  rw [sysLink, beginOp, run_modify_bind]
  refine (namei_halts hcached hR hset hcwd (mute_true _) p old).bind ?_
  rintro (_ | ip) t ⟨hnone, hsome⟩
  · obtain ⟨ht, hl⟩ := hnone rfl
    exact ((hl.kept ht).endOp false).post fun _ _ h _ => h
  · refine ((hsome ip rfl).ilock hR (mute_true _)).bind ?_
    rintro _ u ⟨⟨hu, -⟩, hv⟩
    rw [run_get_bind]
    split_ifs
    · exact (hu.finish hR false).post fun _ _ h _ => h
    · have hpos := add_one_pos (hR ip)
      refine (incLink_halts trivial).bind ?_
      rintro _ v rfl
      rw [run_bind_ok (iupdate_relink _ _ _)]
      have hsync := (hu.cached.synced ip hpos hv).1.symm
      have hset' := settled_relink sb hpos hsync ((u.cache ip).copy.nlink + 1)
        ((hu.looked.settled hset).add hu.anchored)
      have hkept := linkEntry_kept hR hu.anchored hsync (hu.cached.relink hpos hv _) hset'
        (hcwd.looked hu.looked) p new
      rw [hu.looked.disk] at hkept
      exact hkept

/-! ### All calls -/

theorem PathCall.run_fails (hs : WellFormed sb s) (p : Slot) (c : PathCall) :
    Halts (fun r t => r = false → (c.creates s p = false → Kept (hold s) s.disk t) ∧
        (c.creates s p = true → t.disk ≠ s.disk)) (fun _ => True) (c.run sb p s) := by
  have hother : ∀ r t, (r = false → Kept (hold s) s.disk t) → r = false →
      (false = false → Kept (hold s) s.disk t) ∧ (false = true → t.disk ≠ s.disk) :=
    fun r t h hr => ⟨fun _ => h hr, fun hf => absurd hf Bool.false_ne_true⟩
  cases c with
  | sysOpen path omode =>
    refine (sysOpen_fails hs p path omode).bind ?_
    rintro o t ht
    exact fun h => ht (Option.isSome_eq_false_iff.1 h |> Option.isNone_iff_eq_none.1)
  | sysMkdir path => exact (sysMake_kept hs p path .dir 0 0).post hother
  | sysMknod path major minor => exact (sysMake_kept hs p path .dev major minor).post hother
  | sysLink old new => exact (sysLink_kept hs p old new).post hother
  | sysUnlink path => exact (sysUnlink_kept hs p path).post hother
  | sysChdir path => exact (sysChdir_kept hs p path).post hother

/-- Process 0 has all its descriptors on a pipe. -/
def noDescriptor : State :=
  { emptyRoot with
    file := fun f => if f = 0 then ⟨16, .pipe, 0, true, true⟩ else ⟨0, .none, 0, false, false⟩
    proc := fun p => ⟨0, if p = 0 then some 0 else none, fun _ => if p = 0 then some 0 else none⟩ }

theorem noDescriptor_wellFormed : WellFormed smallSb noDescriptor := by
  have hs := emptyRoot_wellFormed
  have hhold : hold noDescriptor = hold emptyRoot := by
    funext e
    have hfile : (fun f => (noDescriptor.file f).kind.ip) = fun f => (emptyRoot.file f).kind.ip := by
      funext f
      simp only [noDescriptor]
      split_ifs <;> rfl
    rw [hold, hold, hfile]
    rfl
  refine ⟨?_, ?_, hs.owned, ?_⟩
  · rw [hhold]
    exact hs.cached.congr rfl rfl
  · rw [hhold]
    exact ⟨hs.settled.root, hs.settled.next⟩
  · intro f href
    simp only [noDescriptor] at href ⊢
    split_ifs at href ⊢
    · cases href
    · rfl

end Xv6Container.Ops
