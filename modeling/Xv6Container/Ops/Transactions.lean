import Xv6Container.Lib.Tally
import Xv6Container.Ops.Create

/-! The transactions of the calls that look up paths. Between two calls the file system is well formed;
then a lookup logs nothing, and what a call logs after its lookups is within the budget. -/

namespace Xv6Container.Ops

open Lib
open Fs (FileType Dinode Entry Stop CString openPath)
open Names (NOFILE NFILE SHRT_MAX one one_self add_one_pos add_one_nonneg lt_add_one gain ptr Slot
  FileId Fd Name O_WRONLY O_RDWR O_CREATE)
open Log (MAXOPBLOCKS)

/-! ### Between two calls -/

def FileKind.ip : FileKind → Option Entry
  | .inode ip => some ip
  | .none | .pipe => Option.none

/-- The references of the current directories and of the open files. -/
def hold (s : State) : Entry → ℤ := fun e =>
  tally (fun p => (s.proc p).cwd) e + tally (fun f => (s.file f).kind.ip) e

/-- The references are those of the holders, no live directory leads to an inode that is to be freed, the
bitmap marks the blocks of the inodes, and a file that nobody has open stands for nothing. -/
structure WellFormed (sb : Superblock) (s : State) : Prop where
  cached : Cached (hold s) s
  settled : Settled (hold s) s
  owned : Owned sb s.disk.inode s.disk.used s.disk.data
  closed : ∀ f, (s.file f).ref = 0 → (s.file f).kind = .none

variable {sb : Superblock} {K : Finset ℕ} {n i : ℕ} {R : Entry → ℤ} {e dp ip : Entry}
  {s t u : State} {f : FileId} {p : Slot} {path : CString}

theorem hold_nonneg (s : State) (e : Entry) : 0 ≤ hold s e :=
  add_nonneg (tally_nonneg _ e) (tally_nonneg _ e)

theorem seated_hold (s : State) : Seated (hold s) s := by
  intro p e he
  exact add_pos_of_pos_of_nonneg (tally_pos (f := fun p => (s.proc p).cwd) he) (tally_nonneg _ e)

theorem Seated.looked (h : Seated R s) (hl : Looked R s t) : Seated R t := by
  intro p e he
  rw [hl.proc] at he
  exact h p e he

theorem Seated.mono {R' : Entry → ℤ} (h : Seated R s) (hle : ∀ e, 0 < R e → 0 < R' e) :
    Seated R' s :=
  fun p e he => hle e (h p e he)

/-- `begin_op` -/
theorem WellFormed.begin (hs : WellFormed sb s) :
    Cached (hold s) { s with logged := ∅ } ∧ Settled (hold s) { s with logged := ∅ } ∧
      Seated (hold s) { s with logged := ∅ } :=
  ⟨hs.cached.congr rfl rfl, ⟨hs.settled.root, hs.settled.next⟩, seated_hold s⟩

theorem Budget.start (h : Budget s) :
    Spent ∅ 0 { s with logged := ∅ } ∧ Mute Budget { s with logged := ∅ } :=
  ⟨h.begin ∅, ((h.begin ∅).budget (by decide)).mute⟩

/-! ### A link more or less -/

section Relink

variable (sb) (he : 0 < R e) (hsync : s.disk.inode (s.cache e).inum = (s.cache e).copy) (k : ℤ)
include he

theorem live_relink : Live R (s.relink sb e k) i ↔ Live R s i := by
  by_cases hie : i = (s.cache e).inum
  · subst hie
    exact iff_of_true (.inr ⟨e, he, (Retains.relink sb s e k).inum e⟩) (.inr ⟨e, he, rfl⟩)
  · rw [Live, Live, relink_inode, Function.update_of_ne hie]
    simp only [(Retains.relink sb s e k).inum]

include hsync

theorem anchored_relink (h : Anchored R s i) : Anchored R (s.relink sb e k) i := by
  intro hi
  rw [live_relink sb he]
  refine h ?_
  rw [relink_inode] at hi
  by_cases hie : i = (s.cache e).inum
  · rw [hie, Function.update_self] at hi
    rw [hie, hsync]
    exact hi
  · rwa [Function.update_of_ne hie] at hi

theorem settled_relink (h : Settled R s) : Settled R (s.relink sb e k) := by
  refine ⟨anchored_relink sb he hsync k h.root, fun i name x hi hlive hx => ?_⟩
  apply anchored_relink sb he hsync
  rw [live_relink sb he] at hlive
  rw [relink_inode] at hi hx
  by_cases hie : i = (s.cache e).inum
  · rw [hie, Function.update_self] at hi hx
    refine h.next i name x ?_ hlive ?_
    · rw [hie, hsync]
      exact hi
    · rw [hie, hsync, ← hx]
      refine (find_congr ?_ ?_ ?_ name).symm <;> rfl
  · rw [Function.update_of_ne hie] at hi hx
    refine h.next i name x hi hlive ?_
    rw [← hx]
    refine (find_congr ?_ ?_ ?_ name).symm <;> rfl

end Relink

theorem Cached.relink (h : Cached R s) (he : 0 < R e) (hv : (s.cache e).valid = true) (k : ℤ) :
    Cached R (s.relink sb e k) := by
  obtain ⟨hsync, htype⟩ := h.synced e he hv
  have hinum : ∀ x, ((s.relink sb e k).cache x).inum = (s.cache x).inum :=
    (Retains.relink sb s e k).inum
  refine ⟨⟨?_, ?_, ?_⟩, ?_⟩
  · intro x
    by_cases hx : x = e
    · rw [hx, relink_cache]
      exact h.count e
    · rw [relink_of_ne hx, h.count]
  · intro x y hx hy hxy
    rw [hinum, hinum] at hxy
    exact h.distinct x y hx hy hxy
  · intro x hx hxv
    by_cases hxe : x = e
    · subst hxe
      rw [relink_cache, relink_inode, Function.update_self]
      exact ⟨rfl, htype⟩
    · rw [relink_of_ne hxe] at hxv ⊢
      rw [relink_inode, Function.update_of_ne fun heq => hxe (h.distinct x e hx he heq)]
      exact h.synced x hx hxv
  · intro i hi
    rw [relink_inode] at hi ⊢
    by_cases hie : i = (s.cache e).inum
    · subst hie
      rw [Function.update_self] at hi ⊢
      have hold : s.disk.Solid (s.disk.inode (s.cache e).inum) := by
        apply h.whole
        rwa [← hsync]
      rw [← hsync] at hold
      exact hold.congr rfl rfl rfl
    · rw [Function.update_of_ne hie] at hi ⊢
      exact (h.whole i hi).congr rfl rfl rfl

/-! ### `sys_link` -/

/-- What is left of a transaction with a locked inode. -/
theorem unlockput_budget {α : Type} (h : Spent K n s) (hbm : sb.bmapstart ∈ K)
    (hK : K.card + n ≤ MAXOPBLOCKS) (hib : sb.iblock (s.cache ip).inum ∈ K) (a : α) :
    Halts (fun _ => Budget) Budget ((do
      iunlockput sb ip
      endOp
      return a : Run α) s) := by
  refine (iunlockput_costs hbm hK h hib).bind ?_
  rintro _ t ⟨ht, -⟩
  exact (ht.budget hK).finish

theorem linkBad_costs (h : Spent K n s) (hbm : sb.bmapstart ∈ K)
    (hib : sb.iblock (s.cache ip).inum ∈ K) (hK : K.card + n ≤ MAXOPBLOCKS) :
    Halts (fun _ => Budget) Budget (linkBad sb ip s) := by
  rw [linkBad]
  refine (ilock_costs hK h).bind ?_
  rintro _ t ⟨ht, hkeep⟩
  refine (setCopy_costs ht ip _).bind ?_
  rintro _ u ⟨hu, hkeep'⟩
  have hu' := hkeep.trans hkeep'
  refine (iupdate_costs hu (by rwa [hu'.inum])).bind ?_
  rintro _ v ⟨hv, hkeep''⟩
  have hv' := hu'.trans hkeep''
  refine (iunlockput_costs hbm hK hv (by rwa [hv'.inum])).bind ?_
  rintro _ w ⟨hw, -⟩
  exact (hw.budget hK).finish

/-- `sys_link` once the inode has its new link: the bitmap and two inodes, and two other blocks. -/
theorem linkEntry_budget (h : Cached (R + one ip) s) (hR : ∀ x, 0 ≤ R x)
    (hset : Settled (R + one ip) s) (hcwd : Seated R s)
    (hs : Spent (named₁ sb (s.cache ip).inum) 0 s) :
    Halts (fun _ => Budget) Budget ((do
      iunlock ip
      match ← nameiparent sb p path with
      | none => linkBad sb ip
      | some (dp, name) =>
        ilock dp
        if ← dirlink sb dp name ((← get).cache ip).inum then
          iunlockput sb dp
          iput sb ip
          endOp
          return true
        else
          iunlockput sb dp
          linkBad sb ip : Run Bool) s) := by
  have hmax := maxopblocks_eq
  have hcard := card_named₁ sb (s.cache ip).inum
  have hE : Mute Budget s := (hs.budget (by omega)).mute
  have hpos := add_one_pos (hR ip)
  have hR' := add_one_nonneg hR ip
  refine (iunlock_halts h hE.self).bind ?_
  rintro _ t ⟨ht, hlt, -⟩
  have hcwd' : Seated (R + one ip) t := (hcwd.mono fun _ hx => lt_add_one hx ip).looked hlt
  refine (nameiparent_halts ht hR' (hlt.settled hset) hcwd' (hlt.mute hE) p path).bind ?_
  rintro (_ | ⟨dp, name⟩) u ⟨-, hnone, hsome⟩
  · have hsu := hlt.trans (hnone rfl).2
    refine linkBad_costs (hs.congr hsu.logged hsu.ended) (bmap_mem sb _) ?_ (by omega)
    rw [hsu.inum ip hpos]
    exact iblock_mem sb _
  · have hdpos := add_one_pos (hR' dp)
    dsimp only
    refine ((hsome _ rfl).ilock hR' (hlt.mute hE)).bind ?_
    rintro _ v ⟨⟨hv, -⟩, hvalid⟩
    have hsv : Looked (R + one ip) s v := hlt.trans hv.looked
    rw [run_get_bind]
    have hip : sb.iblock (v.cache ip).inum ∈
        insert (sb.iblock (v.cache dp).inum) (named₁ sb (s.cache ip).inum) := by
      rw [hsv.inum ip hpos]
      exact Finset.mem_insert_of_mem (iblock_mem sb _)
    have hdp := Finset.mem_insert_self (sb.iblock (v.cache dp).inum) (named₁ sb (s.cache ip).inum)
    have hcard' := Finset.card_insert_le (sb.iblock (v.cache dp).inum) (named₁ sb (s.cache ip).inum)
    have hbm := Finset.mem_insert_of_mem (b := sb.iblock (v.cache dp).inum)
      (bmap_mem sb (s.cache ip).inum)
    have hspent := (hs.congr hsv.logged hsv.ended).weaken (sb.iblock (v.cache dp).inum)
    set K := insert (sb.iblock (v.cache dp).inum) (named₁ sb (s.cache ip).inum)
    refine (dirlink_costs hspent hbm hdp (by omega) (fun htype =>
      (hv.cached.loaded hdpos hvalid htype).solid) name _).bind ?_
    rintro r w ⟨hw, hanchor, -⟩
    have hdp' : sb.iblock (w.cache dp).inum ∈ K := by
      rwa [hanchor.inum dp (hv.cached.count dp ▸ hdpos)]
    have hip' : sb.iblock (w.cache ip).inum ∈ K := by
      rwa [hanchor.inum ip (hv.cached.count ip ▸ lt_add_one hpos dp)]
    cases r with
    | false =>
      refine (iunlockput_costs hbm (by omega) hw hdp').bind ?_
      rintro _ x ⟨hx, hkeep⟩
      exact linkBad_costs hx hbm (by rwa [hkeep.inum]) (by omega)
    | true =>
      refine (iunlockput_costs hbm (by omega) hw hdp').bind ?_
      rintro _ x ⟨hx, hkeep⟩
      refine (iput_costs hbm (by omega) hx (by rwa [hkeep.inum])).bind ?_
      rintro _ y ⟨hy, -⟩
      exact (hy.budget (by omega)).finish

theorem sysLink_budget (hs : WellFormed sb s) (h : Budget s) (p : Slot) (old new : Option CString) :
    Halts (fun _ => Budget) Budget (sysLink sb p old new s) := by
  have hmax := maxopblocks_eq
  cases old with
  | none => exact h
  | some old =>
  cases new with
  | none => exact h
  | some new =>
  rw [sysLink, beginOp, run_modify_bind]
  obtain ⟨hcached, hset, hcwd⟩ := hs.begin
  obtain ⟨hbegin, hE⟩ := h.start
  have hR := hold_nonneg s
  refine (namei_halts hcached hR hset hcwd hE p old).bind ?_
  rintro (_ | ip) t ⟨hnone, hsome⟩
  · exact ((hnone rfl).2.mute hE).self.finish
  · refine ((hsome ip rfl).ilock hR hE).bind ?_
    rintro _ u ⟨⟨hu, -⟩, hv⟩
    rw [run_get_bind]
    split_ifs
    · refine (hu.iunlockput hR hE).bind ?_
      rintro _ v ⟨-, hl⟩
      exact (hl.mute hE).self.finish
    · have hpos := add_one_pos (hR ip)
      refine (incLink_halts (hu.looked.mute hE).self).bind ?_
      rintro _ t rfl
      rw [run_bind_ok (iupdate_relink _ _ _)]
      have hspent : Spent (named₁ sb (u.cache ip).inum) 0 u :=
        (hbegin.of_empty _).congr hu.looked.logged hu.looked.ended
      have hsync := (hu.cached.synced ip hpos hv).1.symm
      have hset' := settled_relink sb hpos hsync ((u.cache ip).copy.nlink + 1)
        ((hu.looked.settled hset).add hu.anchored)
      have hcwd' : Seated (hold s) u := hcwd.looked hu.looked
      refine linkEntry_budget (hu.cached.relink hpos hv _) hR hset' hcwd' ?_
      rw [(Retains.relink sb u ip _).inum]
      exact hspent.relink (iblock_mem sb _) _

/-! ### `sys_unlink` -/

theorem isdirempty_reads (h : s.disk.Solid (s.cache dp).copy) :
    Reads s (fun _ => True) (isdirempty sb dp s) := by
  rw [isdirempty, run_get_bind]
  refine Halts.bind (direntLoop_reads h (Nat.dvd_mul_left _ _)) ?_
  rintro de t ⟨rfl, -⟩
  exact ⟨rfl, trivial⟩

/-- Whether `sys_unlink` refuses a directory that is not empty. -/
theorem full_reads (h : (s.cache ip).copy.type = .dir → s.disk.Solid (s.cache ip).copy) :
    Reads s (fun _ => True) ((do
      if (s.cache ip).copy.type = .dir then return !(← isdirempty sb ip) else return false
      : Run Bool) s) := by
  split_ifs with htype
  · refine Halts.bind (isdirempty_reads (h htype)) ?_
    rintro _ t ⟨rfl, -⟩
    exact ⟨rfl, trivial⟩
  · exact ⟨rfl, trivial⟩

/-- The bitmap and two inodes, and four other blocks. -/
theorem unlinkEntry_budget {off : ℕ} (h : Cached (R + one dp + one ip) s) (hR : ∀ x, 0 ≤ R x)
    (hs : Spent ∅ 0 s) :
    Halts (fun _ => Budget) Budget (unlinkEntry sb dp ip off s) := by
  have hmax := maxopblocks_eq
  have hE : Mute Budget s := (hs.budget (by decide)).mute
  have hpos : 0 < (R + one dp + one ip) ip := add_one_pos (add_one_nonneg hR dp ip)
  rw [unlinkEntry]
  refine (ilock_halts h hpos hE).bind ?_
  rintro _ t ⟨ht, hlt, hv⟩
  have hspent : Spent (insert (sb.iblock (t.cache ip).inum) (named₁ sb (t.cache dp).inum)) 0 t :=
    (hs.of_empty _).congr hlt.logged hlt.ended
  have hbm := Finset.mem_insert_of_mem (b := sb.iblock (t.cache ip).inum)
    (bmap_mem sb (t.cache dp).inum)
  have hdp := Finset.mem_insert_of_mem (b := sb.iblock (t.cache ip).inum)
    (iblock_mem sb (t.cache dp).inum)
  have hip := Finset.mem_insert_self (sb.iblock (t.cache ip).inum) (named₁ sb (t.cache dp).inum)
  have hcard := (Finset.card_insert_le (sb.iblock (t.cache ip).inum)
    (named₁ sb (t.cache dp).inum)).trans (Nat.succ_le_succ (card_named₁ sb (t.cache dp).inum))
  set K := insert (sb.iblock (t.cache ip).inum) (named₁ sb (t.cache dp).inum)
  rw [run_get_bind]
  dsimp only
  by_cases hlink : (t.cache ip).copy.nlink < 1
  · rw [if_pos hlink]
    exact hspent.budget (by omega)
  rw [if_neg hlink]
  refine (Halts.mono (full_reads fun htype => (ht.loaded hpos hv htype).solid) (fun _ _ => id)
    ?_).bind ?_
  · rintro u rfl
    exact hspent.budget (by omega)
  rintro full u ⟨rfl, -⟩
  cases full with
  | true =>
    refine (iunlockput_costs hbm (by omega) hspent hip).bind ?_
    rintro _ v ⟨hv, hkeep⟩
    refine (iunlockput_costs hbm (by omega) hv (by rwa [hkeep.inum])).bind ?_
    rintro _ w ⟨hw, -⟩
    exact (hw.budget (by omega)).finish
  | false =>
    have hlast : ∀ v, Spent K 5 v → Retains u v → Halts (fun _ => Budget) Budget ((do
        iunlockput sb dp
        decLink ip
        iupdate sb ip
        iunlockput sb ip
        endOp
        return true : Run Bool) v) := by
      intro v hv hkeep
      refine (iunlockput_costs hbm (by omega) hv (by rwa [hkeep.inum])).bind ?_
      rintro _ w ⟨hw, hkeepw⟩
      refine (setCopy_costs hw ip _).bind ?_
      rintro _ x ⟨hx, hkeepx⟩
      have hux := (hkeep.trans hkeepw).trans hkeepx
      refine (iupdate_costs hx (by rwa [hux.inum])).bind ?_
      rintro _ y ⟨hy, hkeepy⟩
      refine (iunlockput_costs hbm (by omega) hy (by rwa [(hux.trans hkeepy).inum])).bind ?_
      rintro _ z ⟨hz, -⟩
      exact (hz.budget (by omega)).finish
    have hblocks : blocksOf (UInt32.ofNat off).toNat (UInt32.ofNat DIRENT).toNat ≤ 4 :=
      blocksOf_le _ (by decide)
    refine (writei_costs hspent hbm hdp (by omega)).bind ?_
    rintro r v ⟨hv, hkeep⟩
    have hv' : Spent K 5 v := hv.mono (by omega)
    split_ifs
    · exact hv'.budget (by omega)
    · refine (setCopy_costs hv' dp _).bind ?_
      rintro _ w ⟨hw, hkeepw⟩
      have huw := hkeep.trans hkeepw
      refine (iupdate_costs hw (by rwa [huw.inum])).bind ?_
      rintro _ x ⟨hx, hkeepx⟩
      exact hlast x hx (huw.trans hkeepx)
    · exact hlast v hv' hkeep

theorem sysUnlink_budget (hs : WellFormed sb s) (h : Budget s) (p : Slot) (path : Option CString) :
    Halts (fun _ => Budget) Budget (sysUnlink sb p path s) := by
  cases path with
  | none => exact h
  | some path =>
  rw [sysUnlink, beginOp, run_modify_bind]
  obtain ⟨hcached, hset, hcwd⟩ := hs.begin
  obtain ⟨hbegin, hE⟩ := h.start
  have hR := hold_nonneg s
  refine (nameiparent_halts hcached hR hset hcwd hE p path).bind ?_
  rintro (_ | ⟨dp, name⟩) t ⟨-, hnone, hsome⟩
  · exact ((hnone rfl).2.mute hE).self.finish
  · have hbad : ∀ u, Found (hold s) dp { s with logged := ∅ } u → Halts (fun _ => Budget) Budget ((do
        iunlockput sb dp
        endOp
        return false : Run Bool) u) := by
      intro u hu
      refine (hu.iunlockput hR hE).bind ?_
      rintro _ v ⟨-, hl⟩
      exact (hl.mute hE).self.finish
    dsimp only
    refine ((hsome _ rfl).ilock hR hE).bind ?_
    rintro _ u ⟨⟨hu, -⟩, hv⟩
    split_ifs
    · exact hbad u hu
    · refine (hu.dirlookup hR hE hset hv name).bind ?_
      rintro (_ | ⟨ip, off⟩) v ⟨-, -, hsame, hboth⟩
      · rw [hsame rfl]
        exact hbad u hu
      · have hv := hboth _ rfl
        exact unlinkEntry_budget hv.cached hR (hbegin.congr hv.looked.logged hv.looked.ended)

/-! ### `sys_chdir` -/

theorem sysChdir_budget (hs : WellFormed sb s) (h : Budget s) (p : Slot) (path : Option CString) :
    Halts (fun _ => Budget) Budget (sysChdir sb p path s) := by
  obtain ⟨hcached, hset, hcwd⟩ := hs.begin
  obtain ⟨hbegin, hE⟩ := h.start
  have hR := hold_nonneg s
  cases path with
  | none => exact hE.self.finish
  | some path =>
    rw [sysChdir, beginOp, run_modify_bind]
    refine (namei_halts hcached hR hset hcwd hE p path).bind ?_
    rintro (_ | ip) t ⟨hnone, hsome⟩
    · exact ((hnone rfl).2.mute hE).self.finish
    · refine ((hsome ip rfl).ilock hR hE).bind ?_
      rintro _ u ⟨⟨hu, -⟩, -⟩
      rw [run_get_bind]
      split_ifs
      · refine (hu.iunlockput hR hE).bind ?_
        rintro _ v ⟨-, hl⟩
        exact (hl.mute hE).self.finish
      · refine (iunlock_halts hu.cached (hu.looked.mute hE).self).bind ?_
        rintro _ v ⟨-, hlv, -⟩
        have hsv := hu.looked.trans hlv.drop
        obtain ⟨-, K, n, hspent, hbm, hK, hib⟩ := hsv.charged sb hbegin ((v.proc p).cwd)
        refine (putCwd_costs hspent hbm hK hib).bind ?_
        intro _ w hw
        exact (hw.budget hK).finish.congr rfl rfl

/-! ### `sys_open`, `sys_mkdir` and `sys_mknod` -/

theorem filealloc_halts {E : State → Prop} :
    Halts (fun o t => (o = none → t = s) ∧
        ∀ f, o = some f → (s.file f).ref = 0 ∧ t = s.setFile f { s.file f with ref := 1 }) E
      (filealloc s) := by
  simp only [filealloc, run_get_bind]
  cases hf : (List.finRange NFILE).find? fun f => (s.file f).ref = 0 with
  | none => exact ⟨fun _ => rfl, nofun⟩
  | some f =>
    have hzero := List.find?_some hf
    simp only [decide_eq_true_eq] at hzero
    refine ⟨nofun, ?_⟩
    rintro g hg
    cases hg
    exact ⟨hzero, rfl⟩

theorem fdalloc_halts {E : State → Prop} :
    Halts (fun o t => (o = none → t = s) ∧
        ∀ fd, o = some fd → t = s.setProc p { s.proc p with
          ofile := Function.update (s.proc p).ofile fd (some f) }) E (fdalloc p f s) := by
  simp only [fdalloc, run_get_bind]
  cases (List.finRange NOFILE).find? fun fd => ((s.proc p).ofile fd).isNone with
  | none => exact ⟨fun _ => rfl, nofun⟩
  | some fd =>
    refine ⟨nofun, ?_⟩
    rintro fd' hfd
    cases hfd
    rfl

/-- A file that has just been allocated is closed again. -/
theorem fileclose_run (href : (s.file f).ref = 1) (hkind : (s.file f).kind = .none) :
    fileclose sb f s = .ok () (s.setFile f { s.file f with ref := 0, kind := .none }) := by
  rw [fileclose, run_get_bind]
  dsimp only
  rw [href, hkind, if_neg (by decide), if_neg (by decide)]
  rfl

/-- Without a descriptor the file is given back. -/
theorem openFile_halts {E : State → Prop}
    (hclosed : ∀ f, (s.file f).ref = 0 → (s.file f).kind = .none) :
    Halts (fun o t => (o = none → t = s) ∧ t.cache = s.cache ∧ t.logged = s.logged ∧
        t.ended = s.ended) E (openFile sb p s) := by
  rw [openFile]
  refine filealloc_halts.bind ?_
  rintro (_ | f) t ⟨hnone, hsome⟩
  · obtain rfl := hnone rfl
    exact ⟨fun _ => rfl, rfl, rfl, rfl⟩
  · obtain ⟨hzero, rfl⟩ := hsome f rfl
    dsimp only
    refine fdalloc_halts.bind ?_
    rintro (_ | fd) u ⟨hnone', hsome'⟩
    · obtain rfl := hnone' rfl
      dsimp only
      rw [run_bind_ok (fileclose_run ?_ ?_)]
      · refine ⟨fun _ => ?_, rfl, rfl, rfl⟩
        have hback : ({ s.file f with ref := 0, kind := .none } : File) = s.file f := by
          rw [← hzero, ← hclosed f hzero]
        simp only [State.setFile, Function.update_self, Function.update_idem, hback,
          Function.update_eq_self]
      · rw [State.setFile_self]
      · rw [State.setFile_self]
        exact hclosed f hzero
    · obtain rfl := hsome' fd rfl
      exact ⟨fun h => absurd h (Option.some_ne_none _), rfl, rfl, rfl⟩

theorem sysMake_budget (hs : WellFormed sb s) (h : Budget s) (p : Slot) (path : Option CString)
    (type : FileType) (major minor : ℤ) :
    Halts (fun _ => Budget) Budget (sysMake sb p path type major minor s) := by
  obtain ⟨hcached, hset, hcwd⟩ := hs.begin
  obtain ⟨hbegin, hE⟩ := h.start
  cases path with
  | none => exact hE.self.finish
  | some path =>
    rw [sysMake, beginOp, run_modify_bind]
    refine (create_costs hcached (hold_nonneg s) hset hcwd hs.owned hbegin p path type major minor).bind ?_
    rintro o t ⟨-, K, n, hspent, hbm, hK, hib⟩
    cases o with
    | none => exact (hspent.budget hK).finish
    | some ip => exact unlockput_budget hspent hbm hK (hib ip rfl) true

theorem openInode_costs (hs : WellFormed sb s) (h : Budget s) (p : Slot) (path : CString)
    (omode : UInt32) :
    Halts (fun o t => Charged sb o { s with logged := ∅ } t) Budget
      (openInode sb p path omode { s with logged := ∅ }) := by
  obtain ⟨hcached, hset, hcwd⟩ := hs.begin
  obtain ⟨hbegin, hE⟩ := h.start
  have hR := hold_nonneg s
  rw [openInode, run_get_bind]
  cases openPath (s.proc p).containerID path (omode &&& O_CREATE != 0) with
  | error r => exact hE.self
  | ok path' =>
    dsimp only
    split_ifs
    · exact create_costs hcached hR hset hcwd hs.owned hbegin p path' .file 0 0
    · refine (namei_halts hcached hR hset hcwd hE p path').bind ?_
      rintro (_ | ip) t ⟨hnone, hsome⟩
      · exact (hnone rfl).2.charged sb hbegin none
      · dsimp only
        refine ((hsome ip rfl).ilock hR hE).bind ?_
        rintro _ u ⟨⟨hu, -⟩, -⟩
        rw [run_get_bind]
        split_ifs
        · refine (hu.iunlockput hR hE).bind ?_
          rintro _ v ⟨-, hl⟩
          exact hl.charged sb hbegin none
        · exact hu.looked.charged sb hbegin (some ip)

theorem sysOpen_budget (hs : WellFormed sb s) (h : Budget s) (p : Slot) (path : Option CString)
    (omode : UInt32) : Halts (fun _ => Budget) Budget (sysOpen sb p path omode s) := by
  cases path with
  | none => exact h
  | some path =>
    rw [sysOpen, beginOp, run_modify_bind]
    refine (openInode_costs hs h p path omode).bind ?_
    rintro o t ⟨hfile, K, n, hspent, hbm, hK, hib⟩
    cases o with
    | none => exact (hspent.budget hK).finish
    | some ip =>
      have hsame : t.file = s.file := hfile
      have hclosed : ∀ f, (t.file f).ref = 0 → (t.file f).kind = .none := by
        rw [hsame]
        exact hs.closed
      have hip := hib ip rfl
      refine (openFile_halts hclosed).bind ?_
      rintro (_ | ⟨f, fd⟩) u ⟨-, hcache, hlogged, hended⟩
      · exact unlockput_budget (hspent.congr hlogged hended) hbm hK (by rwa [hcache]) none
      · have hu := hspent.congr hlogged hended
        dsimp only
        refine (iunlock_costs hK hu).bind ?_
        rintro _ v ⟨hv, -⟩
        exact (hv.budget hK).finish.congr rfl rfl

/-! ### The budget -/

/-- An empty root directory, which is the current directory of process 0. -/
def emptyRoot : State :=
  { oneFile .dir with proc := fun p => ⟨0, if p = 0 then some 0 else none, fun _ => none⟩ }

theorem hold_emptyRoot (e : Entry) : hold emptyRoot e = if e = 0 then 1 else 0 := by
  have hcwd : (fun p => (emptyRoot.proc p).cwd) = Function.update (fun _ => none) 0 (some 0) := by
    funext p
    rw [Function.update_apply]
    rfl
  have hfile : (fun f => (emptyRoot.file f).kind.ip) = fun _ => none := rfl
  rw [hold, hcwd, hfile, tally_update, tally_none, tally_none]
  by_cases he : e = 0
  · simp [he]
  · simp [he, Ne.symm he]

theorem emptyRoot_wellFormed : WellFormed smallSb emptyRoot := by
  have hpos : ∀ e, 0 < hold emptyRoot e → e = 0 := by
    intro e he
    by_contra hne
    rw [hold_emptyRoot, if_neg hne] at he
    exact absurd he (lt_irrefl 0)
  have hsize : ∀ i, (emptyRoot.disk.inode i).size = 0 := by
    intro i
    simp only [emptyRoot, oneFile]
    split_ifs <;> rfl
  have hone : 0 < hold emptyRoot 0 := by
    rw [hold_emptyRoot]
    decide
  refine ⟨⟨⟨?_, ?_, ?_⟩, ?_⟩, ⟨?_, ?_⟩, (oneFile_held .dir (by decide)).owned, fun _ _ => rfl⟩
  · intro e
    rw [hold_emptyRoot]
    simp only [emptyRoot, oneFile]
    split_ifs <;> rfl
  · intro e e' he he' _
    rw [hpos e he, hpos e' he']
  · intro e he _
    rw [hpos e he]
    exact ⟨rfl, by decide⟩
  · intro i _ bn hbn
    rw [hsize] at hbn
    exact absurd hbn (Nat.not_lt_zero _)
  · exact fun _ => .inr ⟨0, hone, rfl⟩
  · intro i name x _ _ hx
    rw [Disk.find, hsize] at hx
    cases hx

end Xv6Container.Ops
