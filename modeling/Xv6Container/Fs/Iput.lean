import Mathlib.Algebra.BigOperators.Group.Finset.Basic
import Mathlib.Algebra.Order.BigOperators.Group.Finset
import Xv6Container.Fs.Inodes

/-! References to inodes by many processes. `iput` decides under `ip->lock` whether it drops
the last reference and decrements `ref` in a section of its own afterwards, so its sections
are steps: take the lock, read `ref`, free the inode or not and release the lock, decrement.
The other operations run under the lock they take. -/

namespace Xv6Container.Fs.Iput

open Lib

abbrev NPROC : ℕ := 64
abbrev Slot := Fin NPROC

/-! ### Processes -/

/-- Where a process is in `iput`: outside, before `ref` is read, after that with the answer
to `r == 1` on an inode without links, or before the decrement. -/
inductive Pc where
  | idle
  | locked (e : Entry)
  | decided (e : Entry) (last : Bool)
  | put (e : Entry)
  deriving DecidableEq

/-- The entry whose reference the process drops. -/
def Pc.entry : Pc → Option Entry
  | .idle => none
  | .locked e | .decided e _ | .put e => some e

/-- The entry whose lock the process has. -/
def Pc.locks : Pc → Option Entry
  | .idle | .put _ => none
  | .locked e | .decided e _ => some e

/-- The entry for which the process has decided not to free the inode. -/
def Pc.passed : Pc → Option Entry
  | .idle | .locked _ | .decided _ true => none
  | .decided e false | .put e => some e

/-- `held p e` counts the pointers to entry `e` that process `p` has to put back. -/
structure Sys where
  fs : FsState
  held : Slot → Entry → ℕ
  pc : Slot → Pc

inductive Act where
  | create (p : Slot) (type : FileType) (major minor : ℤ)
  | iget (p : Slot) (inum : Inum)
  | idup (p : Slot) (e : Entry)
  | work (p : Slot) (a : Fs.Act)
  | iput (p : Slot) (e : Entry)
  | step (p : Slot)

namespace Sys

def goto (s : Sys) (p : Slot) (pc : Pc) : Sys := { s with pc := Function.update s.pc p pc }

def setHeld (s : Sys) (p : Slot) (e : Entry) (n : ℕ) : Sys :=
  { s with held := Function.update s.held p (Function.update (s.held p) e n) }

def setFs (s : Sys) (fs : FsState) : Sys := { s with fs := fs }

section Updates

variable (s : Sys) (p : Slot) (pc : Pc) (e : Entry) (n : ℕ) (fs : FsState)

@[simp] theorem goto_fs : (s.goto p pc).fs = s.fs := rfl
@[simp] theorem goto_held : (s.goto p pc).held = s.held := rfl
@[simp] theorem goto_self : (s.goto p pc).pc p = pc := Function.update_self _ _ _

theorem goto_of_ne {q : Slot} (h : q ≠ p) : (s.goto p pc).pc q = s.pc q :=
  Function.update_of_ne h _ _

@[simp] theorem setHeld_fs : (s.setHeld p e n).fs = s.fs := rfl
@[simp] theorem setHeld_pc : (s.setHeld p e n).pc = s.pc := rfl

theorem setHeld_held (q : Slot) (e' : Entry) :
    (s.setHeld p e n).held q e' = if q = p ∧ e' = e then n else s.held q e' := by
  by_cases hq : q = p
  · subst hq
    by_cases he : e' = e
    · subst he
      simp [setHeld]
    · simp [setHeld, he]
  · simp [setHeld, hq]

@[simp] theorem setFs_fs : (s.setFs fs).fs = fs := rfl
@[simp] theorem setFs_held : (s.setFs fs).held = s.held := rfl
@[simp] theorem setFs_pc : (s.setFs fs).pc = s.pc := rfl

end Updates

def free (s : Sys) (e : Entry) : Prop := ∀ q, (s.pc q).locks ≠ some e

instance (s : Sys) (e : Entry) : Decidable (s.free e) :=
  inferInstanceAs (Decidable (∀ q, (s.pc q).locks ≠ some e))

end Sys

/-- The inode that `create` makes: nobody else has a name for it before it has a link. -/
def createInode (type : FileType) (major minor : ℤ) : Run Entry := do
  let e ← ialloc type
  ilock e
  setCopy e fun d => { d with major := major, minor := minor, nlink := 1 }
  iupdate e
  return e

/-- A call that returns a new reference of `p`. -/
def refer (s : Sys) (p : Slot) (x : Run Entry) : Except Stop Sys :=
  match x s.fs with
  | .ok e fs => .ok ((s.setFs fs).setHeld p e (s.held p e + 1))
  | .error r _ => .error r

/-- The section of `iput` that reads `ref`. -/
def readRef (s : Sys) (p : Slot) (e : Entry) : Sys :=
  let ip := s.fs.cache e
  s.goto p (.decided e (ip.valid && decide (ip.copy.nlink = 0) && decide (ip.ref = 1)))

def sectionStep (s : Sys) (p : Slot) : Except Stop Sys :=
  match s.pc p with
  | .idle => .error .disabled
  | .locked e => .ok (readRef s p e)
  | .decided e false => .ok (s.goto p (.put e))
  | .decided e true =>
    match freeInode e s.fs with
    | .ok _ fs => .ok ((s.setFs fs).goto p (.put e))
    | .error r _ => .error r
  | .put e =>
    let ip := s.fs.cache e
    .ok (((s.setFs (s.fs.setInode e { ip with ref := ip.ref - 1 })).setHeld p e
      (s.held p e - 1)).goto p .idle)

def step (s : Sys) : Act → Except Stop Sys
  | .create p type major minor =>
    if s.pc p = .idle ∧ type ≠ .free then refer s p (createInode type major minor)
    else .error .disabled
  -- a directory entry names the inode
  | .iget p inum =>
    if s.pc p = .idle ∧ (s.fs.disk.inode inum).nlink > 0 then refer s p (Fs.iget inum)
    else .error .disabled
  | .idup p e =>
    if s.pc p = .idle ∧ s.held p e > 0 then
      refer s p do
        Fs.idup e
        return e
    else .error .disabled
  | .work p a =>
    match a.locks with
    | none => .error .disabled
    | some e =>
      if s.pc p = .idle ∧ s.held p e > 0 ∧ s.free e then
        match perform a s.fs with
        | .ok _ fs => .ok (s.setFs fs)
        | .error r _ => .error r
      else .error .disabled
  | .iput p e =>
    if s.pc p = .idle ∧ s.held p e > 0 ∧ s.free e then .ok (s.goto p (.locked e))
    else .error .disabled
  | .step p => sectionStep s p

/-- A disk in order on which every allocated inode has a link, and no references. -/
def Booted (s : Sys) : Prop :=
  WellFormed s.fs ∧ (∀ i, (s.fs.disk.inode i).type ≠ .free → (s.fs.disk.inode i).nlink > 0) ∧
    (∀ p e, s.held p e = 0) ∧ ∀ p, s.pc p = .idle

/-- No `iput` reads `ref` of an inode without links while another `iput` of it has released
the lock and not yet decremented `ref`. -/
def NoRace (s : Sys) : Act → Prop
  | .step p => ∀ e, s.pc p = .locked e → (s.fs.cache e).valid = true →
      (s.fs.cache e).copy.nlink = 0 → ∀ q, s.pc q ≠ .put e
  | _ => True

/-! ### References that a call returns -/

variable {fs ft : FsState} {e : Entry}

theorem createInode_ends (h : Sound fs) {type : FileType} (ht : type ≠ .free) (major minor : ℤ) :
    Ends (fun e ft => Sound ft ∧ ∃ i fu, (fs.disk.inode i).type = .free ∧
      Referred i e (fs.setDinode i (.fresh type)) fu ∧ Touched e fu ft ∧
      (ft.disk.inode i).nlink = 1) Legal (createInode type major minor fs) := by
  unfold createInode
  refine (h.ialloc_ends ht).bind ?_
  rintro e fu ⟨hu, i, hi, hru⟩
  refine (hu.ilock_ends hru.inUse).bind ?_
  rintro - fv ⟨hv, htouch⟩
  have hr : (fv.cache e).ref > 0 := htouch.ref ▸ hru.inUse
  simp only [setCopy, iupdate, run_modify_bind, run_pure, ends_ok, FsState.setCopy_self]
  have hw := (hv.working hr htouch.valid).worked (d := { (fv.cache e).copy with
    major := major, minor := minor, nlink := 1 }) rfl rfl (hv.filled hr htouch.valid)
  refine ⟨hv.worked hr htouch.valid hw, i, fu, hi, hru, htouch.worked hw, ?_⟩
  rw [← hru.inum, ← htouch.inum]
  rw [FsState.setDinode_inode, Function.update_self]

/-! ### Counting -/

variable {s t : Sys} {p q : Slot} {a : Act}

/-- All references to an entry. -/
def Sys.refs (s : Sys) (e : Entry) : ℤ := ∑ p, (s.held p e : ℤ)

theorem Sys.refs_eq (s : Sys) (p : Slot) (e : Entry) :
    s.refs e = s.held p e + ∑ q ∈ Finset.univ.erase p, (s.held q e : ℤ) :=
  (Finset.add_sum_erase Finset.univ _ (Finset.mem_univ p)).symm

theorem Sys.refs_setHeld (s : Sys) (p : Slot) (e : Entry) (n : ℕ) :
    (s.setHeld p e n).refs e = s.refs e + n - s.held p e := by
  have hsum : ∑ q ∈ Finset.univ.erase p, ((s.setHeld p e n).held q e : ℤ) =
      ∑ q ∈ Finset.univ.erase p, (s.held q e : ℤ) := by
    refine Finset.sum_congr rfl fun q hq => ?_
    rw [s.setHeld_held, if_neg fun h => Finset.ne_of_mem_erase hq h.1]
  rw [(s.setHeld p e n).refs_eq p, hsum, s.refs_eq p, s.setHeld_held, if_pos ⟨rfl, rfl⟩]
  omega

theorem Sys.refs_setHeld_of_ne (s : Sys) (p : Slot) {e e' : Entry} (n : ℕ) (h : e' ≠ e) :
    (s.setHeld p e n).refs e' = s.refs e' := by
  refine Finset.sum_congr rfl fun q _ => ?_
  rw [s.setHeld_held, if_neg fun h' => h h'.2]

theorem Sys.held_le (s : Sys) (p : Slot) (e : Entry) : (s.held p e : ℤ) ≤ s.refs e := by
  rw [s.refs_eq p]
  have : 0 ≤ ∑ q ∈ Finset.univ.erase p, (s.held q e : ℤ) :=
    Finset.sum_nonneg fun q _ => Int.natCast_nonneg _
  omega

theorem Sys.held_add_le (s : Sys) (h : q ≠ p) (e : Entry) :
    (s.held p e : ℤ) + s.held q e ≤ s.refs e := by
  have hq : (s.held q e : ℤ) ≤ ∑ r ∈ Finset.univ.erase p, (s.held r e : ℤ) :=
    Finset.single_le_sum (f := fun r => (s.held r e : ℤ)) (fun r _ => Int.natCast_nonneg _)
      (Finset.mem_erase.2 ⟨h, Finset.mem_univ q⟩)
  rw [s.refs_eq p]
  omega

/-- More references than one process has belong to another as well. -/
theorem Sys.exists_other (s : Sys) (h : (s.held p e : ℤ) < s.refs e) :
    ∃ q, q ≠ p ∧ 0 < s.held q e := by
  by_contra hnone
  have hzero : ∑ q ∈ Finset.univ.erase p, (s.held q e : ℤ) = 0 := by
    refine Finset.sum_eq_zero fun q hq => ?_
    have := not_and.1 (not_exists.1 hnone q) (Finset.ne_of_mem_erase hq)
    omega
  rw [s.refs_eq p, hzero] at h
  omega

/-- `ref` counts the references; a process in `iput` has one; a lock has one holder; and the
one that is about to free an inode has the only reference to it. -/
structure Counted (s : Sys) : Prop where
  sound : Sound s.fs
  count : ∀ e, (s.fs.cache e).ref = s.refs e
  busy : ∀ p e, (s.pc p).entry = some e → 0 < s.held p e
  lock : ∀ p q e, (s.pc p).locks = some e → (s.pc q).locks = some e → p = q
  last : ∀ p e, s.pc p = .decided e true → (s.fs.cache e).valid = true ∧
    (s.fs.cache e).copy.nlink = 0 ∧ (s.fs.cache e).ref = 1

namespace Counted

/-- The inode of an entry that is about to be freed has no link on the disk either. -/
theorem nlink_of_last (h : Counted s) (hp : s.pc p = .decided e true) :
    (s.fs.disk.inode (s.fs.cache e).inum).nlink = 0 ∧
      (s.fs.disk.inode (s.fs.cache e).inum).type ≠ .free := by
  obtain ⟨hv, hn, hr⟩ := h.last p e hp
  obtain ⟨hcopy, htype⟩ := h.sound.loaded e (by omega) hv
  rw [← hcopy]
  exact ⟨hn, htype⟩

theorem ref_pos (h : Counted s) (hp : 0 < s.held p e) : (s.fs.cache e).ref > 0 := by
  have := s.held_le p e
  rw [h.count e]
  omega

/-- One process moves. -/
theorem goto (h : Counted s) {pc : Pc} (hbusy : ∀ e, pc.entry = some e → 0 < s.held p e)
    (hlock : ∀ e, pc.locks = some e → ∀ q, q ≠ p → (s.pc q).locks ≠ some e)
    (hlast : ∀ e, pc = .decided e true → (s.fs.cache e).valid = true ∧
      (s.fs.cache e).copy.nlink = 0 ∧ (s.fs.cache e).ref = 1) : Counted (s.goto p pc) := by
  constructor
  case sound => exact h.sound
  case count => exact h.count
  case busy =>
    intro q e hq
    by_cases hqp : q = p
    · subst hqp
      rw [Sys.goto_self] at hq
      exact hbusy e hq
    · rw [Sys.goto_of_ne _ _ _ hqp] at hq
      exact h.busy q e hq
  case lock =>
    intro q r e hq hr
    by_cases hqp : q = p
    · subst hqp
      by_contra hne
      rw [Sys.goto_self] at hq
      rw [Sys.goto_of_ne _ _ _ (Ne.symm hne)] at hr
      exact hlock e hq r (Ne.symm hne) hr
    · rw [Sys.goto_of_ne _ _ _ hqp] at hq
      by_cases hrp : r = p
      · subst hrp
        rw [Sys.goto_self] at hr
        exact absurd hq (hlock e hr q hqp)
      · rw [Sys.goto_of_ne _ _ _ hrp] at hr
        exact h.lock q r e hq hr
  case last =>
    intro q e hq
    by_cases hqp : q = p
    · subst hqp
      rw [Sys.goto_self] at hq
      exact hlast e hq
    · rw [Sys.goto_of_ne _ _ _ hqp] at hq
      exact h.last q e hq

/-- The cache changes, with the same references. -/
theorem setFs (h : Counted s) (hsound : Sound ft)
    (href : ∀ e, (ft.cache e).ref = (s.fs.cache e).ref)
    (hlast : ∀ q e, s.pc q = .decided e true → ft.cache e = s.fs.cache e) :
    Counted (s.setFs ft) := by
  refine ⟨hsound, fun e => (href e).trans (h.count e), h.busy, h.lock, fun q e hq => ?_⟩
  rw [Sys.setFs_fs, hlast q e hq]
  exact h.last q e hq

/-- The references of `p` to `e` change, and `ref` with them. -/
theorem recount (h : Counted s) {n : ℕ} (hsound : Sound ft)
    (href : (ft.cache e).ref = (s.fs.cache e).ref + n - s.held p e)
    (hother : ∀ e', e' ≠ e → ft.cache e' = s.fs.cache e') (hlast : ∀ q, s.pc q ≠ .decided e true)
    (hbusy : (s.pc p).entry = some e → 0 < n) : Counted ((s.setFs ft).setHeld p e n) := by
  constructor
  case sound => exact hsound
  case count =>
    intro e'
    by_cases he : e' = e
    · subst he
      rw [Sys.refs_setHeld]
      exact href.trans (by rw [h.count e']; rfl)
    · rw [Sys.refs_setHeld_of_ne _ _ _ he]
      change (ft.cache e').ref = s.refs e'
      rw [hother e' he, h.count e']
  case busy =>
    intro q e' hq
    rw [Sys.setHeld_held]
    split_ifs with heq
    · rw [heq.1, heq.2] at hq
      exact hbusy hq
    · exact h.busy q e' hq
  case lock => exact h.lock
  case last =>
    intro q e' hq
    have he : e' ≠ e := by
      rintro rfl
      exact hlast q hq
    rw [Sys.setHeld_fs, Sys.setFs_fs, hother e' he]
    exact h.last q e' hq

/-- An operation under the lock of `e`, which nobody else has. -/
theorem work (h : Counted s) (hfree : s.free e) (hsound : Sound ft) (ht : Touched e s.fs ft) :
    Counted (s.setFs ft) := by
  refine h.setFs hsound (fun e' => ?_) fun q e' hq => ?_
  · by_cases he : e' = e
    · rw [he, ht.ref]
    · rw [ht.cache e' he]
  · apply ht.cache e'
    rintro rfl
    exact hfree q (by rw [hq]; rfl)

/-- The last reference frees the inode. -/
theorem freed (h : Counted s) (hp : s.pc p = .decided e true) (hsound : Sound ft)
    (hf : Freed e s.fs ft) : Counted ((s.goto p (.put e)).setFs ft) := by
  obtain ⟨d, hd⟩ := hf.entry
  have hput : Counted (s.goto p (.put e)) := by
    refine h.goto (fun e' he' => ?_) nofun nofun
    cases he'
    exact h.busy p e (by rw [hp]; rfl)
  refine hput.setFs hsound (fun e' => ?_) fun q e' hq => ?_
  · rw [hd, Function.update_apply]
    split_ifs with he
    · rw [he]
      rfl
    · rfl
  · have hqp : q ≠ p := by
      rintro rfl
      rw [Sys.goto_self] at hq
      cases hq
    rw [Sys.goto_of_ne _ _ _ hqp] at hq
    rw [hd, Function.update_of_ne]
    · rfl
    · rintro rfl
      refine hqp (h.lock q p e' ?_ (by rw [hp]; rfl))
      rw [hq]
      rfl

/-- The decrement. -/
theorem put (h : Counted s) (hp : s.pc p = .put e) :
    Counted (((s.goto p .idle).setFs (s.fs.setInode e { s.fs.cache e with
      ref := (s.fs.cache e).ref - 1 })).setHeld p e (s.held p e - 1)) := by
  have hheld := h.busy p e (by rw [hp]; rfl)
  have hidle : Counted (s.goto p .idle) := h.goto nofun nofun nofun
  refine hidle.recount (h.sound.setRef (h.ref_pos hheld)) ?_
    (fun e' he => FsState.setInode_of_ne _ _ _ he) (fun q hq => ?_) fun hq => ?_
  · rw [FsState.setInode_self]
    change (s.fs.cache e).ref - 1 = (s.fs.cache e).ref + (s.held p e - 1 : ℕ) - s.held p e
    omega
  · have hqp : q ≠ p := by
      rintro rfl
      rw [Sys.goto_self] at hq
      cases hq
    rw [Sys.goto_of_ne _ _ _ hqp] at hq
    -- both references would be counted
    have hone := (h.last q e hq).2.2
    have htwo := s.held_add_le hqp e
    have hq' := h.busy q e (by rw [hq]; rfl)
    rw [h.count e] at hone
    omega
  · rw [Sys.goto_self] at hq
    cases hq

end Counted

/-! ### Steps -/

/-- An allocated inode without links. -/
def Orphan (fs : FsState) (i : Inum) : Prop :=
  (fs.disk.inode i).type ≠ .free ∧ (fs.disk.inode i).nlink = 0

/-- What a step does. A new reference makes no inode an orphan and does not load or unload
one. -/
inductive Move (s : Sys) : Act → Sys → Prop
  | refer {a : Act} (p : Slot) (e : Entry) (ft : FsState) (sound : Sound ft)
      (ref : (ft.cache e).ref = (s.fs.cache e).ref + 1)
      (other : ∀ e', e' ≠ e → ft.cache e' = s.fs.cache e') (last : ∀ q, s.pc q ≠ .decided e true)
      (orphan : ∀ i, Orphan ft i → Orphan s.fs i ∧ ((s.fs.cache e).ref > 0 →
        (s.fs.cache e).inum = i → (ft.cache e).inum = i ∧
          (ft.cache e).valid = (s.fs.cache e).valid)) :
      Move s a ((s.setFs ft).setHeld p e (s.held p e + 1))
  | work {a : Act} (p : Slot) (e : Entry) (ft : FsState) (idle : s.pc p = .idle)
      (held : s.held p e > 0) (free : s.free e) (sound : Sound ft) (touched : Touched e s.fs ft) :
      Move s a (s.setFs ft)
  | lock {a : Act} (p : Slot) (e : Entry) (idle : s.pc p = .idle) (held : s.held p e > 0)
      (free : s.free e) : Move s a (s.goto p (.locked e))
  | read (p : Slot) (e : Entry) (locked : s.pc p = .locked e) : Move s (.step p) (readRef s p e)
  | keep {a : Act} (p : Slot) (e : Entry) (decided : s.pc p = .decided e false) :
      Move s a (s.goto p (.put e))
  | free {a : Act} (p : Slot) (e : Entry) (ft : FsState) (decided : s.pc p = .decided e true)
      (sound : Sound ft) (freed : Freed e s.fs ft) : Move s a ((s.goto p (.put e)).setFs ft)
  | put {a : Act} (p : Slot) (e : Entry) (put : s.pc p = .put e) :
      Move s a (((s.goto p .idle).setFs (s.fs.setInode e { s.fs.cache e with
        ref := (s.fs.cache e).ref - 1 })).setHeld p e (s.held p e - 1))

theorem refer_ok {x : Run Entry} (h : refer s p x = .ok t) :
    ∃ e ft, x s.fs = .ok e ft ∧ t = (s.setFs ft).setHeld p e (s.held p e + 1) := by
  unfold refer at h
  split at h
  next e ft hx => exact ⟨e, ft, hx, (Except.ok.inj h).symm⟩
  next => cases h

namespace Counted

theorem move_iget (h : Counted s) {i : Inum} (hn : (s.fs.disk.inode i).nlink > 0)
    (ht : refer s p (iget i) = .ok t) : Move s a t := by
  obtain ⟨e, ft, hx, rfl⟩ := refer_ok ht
  obtain ⟨hsound, hr⟩ := (h.sound.iget_ends i).1 e ft hx
  refine .refer p e ft hsound hr.ref hr.cache (fun q hq => ?_) fun j hj => ⟨?_, fun hpos hinum => ?_⟩
  · have hone := (h.last q e hq).2.2
    have hzero := (h.nlink_of_last hq).1
    rw [(hr.used (by omega)).1] at hzero
    omega
  · rw [Orphan, hr.disk] at hj
    exact hj
  · obtain ⟨hi, hv⟩ := hr.used hpos
    exact ⟨hr.inum.trans (hi.symm.trans hinum), hv⟩

theorem move_create (h : Counted s) {type : FileType} (htype : type ≠ .free) {major minor : ℤ}
    (ht : refer s p (createInode type major minor) = .ok t) : Move s a t := by
  obtain ⟨e, ft, hx, rfl⟩ := refer_ok ht
  obtain ⟨hsound, i, fu, hfree, hr, htouch, hlink⟩ :=
    (createInode_ends h.sound htype major minor).1 e ft hx
  have hcache : ∀ e', e' ≠ e → ft.cache e' = s.fs.cache e' := fun e' he => by
    rw [htouch.cache e' he, hr.cache e' he]
    rfl
  refine .refer p e ft hsound ?_ hcache (fun q hq => ?_) fun j hj => ?_
  · rw [htouch.ref, hr.ref]
    rfl
  · have hone := (h.last q e hq).2.2
    have halloc := (h.nlink_of_last hq).2
    have hinum : (s.fs.cache e).inum = i := (hr.used (by rw [FsState.setDinode_cache]; omega)).1
    rw [hinum] at halloc
    exact halloc hfree
  · have hji : j ≠ i := by
      rintro rfl
      exact absurd (hj.2.symm.trans hlink) (by decide)
    have hinode : ft.disk.inode j = s.fs.disk.inode j := by
      rw [htouch.inode j (by rwa [hr.inum]), hr.disk, FsState.setDinode_inode,
        Function.update_of_ne hji]
    refine ⟨by rwa [Orphan, hinode] at hj, fun hpos hinum => ?_⟩
    exact absurd (hinum.symm.trans (hr.used hpos).1) hji

theorem move_idup (h : Counted s) (hp : s.pc p = .idle) (hheld : s.held p e > 0)
    (ht : refer s p (do idup e; return e) = .ok t) : Move s a t := by
  obtain ⟨e', ft, hx, rfl⟩ := refer_ok ht
  cases hx
  refine .refer p e _ (h.sound.setRef (h.ref_pos hheld)) ?_
    (fun _ he => FsState.setInode_of_ne _ _ _ he) (fun q hq => ?_) fun j hj => ⟨hj, fun _ hi => ?_⟩
  · rw [FsState.setInode_self]
  · have hqp : q ≠ p := by
      rintro rfl
      rw [hp] at hq
      cases hq
    have hone := (h.last q e hq).2.2
    have htwo := s.held_add_le hqp e
    have hq' := h.busy q e (by rw [hq]; rfl)
    rw [h.count e] at hone
    omega
  · rw [FsState.setInode_self]
    exact ⟨hi, rfl⟩

theorem move (h : Counted s) (ht : step s a = .ok t) : Move s a t := by
  cases a with
  | create p type major minor =>
    simp only [step] at ht
    split_ifs at ht with hp
    exact h.move_create hp.2 ht
  | iget p i =>
    simp only [step] at ht
    split_ifs at ht with hp
    exact h.move_iget hp.2 ht
  | idup p e =>
    simp only [step] at ht
    split_ifs at ht with hp
    exact h.move_idup hp.1 hp.2 ht
  | work p a =>
    simp only [step] at ht
    split at ht
    next => cases ht
    next e ha =>
      split_ifs at ht with hp
      split at ht
      next _ ft hft =>
        cases ht
        obtain ⟨hsound, htouch⟩ := (h.sound.work_ends ha).1 _ _ hft
        exact .work p e ft hp.1 hp.2.1 hp.2.2 hsound htouch
      next => cases ht
  | iput p e =>
    simp only [step] at ht
    split_ifs at ht with hp
    cases ht
    exact .lock p e hp.1 hp.2.1 hp.2.2
  | step p =>
    simp only [step, sectionStep] at ht
    split at ht
    next => cases ht
    next e hp =>
      cases ht
      exact .read p e hp
    next e hp =>
      cases ht
      exact .keep p e hp
    next e hp =>
      split at ht
      next _ ft hft =>
        cases ht
        obtain ⟨hv, -, hone⟩ := h.last p e hp
        have hr : (s.fs.cache e).ref > 0 := by omega
        have hf := (freeInode_ends (h.sound.working hr hv)).1 _ _ hft
        exact .free p e ft hp (h.sound.freed hr hv hf) hf
      next => cases ht
    next e hp =>
      cases ht
      exact .put p e hp

theorem of_move (h : Counted s) (hm : Move s a t) : Counted t := by
  cases hm with
  | refer p e ft sound ref other last orphan =>
    refine h.recount sound ?_ other last fun _ => Nat.succ_pos _
    rw [ref]
    push_cast
    omega
  | work p e ft idle held free sound touched => exact h.work free sound touched
  | lock p e idle held free =>
    refine h.goto (fun e' he => ?_) (fun e' he q _ => ?_) nofun
    · cases he
      exact held
    · cases he
      exact free q
  | read p e locked =>
    refine h.goto (fun e' he => ?_) (fun e' he q hq => ?_) fun e' he => ?_
    · cases he
      exact h.busy p e (by rw [locked]; rfl)
    · cases he
      exact fun hqe => hq (h.lock q p e hqe (by rw [locked]; rfl))
    · obtain ⟨rfl, hlast⟩ := Pc.decided.inj he
      simp only [Bool.and_eq_true, decide_eq_true_eq] at hlast
      exact ⟨hlast.1.1, hlast.1.2, hlast.2⟩
  | keep p e decided =>
    refine h.goto (fun e' he => ?_) nofun nofun
    cases he
    exact h.busy p e (by rw [decided]; rfl)
  | free p e ft decided sound freed => exact h.freed decided sound freed
  | put p e hput => exact h.put hput

theorem of_step (h : Counted s) (ht : step s a = .ok t) : Counted t := h.of_move (h.move ht)

theorem of_booted (h : Booted s) : Counted s := by
  obtain ⟨hw, -, hheld, hpc⟩ := h
  refine ⟨hw.sound, fun e => ?_, fun p e hp => ?_, fun p q e hp => ?_, fun p e hp => ?_⟩
  · rw [hw.empty e, Sys.refs]
    simp [hheld]
  all_goals
    rw [hpc p] at hp
    cases hp

end Counted

/-! ### Inodes without links -/

/-- A reference of `p` to `e` that is still to be looked at by an `iput`. -/
def Spare (s : Sys) (p : Slot) (e : Entry) : Prop :=
  (if (s.pc p).passed = some e then 1 else 0) < s.held p e

/-- An inode without links that is not free is in the cache, and somebody will look at it. -/
def Watched (s : Sys) : Prop :=
  ∀ i, Orphan s.fs i → ∃ e p, (s.fs.cache e).inum = i ∧ (s.fs.cache e).valid = true ∧ Spare s p e

theorem Spare.held_pos (h : Spare s p e) : 0 < s.held p e := Nat.lt_of_le_of_lt (Nat.zero_le _) h

theorem Spare.of_idle (hp : s.pc p = .idle) (hheld : 0 < s.held p e) : Spare s p e := by
  rw [Spare, hp]
  exact hheld

/-- A move of one process that gives up no reference to `e`. -/
theorem Spare.goto (h : Spare s q e) {pc : Pc}
    (hpc : q = p → pc.passed = some e → (s.pc p).passed = some e) : Spare (s.goto p pc) q e := by
  unfold Spare at h ⊢
  rw [Sys.goto_held]
  by_cases hqp : q = p
  · subst hqp
    rw [Sys.goto_self]
    by_cases hpassed : pc.passed = some e
    · rw [if_pos hpassed]
      rwa [if_pos (hpc rfl hpassed)] at h
    · rw [if_neg hpassed]
      exact Nat.lt_of_le_of_lt (Nat.zero_le _) h
  · rw [Sys.goto_of_ne _ _ _ hqp]
    exact h

namespace Watched

/-- The section that reads `ref` leaves a reference to look at, if the race does not happen. -/
theorem read (h : Watched s) (hc : Counted s) (hp : s.pc p = .locked e) (hg : NoRace s (.step p)) :
    Watched (readRef s p e) := by
  intro i hi
  obtain ⟨e₀, p₀, hinum, hv, hspare⟩ := h i hi
  by_cases hsame : e₀ = e ∧ p₀ = p
  · obtain ⟨rfl, rfl⟩ := hsame
    have hheld := hspare.held_pos
    have hr := hc.ref_pos hheld
    have hn : (s.fs.cache e₀).copy.nlink = 0 := by
      rw [(hc.sound.loaded e₀ hr hv).1, hinum]
      exact hi.2
    by_cases hone : (s.fs.cache e₀).ref = 1
    · refine ⟨e₀, p₀, hinum, hv, hspare.goto fun _ hpassed => ?_⟩
      simp [hv, hn, hone, Pc.passed] at hpassed
    · have hmany : 1 < s.refs e₀ := by
        rw [← hc.count e₀]
        omega
      by_cases hown : 1 < s.held p₀ e₀
      · refine ⟨e₀, p₀, hinum, hv, ?_⟩
        rw [Spare, readRef, Sys.goto_held]
        split_ifs
        · exact hown
        · exact hheld
      · obtain ⟨q, hqp, hq⟩ := s.exists_other (p := p₀) (e := e₀) (by omega)
        refine ⟨e₀, q, hinum, hv, Spare.goto ?_ fun h' => absurd h' hqp⟩
        have hpassed : (s.pc q).passed ≠ some e₀ := by
          intro hpassed
          cases hpc : s.pc q with
          | idle => rw [hpc] at hpassed; cases hpassed
          | locked e => rw [hpc] at hpassed; cases hpassed
          | decided e last =>
            rw [hpc] at hpassed
            cases last with
            | true => cases hpassed
            | false =>
              cases hpassed
              exact hqp (hc.lock q p₀ e₀ (by rw [hpc]; rfl) (by rw [hp]; rfl))
          | put e =>
            rw [hpc] at hpassed
            cases hpassed
            exact hg e₀ hp hv hn q hpc
        rw [Spare, if_neg hpassed]
        exact hq
  · refine ⟨e₀, p₀, hinum, hv, hspare.goto fun hpp hpassed => ?_⟩
    refine absurd ⟨?_, hpp⟩ hsame
    revert hpassed
    generalize (_ && _ && _) = last
    cases last with
    | true => exact nofun
    | false => exact fun hpassed => (Option.some.inj hpassed).symm

theorem refer (h : Watched s) (hc : Counted s) {n : ℕ} (hn : s.held p e ≤ n)
    (hother : ∀ e', e' ≠ e → ft.cache e' = s.fs.cache e')
    (horphan : ∀ i, Orphan ft i → Orphan s.fs i ∧ ((s.fs.cache e).ref > 0 →
      (s.fs.cache e).inum = i → (ft.cache e).inum = i ∧
        (ft.cache e).valid = (s.fs.cache e).valid)) :
    Watched ((s.setFs ft).setHeld p e n) := by
  intro i hi
  obtain ⟨hi', hused⟩ := horphan i hi
  obtain ⟨e₀, p₀, hinum, hv, hspare⟩ := h i hi'
  have hkeep : (ft.cache e₀).inum = i ∧ (ft.cache e₀).valid = (s.fs.cache e₀).valid := by
    by_cases he : e₀ = e
    · subst he
      exact hused (hc.ref_pos hspare.held_pos) hinum
    · rw [hother e₀ he]
      exact ⟨hinum, rfl⟩
  refine ⟨e₀, p₀, hkeep.1, hkeep.2.trans hv, ?_⟩
  refine Nat.lt_of_lt_of_le hspare ?_
  rw [Sys.setHeld_held]
  split_ifs with hpe
  · rw [hpe.1, hpe.2]
    exact hn
  · exact Nat.le_refl _

theorem work (h : Watched s) (hp : s.pc p = .idle) (hheld : s.held p e > 0)
    (ht : Touched e s.fs ft) : Watched (s.setFs ft) := by
  intro i hi
  by_cases hinum : i = (s.fs.cache e).inum
  · exact ⟨e, p, ht.inum.trans hinum.symm, ht.valid, .of_idle hp hheld⟩
  · obtain ⟨e₀, p₀, h₀, hv, hspare⟩ := h i (by rwa [Orphan, Sys.setFs_fs, ht.inode i hinum] at hi)
    have he : e₀ ≠ e := by
      rintro rfl
      exact hinum h₀.symm
    refine ⟨e₀, p₀, ?_, ?_, hspare⟩
    · rw [Sys.setFs_fs, ht.cache e₀ he, h₀]
    · rw [Sys.setFs_fs, ht.cache e₀ he, hv]

theorem freed (h : Watched s) (p : Slot) (hf : Freed e s.fs ft) :
    Watched ((s.goto p (.put e)).setFs ft) := by
  intro i hi
  have hinum : i ≠ (s.fs.cache e).inum := by
    rintro rfl
    exact hi.1 hf.free
  obtain ⟨e₀, p₀, h₀, hv, hspare⟩ := h i (by rwa [Orphan, Sys.setFs_fs, hf.inode i hinum] at hi)
  have he : e₀ ≠ e := by
    rintro rfl
    exact hinum h₀.symm
  obtain ⟨d, hd⟩ := hf.entry
  refine ⟨e₀, p₀, ?_, ?_, ?_⟩
  · rw [Sys.setFs_fs, hd, Function.update_of_ne he, h₀]
  · rw [Sys.setFs_fs, hd, Function.update_of_ne he, hv]
  · refine Spare.goto (s := s) hspare fun _ hpassed => ?_
    exact absurd (Option.some.inj hpassed).symm he

theorem put (h : Watched s) (hp : s.pc p = .put e) :
    Watched (((s.goto p .idle).setFs (s.fs.setInode e { s.fs.cache e with
      ref := (s.fs.cache e).ref - 1 })).setHeld p e (s.held p e - 1)) := by
  intro i hi
  obtain ⟨e₀, p₀, hinum, hv, hspare⟩ := h i hi
  have hkeep : ((s.fs.setInode e { s.fs.cache e with ref := (s.fs.cache e).ref - 1 }).cache e₀).inum
      = (s.fs.cache e₀).inum ∧ ((s.fs.setInode e { s.fs.cache e with
        ref := (s.fs.cache e).ref - 1 }).cache e₀).valid = (s.fs.cache e₀).valid := by
    by_cases he : e₀ = e
    · subst he
      rw [FsState.setInode_self]
      exact ⟨rfl, rfl⟩
    · rw [FsState.setInode_of_ne _ _ _ he]
      exact ⟨rfl, rfl⟩
  refine ⟨e₀, p₀, hkeep.1.trans hinum, hkeep.2.trans hv, ?_⟩
  by_cases hsame : p₀ = p ∧ e₀ = e
  · obtain ⟨rfl, rfl⟩ := hsame
    rw [Spare, hp, Pc.passed, if_pos rfl] at hspare
    rw [Spare, Sys.setHeld_pc, Sys.setFs_pc, Sys.goto_self, Sys.setHeld_held]
    simp only [and_self, if_true, Pc.passed, reduceCtorEq, if_false]
    omega
  · rw [Spare, Sys.setHeld_held, if_neg hsame]
    exact hspare.goto nofun

theorem of_move (h : Watched s) (hc : Counted s) (hm : Move s a t) (hg : NoRace s a) :
    Watched t := by
  cases hm with
  | refer p e ft sound ref other last orphan => exact h.refer hc (Nat.le_succ _) other orphan
  | work p e ft idle held free sound touched => exact h.work idle held touched
  | lock p e idle held free =>
    intro i hi
    obtain ⟨e₀, p₀, hinum, hv, hspare⟩ := h i hi
    exact ⟨e₀, p₀, hinum, hv, hspare.goto nofun⟩
  | read p e locked => exact h.read hc locked hg
  | keep p e decided =>
    intro i hi
    obtain ⟨e₀, p₀, hinum, hv, hspare⟩ := h i hi
    refine ⟨e₀, p₀, hinum, hv, hspare.goto fun _ hpassed => ?_⟩
    rw [decided]
    exact hpassed
  | free p e ft decided sound freed => exact h.freed p freed
  | put p e hput => exact h.put hput

theorem of_booted (h : Booted s) : Watched s := by
  intro i hi
  have := h.2.1 i hi.1
  have := hi.2
  omega

end Watched

/-! ### The last reference -/

/-- No reference to inode `i` is left in the cache. -/
def Dropped (fs : FsState) (i : Inum) : Prop := ∀ e, (fs.cache e).inum = i → (fs.cache e).ref = 0

/-- The inode is free, and the blocks that are marked used are those of other inodes. -/
def FreeOnDisk (fs : FsState) (i : Inum) : Prop :=
  (fs.disk.inode i).type = .free ∧ ∀ b, DataBlock b → fs.disk.used b = true →
    ∃ j x, j ≠ i ∧ refs fs.disk.inode fs.disk.data (j, x) = some b

/-- The one that frees an inode has the only reference to it. -/
def OnlyLastFrees (s : Sys) : Prop :=
  ∀ p e, s.pc p = .decided e true → s.held p e = 1 ∧
    ∀ q e', (s.fs.cache e').inum = (s.fs.cache e).inum → 0 < s.held q e' → q = p ∧ e' = e

theorem Counted.onlyLastFrees (h : Counted s) : OnlyLastFrees s := by
  intro p e hp
  obtain ⟨-, -, hone⟩ := h.last p e hp
  have hheld := h.busy p e (by rw [hp]; rfl)
  rw [h.count e] at hone
  refine ⟨by have := s.held_le p e; omega, fun q e' hinum hq => ?_⟩
  have he : e' = e := h.sound.distinct e' e (h.ref_pos hq) (h.ref_pos hheld) hinum
  subst he
  refine ⟨?_, rfl⟩
  by_contra hqp
  have := s.held_add_le hqp e'
  omega

theorem Watched.freeOnDisk (h : Watched s) (hc : Counted s) {i : Inum}
    (hn : (s.fs.disk.inode i).nlink = 0) (hd : Dropped s.fs i) : FreeOnDisk s.fs i := by
  have htype : (s.fs.disk.inode i).type = .free := by
    by_contra htype
    obtain ⟨e, p, hinum, -, hspare⟩ := h i ⟨htype, hn⟩
    have hpos := hc.ref_pos hspare.held_pos
    have := hd e hinum
    omega
  refine ⟨htype, fun b hb hu => ?_⟩
  obtain ⟨⟨j, x⟩, hj⟩ := hc.sound.owned.exact.owned b hb hu
  refine ⟨j, x, ?_, hj⟩
  rintro rfl
  rw [refs, if_pos htype] at hj
  cases hj

/-- With the race or without it, nothing is freed that others still refer to. -/
theorem onlyLastFrees_of_reach (hs : Reach step always Booted s) : OnlyLastFrees s := by
  have h : Counted s := hs.invariant (fun _ h => .of_booted h) fun _ _ _ h _ ht => h.of_step ht
  exact h.onlyLastFrees

/-- An empty disk and no references. -/
def bootState : Sys := ⟨emptyFs, fun _ _ => 0, fun _ => .idle⟩

theorem bootState_booted : Booted bootState :=
  ⟨emptyFs_wellFormed, fun _ h => absurd rfl h, fun _ _ => rfl, fun _ => rfl⟩

/-- A file of two processes, whose link goes away. -/
def sharedRun : List Act :=
  [.create 0 .file 0 0, .iget 1 1, .work 0 (.update 0 0 0 0), .iput 0 0, .step 0, .step 0]

instance (s : Sys) (a : Act) : Decidable (NoRace s a) :=
  match a with
  | .step p => inferInstanceAs (Decidable (∀ e, s.pc p = .locked e → (s.fs.cache e).valid = true →
      (s.fs.cache e).copy.nlink = 0 → ∀ q, s.pc q ≠ .put e))
  | .create _ _ _ _ | .iget _ _ | .idup _ _ | .work _ _ | .iput _ _ => .isTrue trivial

end Xv6Container.Fs.Iput
