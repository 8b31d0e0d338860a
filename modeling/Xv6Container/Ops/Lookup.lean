import Xv6Container.Names.Lookup
import Xv6Container.Ops.Cache

/-! Path lookup. `Disk.resolve` is what a list of names leads to on the disk; `namex` finds just that,
logs nothing, leaves the disk alone and ends with one reference more, to the inode it has found. -/

namespace Xv6Container.Ops

open Lib
open Fs (NINODE FileType Dinode Entry CString)
open Names (one one_self one_of_ne add_one_pos add_one_nonneg lt_add_one gain ptr Name Slot slash
  pathNames)

variable {sb : Superblock} {R : Entry → ℤ} {s t u : State} {e dp ip : Entry} {i : ℕ} {p : Slot}
  {E : State → Prop} {name : Name} {names : List Name} {parent : Bool} {path : CString}

/-- The inode that the names lead to from `i`, with the last name cut off; with `parent` it is the
inode that the last name is looked up in. -/
def Disk.resolve (d : Disk) (parent : Bool) : ℕ → Name → List Name → Option (ℕ × Name)
  | i, name, [] => if parent then none else some (i, name)
  | i, _, name :: names =>
    if (d.inode i).type ≠ .dir then none
    else if parent ∧ names = [] then some (i, name)
    else (d.find (d.inode i) name).bind fun x => d.resolve parent x.2 name names

/-- Where the path of a process starts. -/
def State.origin (s : State) (p : Slot) (path : CString) : Option ℕ :=
  if path.bytes.head? = some slash then some ROOTINO
  else (s.proc p).cwd.map fun e => (s.cache e).inum

/-- The inode of a path and the last element of the path. -/
def State.lookup (s : State) (p : Slot) (path : CString) (parent : Bool) : Option (ℕ × Name) :=
  (s.origin p path).bind fun i => s.disk.resolve parent i (.cut []) (pathNames path)

/-! ### `dirlookup` -/

theorem dirlookup_halts (h : Cached R s) (hdp : 0 < R dp) (hv : (s.cache dp).valid = true)
    (hE : Mute E s) (name : Name) :
    Halts (fun o t => Cached (R + gain o) t ∧ Looked R s t ∧
        (s.disk.inode (s.cache dp).inum).type = .dir ∧
        s.disk.find (s.disk.inode (s.cache dp).inum) name =
          o.map (fun x => (x.2, (t.cache x.1).inum)) ∧
        (o = none → t = s)) E (dirlookup sb dp name s) := by
  have hcopy := (h.synced dp hdp hv).1
  rw [dirlookup, run_get_bind]
  split_ifs with htype
  · exact hE.self
  · rw [not_not] at htype
    have hsolid : s.disk.Solid (s.cache dp).copy := by
      rw [hcopy] at htype ⊢
      exact h.whole _ htype
    refine (Halts.mono (direntLoop_reads hsolid (Nat.dvd_zero DIRENT)) (fun _ _ => id) ?_).bind ?_
    · rintro t rfl
      exact hE.self
    · rintro r t ⟨rfl, hr⟩
      have hfind : t.disk.find (t.disk.inode (t.cache dp).inum) name = r := by
        rw [Disk.find, ← hcopy]
        exact hr.symm
      rw [hcopy] at htype
      cases r with
      | none =>
        refine ⟨?_, .refl R t, htype, hfind, fun _ => rfl⟩
        show Cached (R + 0) t
        rwa [add_zero]
      | some x =>
        obtain ⟨off, inum⟩ := x
        refine (iget_halts h hE.self).bind ?_
        rintro ip u ⟨hu, hl, hip⟩
        refine ⟨hu, hl, htype, ?_, nofun⟩
        rw [hfind, Option.map_some, hip]

theorem iunlockput_halts (h : Cached (R + one e) s) (hR : ∀ x, 0 ≤ R x)
    (ha : Anchored R s (s.cache e).inum) (hE : Mute E s) :
    Halts (fun _ t => Cached R t ∧ Looked R s t) E (iunlockput sb e s) := by
  rw [iunlockput]
  refine (iunlock_halts h hE.self).bind ?_
  rintro _ t ⟨ht, hl, -⟩
  have ha' : Anchored R t (t.cache e).inum := by
    rw [hl.inum e (add_one_pos (hR e))]
    exact hl.drop.anchored ha
  refine (iput_halts ht hR ha' (hl.mute hE).self).post ?_
  rintro _ u ⟨hu, hl'⟩
  exact ⟨hu, hl.drop.trans hl'⟩

/-! ### What a lookup has found -/

/-- Nothing has changed since `s` but that there is a reference to `ip`, which is not the last one to an
inode without links. -/
structure Found (R : Entry → ℤ) (ip : Entry) (s t : State) : Prop where
  cached : Cached (R + one ip) t
  looked : Looked R s t
  anchored : Anchored R t (t.cache ip).inum

/-- There are references to a directory and to what it leads to. -/
structure Both (R : Entry → ℤ) (dp ip : Entry) (s t : State) : Prop where
  cached : Cached (R + one dp + one ip) t
  looked : Looked R s t
  parent : Anchored R t (t.cache dp).inum
  child : Anchored R t (t.cache ip).inum

namespace Found

variable (hR : ∀ x, 0 ≤ R x)
include hR

/-- The inode stays referenced. -/
theorem keep (h : Found R ip s t) (hl : Looked (R + one ip) t u) (hu : Cached (R + one ip) u) :
    Found R ip s u ∧ (u.cache ip).inum = (t.cache ip).inum := by
  have hinum := hl.inum ip (add_one_pos (hR ip))
  refine ⟨⟨hu, h.looked.trans hl.drop, ?_⟩, hinum⟩
  rw [hinum]
  exact hl.drop.anchored h.anchored

variable (hE : Mute E s)
include hE

theorem ilock (h : Found R ip s t) :
    Halts (fun _ u => (Found R ip s u ∧ (u.cache ip).inum = (t.cache ip).inum) ∧
        (u.cache ip).valid = true) E (ilock ip t) := by
  refine (ilock_halts h.cached (add_one_pos (hR ip)) (h.looked.mute hE)).post ?_
  rintro _ u ⟨hu, hl, hv⟩
  exact ⟨h.keep hR hl hu, hv⟩

theorem iunlockput (h : Found R ip s t) :
    Halts (fun _ u => Cached R u ∧ Looked R s u) E (iunlockput sb ip t) := by
  refine (iunlockput_halts h.cached hR h.anchored (h.looked.mute hE)).post ?_
  rintro _ u ⟨hu, hl⟩
  exact ⟨hu, h.looked.trans hl⟩

theorem dirlookup (h : Found R dp s t) (hs : Settled R s) (hv : (t.cache dp).valid = true)
    (name : Name) :
    Halts (fun o u => s.disk.find (s.disk.inode (t.cache dp).inum) name =
          o.map (fun x => (x.2, (u.cache x.1).inum)) ∧
        (t.cache dp).copy.type = .dir ∧ (o = none → u = t) ∧
        ∀ x, o = some x → Both R dp x.1 s u) E (dirlookup sb dp name t) := by
  have hpos := add_one_pos (hR dp)
  refine (dirlookup_halts h.cached hpos hv (h.looked.mute hE) name).post ?_
  rintro o u ⟨hu, hl, htype, hfind, hnone⟩
  have hcopy := (h.cached.synced dp hpos hv).1
  refine ⟨by rwa [← h.looked.disk], by rw [hcopy, htype], hnone, ?_⟩
  rintro x rfl
  rw [Option.map_some] at hfind
  refine ⟨hu, h.looked.trans hl.drop, ?_, ?_⟩
  · rw [hl.inum dp hpos]
    exact hl.drop.anchored h.anchored
  · exact hl.drop.anchored ((h.looked.settled hs).anchored htype h.anchored hfind)

end Found

namespace Both

theorem symm (h : Both R dp ip s t) : Both R ip dp s t := by
  refine ⟨?_, h.looked, h.child, h.parent⟩
  rw [add_right_comm]
  exact h.cached

variable (hR : ∀ x, 0 ≤ R x)
include hR

/-- The reference to `ip` is given back. -/
theorem drop (h : Both R dp ip s t) (hu : Cached (R + one dp) u) (hl : Looked (R + one dp) t u) :
    Found R dp s u ∧ (u.cache dp).inum = (t.cache dp).inum := by
  have hinum := hl.inum dp (add_one_pos (hR dp))
  refine ⟨⟨hu, h.looked.trans hl.drop, ?_⟩, hinum⟩
  rw [hinum]
  exact hl.drop.anchored h.parent

variable (hE : Mute E s)
include hE

theorem ilock (h : Both R dp ip s t) :
    Halts (fun _ u => Both R dp ip s u ∧ (u.cache ip).valid = true) E (ilock ip t) := by
  have hpos := add_one_pos (add_one_nonneg hR dp ip)
  refine (ilock_halts h.cached hpos (h.looked.mute hE)).post ?_
  rintro _ u ⟨hu, hl, hv⟩
  refine ⟨⟨hu, h.looked.trans hl.drop.drop, ?_, ?_⟩, hv⟩
  · rw [hl.inum dp (lt_add_one (add_one_pos (hR dp)) ip)]
    exact hl.drop.drop.anchored h.parent
  · rw [hl.inum ip hpos]
    exact hl.drop.drop.anchored h.child

theorem iput (h : Both R dp ip s t) :
    Halts (fun _ u => Found R dp s u ∧ (u.cache dp).inum = (t.cache dp).inum) E (iput sb ip t) := by
  refine (iput_halts h.cached (add_one_nonneg hR dp) (h.child.mono fun _ hx => lt_add_one hx dp)
    (h.looked.mute hE).self).post ?_
  rintro _ u ⟨hu, hl⟩
  exact h.drop hR hu hl

theorem iunlockput (h : Both R dp ip s t) :
    Halts (fun _ u => Found R dp s u ∧ (u.cache dp).inum = (t.cache dp).inum) E
      (iunlockput sb ip t) := by
  refine (iunlockput_halts h.cached (add_one_nonneg hR dp) (h.child.mono fun _ hx =>
    lt_add_one hx dp) (h.looked.mute hE)).post ?_
  rintro _ u ⟨hu, hl⟩
  exact h.drop hR hu hl

end Both

/-! ### `namex` -/

theorem namexLoop_halts (h : Cached (R + one ip) s) (hR : ∀ x, 0 ≤ R x) (hs : Settled R s)
    (ha : Anchored R s (s.cache ip).inum) (hE : Mute E s) :
    Halts (fun o t => Cached (R + gain o) t ∧ Looked R s t ∧
        s.disk.resolve parent (s.cache ip).inum name names =
          o.map (fun x => ((t.cache x.1).inum, x.2)) ∧
        ∀ x, o = some x → Anchored R t (t.cache x.1).inum) E
      (namexLoop sb parent ip name names s) := by
  induction names generalizing ip name s with
  | nil =>
    rw [namexLoop, Disk.resolve]
    cases parent with
    | true =>
      refine (iput_halts h hR ha hE.self).bind ?_
      rintro _ t ⟨ht, hl⟩
      refine ⟨?_, hl, rfl, nofun⟩
      show Cached (R + 0) t
      rwa [add_zero]
    | false =>
      refine ⟨h, .refl R s, rfl, ?_⟩
      intro x hx
      cases hx
      exact ha
  | cons a names ih =>
    have hpos : 0 < (R + one ip) ip := add_one_pos (hR ip)
    have hfound : Found R ip s s := ⟨h, .refl R s, ha⟩
    have hnone : ∀ t, Cached R t ∧ Looked R s t →
        Cached (R + gain (none : Option (Entry × Name))) t ∧ Looked R s t := by
      rintro t ⟨ht, hl⟩
      refine ⟨?_, hl⟩
      rwa [gain, add_zero]
    rw [namexLoop, Disk.resolve]
    refine (hfound.ilock hR hE).bind ?_
    rintro _ t ⟨⟨ht, hinum⟩, hv⟩
    have htype := congrArg Dinode.type (ht.cached.synced ip hpos hv).1
    rw [hinum, ht.looked.disk] at htype
    rw [run_get_bind, ← htype]
    split_ifs with hdir hlast
    · refine (ht.iunlockput hR hE).bind ?_
      intro _ u hu
      exact ⟨(hnone u hu).1, (hnone u hu).2, rfl, nofun⟩
    · refine (iunlock_halts ht.cached (ht.looked.mute hE).self).bind ?_
      rintro _ u ⟨hu, hlu, -⟩
      obtain ⟨hfu, hinumu⟩ := ht.keep hR hlu hu
      refine ⟨hu, hfu.looked, ?_, ?_⟩
      · rw [Option.map_some, hinumu, hinum]
      · intro x hx
        cases hx
        exact hfu.anchored
    · refine (ht.dirlookup hR hE hs hv a).bind ?_
      rintro o u ⟨hfind, -, hsame, hboth⟩
      rw [hinum] at hfind
      rw [hfind]
      cases o with
      | none =>
        obtain rfl := hsame rfl
        refine (ht.iunlockput hR hE).bind ?_
        intro _ v hv'
        exact ⟨(hnone v hv').1, (hnone v hv').2, rfl, nofun⟩
      | some x =>
        obtain ⟨next, off⟩ := x
        refine ((hboth _ rfl).symm.iunlockput hR hE).bind ?_
        rintro _ v ⟨hv', hnext⟩
        refine (ih hv'.cached (hv'.looked.settled hs) hv'.anchored (hv'.looked.mute hE)).post ?_
        rintro o w ⟨hw, hlw, hres, hao⟩
        refine ⟨hw, hv'.looked.trans hlw, ?_, hao⟩
        rw [hnext, hv'.looked.disk] at hres
        rw [Option.map_some, Option.bind_some]
        exact hres

/-- The current directories are in use. -/
def Seated (R : Entry → ℤ) (s : State) : Prop := ∀ p e, (s.proc p).cwd = some e → 0 < R e

theorem namex_halts (h : Cached R s) (hR : ∀ x, 0 ≤ R x) (hs : Settled R s) (hcwd : Seated R s)
    (hE : Mute E s) :
    Halts (fun o t => Cached (R + gain o) t ∧ Looked R s t ∧
        s.lookup p path parent = o.map (fun x => ((t.cache x.1).inum, x.2)) ∧
        ∀ x, o = some x → Anchored R t (t.cache x.1).inum) E
      (namex sb p path parent s) := by
  have hstart : Halts (fun ip t => Cached (R + one ip) t ∧ Looked R s t ∧
      s.origin p path = some (t.cache ip).inum ∧ Anchored R t (t.cache ip).inum) E
      (pathStart p path s) := by
    rw [pathStart, State.origin]
    split_ifs with hslash
    · refine (iget_halts h hE.self).post ?_
      rintro ip t ⟨ht, hl, hip⟩
      rw [hip]
      exact ⟨ht, hl, rfl, hl.anchored hs.root⟩
    · rw [run_get_bind]
      cases hc : (s.proc p).cwd with
      | none => exact hE.self
      | some cwd =>
        have hpos := hcwd p cwd hc
        refine (idup_halts h hpos).post ?_
        rintro ip t ⟨rfl, ht, hl⟩
        rw [hl.inum ip hpos]
        exact ⟨ht, hl, rfl, hl.anchored (anchored_of_pos hpos)⟩
  rw [namex]
  refine hstart.bind ?_
  rintro ip t ⟨ht, hl, hip, ha⟩
  refine (namexLoop_halts ht hR (hl.settled hs) ha (hl.mute hE)).post ?_
  rintro o u ⟨hu, hlu, hres, hao⟩
  refine ⟨hu, hl.trans hlu, ?_, hao⟩
  rw [State.lookup, hip, Option.bind_some, ← hl.disk]
  exact hres

section

variable (h : Cached R s) (hR : ∀ x, 0 ≤ R x) (hs : Settled R s) (hcwd : Seated R s) (hE : Mute E s)
include h hR hs hcwd hE

theorem namei_halts (p : Slot) (path : CString) :
    Halts (fun o t => (o = none → Cached R t ∧ Looked R s t) ∧ ∀ ip, o = some ip → Found R ip s t) E
      (namei sb p path s) := by
  rw [namei]
  refine (namex_halts h hR hs hcwd hE).bind ?_
  rintro (_ | x) t ⟨ht, hl, -, ha⟩
  · rw [gain, add_zero] at ht
    exact ⟨fun _ => ⟨ht, hl⟩, fun ip hip => absurd hip (Option.some_ne_none ip).symm⟩
  · refine ⟨fun hx => absurd hx (Option.some_ne_none x.1), ?_⟩
    intro ip hip
    cases hip
    exact ⟨ht, hl, ha x rfl⟩

theorem nameiparent_halts (p : Slot) (path : CString) :
    Halts (fun o t => s.lookup p path true = o.map (fun x => ((t.cache x.1).inum, x.2)) ∧
        (o = none → Cached R t ∧ Looked R s t) ∧ ∀ x, o = some x → Found R x.1 s t) E
      (nameiparent sb p path s) := by
  refine (namex_halts h hR hs hcwd hE).post ?_
  rintro o t ⟨ht, hl, hlookup, ha⟩
  refine ⟨hlookup, ?_, ?_⟩
  · rintro rfl
    rw [gain, add_zero] at ht
    exact ⟨ht, hl⟩
  · rintro x rfl
    exact ⟨ht, hl, ha x rfl⟩

end

end Xv6Container.Ops
