import Xv6Container.Names.Cache

/-! Path lookup. `resolve` is what a list of names leads to on the disk; `namex` finds just
that, leaves the disk alone and ends with one reference more, to the inode it has found. -/

namespace Xv6Container.Names

open Lib Fs

variable {B : Prop} {R : Entry → ℤ} {s t u : State} {e dp ip : Entry} {i : Inum} {p : Slot}
  {n n' : Inum → Node}

/-! ### The walk on the disk -/

/-- The inode that the names lead to from `i`, with the last name cut off; with `parent` it
is the inode that the last name is looked up in. -/
def resolve (n : Inum → Node) (parent : Bool) : Inum → Name → List Name → Option (Inum × Name)
  | i, name, [] => if parent then none else some (i, name)
  | i, _, name :: names =>
    if (n i).attr.type ≠ .dir then none
    else if parent ∧ names = [] then some (i, name)
    else (findEntry (n i).entries name).bind fun x => resolve n parent x.2 name names

/-- Where the path of a process starts. -/
def State.origin (s : State) (p : Slot) (path : CString) : Option Inum :=
  if path.bytes.head? = some slash then some ROOTINO
  else (s.proc p).cwd.map fun e => (s.cache e).inum

/-- The inode of a path and the last element of the path. -/
def State.lookup (s : State) (p : Slot) (path : CString) (parent : Bool) : Option (Inum × Name) :=
  (s.origin p path).bind fun i => resolve s.node parent i (.cut []) (pathNames path)

/-- The directory that the last element of a path is in. -/
def State.parentOf (s : State) (p : Slot) (path : CString) : Option (Inum × Name) :=
  s.lookup p path true

/-- The inode of a path. -/
def State.target (s : State) (p : Slot) (path : CString) : Option Inum :=
  (s.lookup p path false).map Prod.fst

/-- The walk depends on the types of the inodes and on the entries only. -/
theorem resolve_congr (htype : ∀ i, (n' i).attr.type = (n i).attr.type)
    (hentries : ∀ i, (n' i).entries = (n i).entries) (parent : Bool) (i : Inum) (name : Name)
    (names : List Name) : resolve n' parent i name names = resolve n parent i name names := by
  induction names generalizing i name with
  | nil => rfl
  | cons a names ih =>
    simp only [resolve, htype, hentries, ih]

/-- The last element is looked up in a directory. -/
theorem resolve_parent_dir {name name' : Name} {names : List Name} {d : Inum}
    (h : resolve n true i name names = some (d, name')) : (n d).attr.type = .dir := by
  induction names generalizing i name with
  | nil => cases h
  | cons a names ih =>
    simp only [resolve] at h
    split_ifs at h with htype hlast
    · cases h
      exact not_not.1 htype
    · obtain ⟨x, -, hx⟩ := Option.bind_eq_some_iff.1 h
      exact ih hx

theorem State.parentOf_dir {path : CString} {d : Inum} {name : Name}
    (h : s.parentOf p path = some (d, name)) : (s.node d).attr.type = .dir := by
  obtain ⟨i, -, hi⟩ := Option.bind_eq_some_iff.1 h
  exact resolve_parent_dir hi

theorem findEntry_mem {entries : List Dirent} {name : Name} {x : ℕ × Inum}
    (h : findEntry entries name = some x) : entries[x.1]? = some (some (name, x.2)) := by
  induction entries generalizing x with
  | nil => cases h
  | cons de rest ih =>
    cases de with
    | none =>
      obtain ⟨y, hy, rfl⟩ := Option.map_eq_some_iff.1 h
      exact ih hy
    | some de =>
      obtain ⟨a, j⟩ := de
      simp only [findEntry] at h
      split_ifs at h with ha
      · cases h
        rw [ha]
        rfl
      · obtain ⟨y, hy, rfl⟩ := Option.map_eq_some_iff.1 h
        exact ih hy

/-- The entries of directories name inodes in use, and so does the root. -/
structure Whole (n : Inum → Node) : Prop where
  root : (n ROOTINO).attr.type ≠ .free
  entries : ∀ d name i, (n d).attr.type = .dir → some (name, i) ∈ (n d).entries →
    (n i).attr.type ≠ .free

theorem Whole.find (h : Whole n) {d : Inum} (hd : (n d).attr.type = .dir) {name : Name}
    {x : ℕ × Inum} (hx : findEntry (n d).entries name = some x) : (n x.2).attr.type ≠ .free :=
  h.entries d name x.2 hd (List.mem_of_getElem? (findEntry_mem hx))

/-! ### `dirlookup` and `namex` -/

/-- The references that a lookup hands out. -/
def gain {β : Type} : Option (Entry × β) → Entry → ℤ
  | none => 0
  | some (e, _) => one e

/-- The type of an inode in use that has been read. -/
theorem Counted.type_eq (h : Counted B R s) (he : 0 < R e) (hv : (s.cache e).valid = true) :
    (s.cache e).copy.type = (s.node (s.cache e).inum).attr.type := by
  rw [h.copy_eq he hv]

theorem dirlookup_ends (h : Cached B R s) (hdp : 0 < R dp) (hv : (s.cache dp).valid = true)
    (hB : B → Whole s.node) (name : Name) :
    Ends (fun o t => Cached B (R + gain o) t ∧ Looked R s t ∧
      (s.node (s.cache dp).inum).attr.type = .dir ∧
      findEntry (s.node (s.cache dp).inum).entries name =
        o.map fun x => (x.2, (t.cache x.1).inum)) (Legal B) (dirlookup dp name s) := by
  simp only [dirlookup, run_get_bind, h.type_eq hdp hv]
  split_ifs with htype
  · exact ends_error.2 (legal_panic (by decide))
  · rw [not_not] at htype
    cases hf : findEntry (s.node (s.cache dp).inum).entries name with
    | none => exact ends_ok.2 ⟨by simpa [gain] using h, .refl R s, htype, rfl⟩
    | some x =>
      obtain ⟨off, inum⟩ := x
      refine (iget_ends h fun b => (hB b).find htype hf).bind fun ip t ⟨ht, hl, hip⟩ => ?_
      exact ends_ok.2 ⟨ht, hl, htype, by simp [hip]⟩

theorem namexLoop_ends {parent : Bool} {names : List Name} {name : Name}
    (h : Cached B (R + one ip) s) (hR : ∀ x, 0 ≤ R x) (hs : Settled R s) (hB : B → Whole s.node) :
    Ends (fun o t => Cached B (R + gain o) t ∧ Looked R s t ∧
      resolve s.node parent (s.cache ip).inum name names =
        o.map fun x => ((t.cache x.1).inum, x.2)) (Legal B) (namexLoop parent ip name names s) := by
  induction names generalizing ip name s with
  | nil =>
    simp only [namexLoop, resolve]
    split_ifs
    · refine (iput_looks h (hR ip) hs).bind fun _ t ⟨ht, hl⟩ => ends_ok.2 ⟨?_, hl, rfl⟩
      simpa [gain] using ht
    · exact ends_ok.2 ⟨h, .refl R s, rfl⟩
  | cons a names ih =>
    have hip : 0 < (R + one ip) ip := add_one_pos (hR ip)
    simp only [namexLoop]
    refine (ilock_ends h hip).bind fun _ t ⟨ht, hlt, hv⟩ => ?_
    have hinum : (t.cache ip).inum = (s.cache ip).inum := hlt.inum ip hip
    have hst : Settled R t := hlt.drop.settled hs
    simp only [resolve, run_get_bind, ht.type_eq hip hv, hinum, hlt.node]
    split_ifs with htype hlast
    · refine (iunlockput_looks ht (hR ip) hst).bind fun _ u ⟨hu, hlu⟩ => ends_ok.2 ⟨?_, ?_, rfl⟩
      · simpa [gain] using hu
      · exact hlt.drop.trans hlu
    · refine (iunlock_ends ht).bind fun _ u ⟨hu, hlu⟩ => ends_ok.2 ⟨hu, ?_, ?_⟩
      · exact hlt.drop.trans hlu.drop
      · rw [Option.map_some, hlu.inum ip hip, hinum]
    · have hB' : B → Whole t.node := fun b => hlt.node ▸ hB b
      refine (dirlookup_ends ht hip hv hB' a).bind fun o u ⟨hu, hlu, _, hfind⟩ => ?_
      have hsu : Settled R u := hlu.drop.settled hst
      rw [hinum, hlt.node] at hfind
      cases o with
      | none =>
        simp only [gain, add_zero] at hu
        rw [hfind]
        refine (iunlockput_looks hu (hR ip) hsu).bind fun _ v ⟨hv', hlv⟩ => ends_ok.2 ⟨?_, ?_, rfl⟩
        · simpa [gain] using hv'
        · exact (hlt.drop.trans hlu.drop).trans hlv
      | some x =>
        obtain ⟨next, off⟩ := x
        rw [hfind]
        have hu' : Cached B (R + one next + one ip) u := by
          rw [add_right_comm]
          exact hu
        have hsu' : Settled (R + one next) u := fun i hi hn => by
          obtain ⟨x, hx, hxi⟩ := hsu i hi hn
          exact ⟨x, lt_add_one hx next, hxi⟩
        have hnext : 0 < (R + one next) next := add_one_pos (hR next)
        refine (iunlockput_looks hu' (add_one_nonneg hR next ip) hsu').bind
          fun _ v ⟨hv', hlv⟩ => ?_
        have hall : Looked R s v := (hlt.drop.trans hlu.drop).trans hlv.drop
        have hloop : Ends _ (Legal B) (namexLoop parent next a names v) :=
          ih hv' (hall.settled hs) fun b => hall.node ▸ hB b
        rw [hlv.inum next hnext, hall.node] at hloop
        refine hloop.post fun o w ⟨hw, hlw, hres⟩ => ⟨hw, hall.trans hlw, ?_⟩
        rw [Option.map_some, Option.bind_some]
        exact hres

/-- The current directories are in use. -/
def Seated (R : Entry → ℤ) (s : State) : Prop := ∀ p e, (s.proc p).cwd = some e → 0 < R e

theorem pathStart_ends {path : CString} (h : Cached B R s) (hcwd : Seated R s)
    (hB : B → Whole s.node) :
    Ends (fun ip t => Cached B (R + one ip) t ∧ Looked R s t ∧
      s.origin p path = some (t.cache ip).inum) (Legal B) (pathStart p path s) := by
  simp only [pathStart, State.origin]
  split_ifs with hslash
  · refine (iget_ends h fun b => (hB b).root).post fun ip t ⟨ht, hl, hip⟩ => ⟨ht, hl, ?_⟩
    rw [hip]
  · rw [run_get_bind]
    cases hc : (s.proc p).cwd with
    | none => exact ends_error.2 legal_disabled
    | some cwd =>
      have hpos := hcwd p cwd hc
      refine (idup_ends h hpos).post fun ip t ⟨hip, ht, hl⟩ => ?_
      rw [hip]
      exact ⟨ht, hl, by rw [hl.inum cwd hpos]; rfl⟩

theorem namex_ends {path : CString} {parent : Bool} (h : Cached B R s) (hR : ∀ x, 0 ≤ R x)
    (hcwd : Seated R s) (hB : B → Whole s.node) :
    Ends (fun o t => Cached B (R + gain o) t ∧ Looked R s t ∧
      s.lookup p path parent = o.map fun x => ((t.cache x.1).inum, x.2)) (Legal B)
      (namex p path parent s) := by
  refine (pathStart_ends h hcwd hB).bind fun ip t ⟨ht, hl, hip⟩ => ?_
  refine (namexLoop_ends ht hR (hl.settled h.settled) fun b => hl.node ▸ hB b).post
    fun o u ⟨hu, hlu, hres⟩ => ⟨hu, hl.trans hlu, ?_⟩
  rw [State.lookup, hip, Option.bind_some, ← hl.node]
  exact hres

theorem namei_ends {path : CString} (h : Cached B R s) (hR : ∀ x, 0 ≤ R x) (hcwd : Seated R s)
    (hB : B → Whole s.node) :
    Ends (fun o t => Cached B (R + ptr o) t ∧ Looked R s t ∧
      s.target p path = o.map fun e => (t.cache e).inum) (Legal B) (namei p path s) := by
  refine (namex_ends h hR hcwd hB).bind fun o t ⟨ht, hl, hlook⟩ => ends_ok.2 ⟨?_, hl, ?_⟩
  · cases o with
    | none => simpa [gain] using ht
    | some x => simpa [gain] using ht
  · rw [State.target, hlook, Option.map_map, Option.map_map]
    rfl

theorem nameiparent_ends {path : CString} (h : Cached B R s) (hR : ∀ x, 0 ≤ R x)
    (hcwd : Seated R s) (hB : B → Whole s.node) :
    Ends (fun o t => Cached B (R + gain o) t ∧ Looked R s t ∧
      s.parentOf p path = o.map fun x => ((t.cache x.1).inum, x.2)) (Legal B)
      (nameiparent p path s) :=
  namex_ends h hR hcwd hB

end Xv6Container.Names
