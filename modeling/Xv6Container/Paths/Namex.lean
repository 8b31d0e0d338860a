import Xv6Container.Names.Dangling
import Xv6Container.Paths.Locks
import Xv6Container.Paths.Skipelem

/-! `namei` and `nameiparent`. The loop of `namex` takes the components off a path one by one, in one
buffer; it finds what looking up one component after the other leads to. -/

namespace Xv6Container.Paths

open Lib Names
open Fs (Entry Inum Stop CString)
open Ops (cutString nameOf nameOf_eq_iff)

/-- The loop of `namex`. -/
def namexLoop (nameiparent : Bool) (ip : Entry) (path : List UInt8) (name : ℕ → UInt8) :
    Run (Option Entry × (ℕ → UInt8)) :=
  match _ : skipelem path name with
  | none => do
    if nameiparent then
      iput ip
      return (none, name)
    else return (some ip, name)
  | some (path, name) => do
    ilock ip
    if ((← get).cache ip).copy.type ≠ .dir then
      iunlockput ip
      return (none, name)
    else if nameiparent ∧ deref path = 0 then
      iunlock ip
      return (some ip, name)
    else
      match ← dirlookup ip (nameOf name) with
      | none =>
        iunlockput ip
        return (none, name)
      | some (next, _) =>
        iunlockput ip
        namexLoop nameiparent next path name
termination_by path.length
decreasing_by exact skipelem_shorter ‹_›

/-- What `namex` returns, and the buffer. -/
def namex (p : Slot) (path : CString) (nameiparent : Bool) (name : ℕ → UInt8) :
    Run (Option Entry × (ℕ → UInt8)) := do
  let ip ← pathStart p path
  namexLoop nameiparent ip path.bytes name

/-- `name` is what the buffer holds before. -/
def namei (p : Slot) (path : CString) (name : ℕ → UInt8) : Run (Option Entry) := do
  return (← namex p path false name).1

def nameiparent (p : Slot) (path : CString) (name : ℕ → UInt8) :
    Run (Option Entry × (ℕ → UInt8)) := namex p path true name

/-- A directory and a component, looked up. -/
def lookupIn (n : Inum → Node) (i : Inum) (name : Name) : Option Inum :=
  if (n i).attr.type = .dir then (findEntry (n i).entries name).map Prod.snd else none

/-- One component after the other. -/
def walk (n : Inum → Node) (i : Inum) (names : List Name) : Option Inum :=
  names.foldlM (lookupIn n) i

variable {B : Prop} {R : Entry → ℤ} {s t : State} {ip cwd : Entry} {i j : Inum} {p : Slot}
  {n : Inum → Node} {path : List UInt8} {name : ℕ → UInt8} {names : List Name} {last : Name}
  {parent : Bool}

/-! ### The walk -/

theorem walk_cons (n : Inum → Node) (i : Inum) (a : Name) (names : List Name) :
    walk n i (a :: names) = (lookupIn n i a).bind fun j => walk n j names := rfl

/-- A walk fails where a name is not found, or is looked up in something that is not a directory. -/
theorem walk_eq_none_iff : walk n i names = none ↔
    ∃ before a after j, names = before ++ a :: after ∧ walk n i before = some j ∧
      ((n j).attr.type ≠ .dir ∨ findEntry (n j).entries a = none) := by
  induction names generalizing i with
  | nil => exact ⟨nofun, fun ⟨before, a, after, _, h, _⟩ => by simp at h⟩
  | cons b names ih =>
    have hlookup : lookupIn n i b = none ↔
        ((n i).attr.type ≠ .dir ∨ findEntry (n i).entries b = none) := by
      rw [lookupIn]
      split_ifs with hdir
      · rw [Option.map_eq_none_iff]
        exact ⟨.inr, fun h => h.resolve_left (not_not.2 hdir)⟩
      · exact ⟨fun _ => .inl hdir, fun _ => rfl⟩
    rw [walk_cons]
    cases hl : lookupIn n i b with
    | none => exact ⟨fun _ => ⟨[], b, names, i, rfl, rfl, hlookup.1 hl⟩, fun _ => rfl⟩
    | some j =>
      rw [Option.bind_some, ih]
      constructor
      · rintro ⟨before, a, after, k, rfl, hwalk, hbad⟩
        refine ⟨b :: before, a, after, k, rfl, ?_, hbad⟩
        rw [walk_cons, hl, Option.bind_some, hwalk]
      · rintro ⟨before, a, after, k, hnames, hwalk, hbad⟩
        cases before with
        | nil =>
          obtain ⟨rfl, rfl⟩ := List.cons.inj hnames
          cases hwalk
          rw [hlookup.2 hbad] at hl
          cases hl
        | cons c before =>
          obtain ⟨rfl, rfl⟩ := List.cons.inj hnames
          rw [walk_cons, hl, Option.bind_some] at hwalk
          exact ⟨before, a, after, k, rfl, hwalk, hbad⟩

/-- `resolve` is the walk. -/
theorem resolve_eq_walk (n : Inum → Node) (i : Inum) (a : Name) (names : List Name) :
    (resolve n false i a names).map Prod.fst = walk n i names := by
  induction names generalizing i a with
  | nil => rfl
  | cons b names ih =>
    rw [resolve, walk_cons, lookupIn]
    by_cases hdir : (n i).attr.type = .dir
    · rw [if_neg (not_not.2 hdir), if_neg (by simp), if_pos hdir, Option.map_bind, Option.bind_map]
      congr 1
      funext x
      exact ih x.2 b
    · rw [if_pos hdir, if_neg hdir]
      rfl

/-- For the parent the walk ends before the last name, at a directory. -/
theorem resolve_parent (n : Inum → Node) (i : Inum) (a : Name) (names : List Name) (last : Name) :
    resolve n true i a (names ++ [last]) =
      ((walk n i names).filter fun j => (n j).attr.type = .dir).map fun j => (j, last) := by
  induction names generalizing i a with
  | nil =>
    show resolve n true i a [last] = ((some i).filter _).map _
    rw [resolve]
    by_cases hdir : (n i).attr.type = .dir
    · rw [if_neg (not_not.2 hdir), if_pos ⟨rfl, rfl⟩, Option.filter_some_pos (by simpa using hdir)]
      rfl
    · rw [if_pos hdir, Option.filter_some_neg (by simpa using hdir)]
      rfl
  | cons b names ih =>
    rw [List.cons_append, resolve, walk_cons, lookupIn]
    by_cases hdir : (n i).attr.type = .dir
    · rw [if_neg (not_not.2 hdir), if_neg (by simp), if_pos hdir]
      cases findEntry (n i).entries b with
      | none => rfl
      | some x => exact ih x.2 b
    · rw [if_pos hdir, if_neg hdir]
      rfl

/-! ### The loop -/

theorem namexLoop_none (h : skipelem path name = none) : namexLoop parent ip path name = (do
    if parent then
      iput ip
      return (none, name)
    else return (some ip, name)) := by
  rw [namexLoop]
  split
  next => rfl
  next h' => cases h.symm.trans h'

theorem namexLoop_some {path' : List UInt8} {name' : ℕ → UInt8}
    (h : skipelem path name = some (path', name')) : namexLoop parent ip path name = (do
    ilock ip
    if ((← get).cache ip).copy.type ≠ .dir then
      iunlockput ip
      return (none, name')
    else if parent ∧ deref path' = 0 then
      iunlock ip
      return (some ip, name')
    else
      match ← dirlookup ip (nameOf name') with
      | none =>
        iunlockput ip
        return (none, name')
      | some (next, _) =>
        iunlockput ip
        namexLoop parent next path' name') := by
  rw [namexLoop]
  split
  next h' => cases h.symm.trans h'
  next h' =>
    cases h.symm.trans h'
    rfl

/-- The entry and the name in the buffer. -/
def found (r : Option Entry × (ℕ → UInt8)) : Option (Entry × Name) := r.1.map fun e => (e, nameOf r.2)

/-- The loop with the buffer is the one over the components. -/
theorem found_namexLoop (h0 : 0 ∉ path) : (found <$> namexLoop parent ip path name) =
    Names.namexLoop parent ip (nameOf name) ((components slash path).map .cut) := by
  induction hn : path.length using Nat.strong_induction_on generalizing path name ip with
  | h n ih =>
    cases hskip : skipelem path name with
    | none =>
      rw [namexLoop_none hskip, (skipelem_eq_none h0).1 hskip, List.map_nil, Names.namexLoop]
      cases parent with
      | true => simp [found]
      | false => simp [found]
    | some x =>
      obtain ⟨path', name'⟩ := x
      obtain ⟨w, hcomp, hholds, hend, h0'⟩ := skipelem_eq_some h0 hskip
      have hname : nameOf name' = .cut w := nameOf_eq_iff.2 hholds.name_eq
      have hderef : deref path' = 0 ↔ (components slash path').map Name.cut = [] := by
        rw [List.map_eq_nil_iff, ← hend]
        cases path' with
        | nil => exact ⟨fun _ => rfl, fun _ => rfl⟩
        | cons c rest => exact ⟨fun h => absurd (h ▸ List.mem_cons_self) h0', by rintro ⟨⟩⟩
      have hrec : ∀ next, (found <$> namexLoop parent next path' name') =
          Names.namexLoop parent next (.cut w) ((components slash path').map .cut) := fun next =>
        hname ▸ @ih path'.length (hn ▸ skipelem_shorter hskip) next path' name' h0' rfl
      rw [namexLoop_some hskip, hcomp, List.map_cons, Names.namexLoop, hname]
      simp only [hderef, map_bind]
      congr 1
      funext _
      congr 1
      funext s
      split_ifs
      · simp [found]
      · simp [found, hname]
      · rw [map_bind]
        congr 1
        funext o
        cases o with
        | none => simp [found]
        | some x => rw [map_bind, hrec]

/-! ### `namei` and `nameiparent` -/

/-- A lookup has returned `ip`: there is one reference more, to `ip`, no lock more, and the disk is as
it was. -/
structure Released (B : Prop) (s : State) (ip : Option Entry) (t : State) : Prop where
  cached : Cached B (hold s + ptr ip) t
  looked : Looked (hold s) s t
  locks_eq : locks t = locks s

/-- The stops of a lookup: a full cache, a free inode, a lock to wait for. -/
inductive Halted (B : Prop) (s : State) : Stop → Prop
  | full : Halted B s (.panic "iget: no inodes")
  | free (h : ¬B) : Halted B s (.panic "ilock: no type")
  | wait {e : Entry} (h : locks s e = true) : Halted B s .blocked

theorem halted_of_stops {r : Stop} (h : Legal B r) (h' : Stops (locks s) r) : Halted B s r := by
  cases h' with
  | full => exact .full
  | free => exact .free fun b => h b rfl
  | wait he => exact .wait he

/-- Where a path starts. -/
def origin (s : State) (cwd : Entry) (path : CString) : Inum :=
  if path.bytes.head? = some slash then ROOTINO else (s.cache cwd).inum

/-- The components, cut to `DIRSIZ` bytes. -/
def namesOf (path : CString) : List Name := (components slash path.bytes).map .cut

theorem gain_found (r : Option Entry × (ℕ → UInt8)) : gain (found r) = ptr r.1 := by
  obtain ⟨o, name⟩ := r
  cases o with
  | none => exact ptr_none.symm
  | some e => exact (ptr_some e).symm

theorem namex_ends {path : CString} (h : Steady B s) (hB : B → Whole s.node)
    (hcwd : (s.proc p).cwd = some cwd) :
    Ends (fun r t => Released B s r.1 t ∧ ∃ a,
      resolve s.node parent (origin s cwd path) a (namesOf path) =
        (found r).map fun x => ((t.cache x.1).inum, x.2)) (Halted B s) (namex p path parent name s) := by
  have hR := hold_nonneg s
  rw [namex]
  have hstart : Ends _ (Legal B) (pathStart p path s) := pathStart_ends h.cached Seated.hold hB
  have hfree : Ends _ (Stops (locks s)) (pathStart p path s) := pathStart_locks hcwd
  refine ((hstart.and hfree).mono (fun _ _ => id) fun r hr => halted_of_stops hr.1 hr.2).bind ?_
  rintro ip t ⟨⟨ht, hl, hip⟩, hlocks⟩
  have horigin : (t.cache ip).inum = origin s cwd path := by
    rw [State.origin, hcwd] at hip
    rw [origin]
    split_ifs at hip ⊢ with hslash
    · exact (Option.some.inj hip).symm
    · exact (Option.some.inj hip).symm
  have hst : Settled (hold s) t := hl.settled h.cached.settled
  have hBt : B → Whole t.node := fun b => hl.node ▸ hB b
  have hloop : Ends _ (Legal B) (Names.namexLoop parent ip (nameOf name) (namesOf path) t) :=
    namexLoop_ends ht hR hst hBt
  have hback : Ends _ (Stops (locks s)) (Names.namexLoop parent ip (nameOf name) (namesOf path) t) :=
    namexLoop_locks ht hR hst hBt fun x hx => hlocks ▸ hx
  have hends := hloop.and hback
  rw [namesOf, ← found_namexLoop path.nonzero] at hends
  refine hends.of_map.mono ?_ fun r hr => halted_of_stops hr.1 hr.2
  rintro r u ⟨⟨hu, hlu, hres⟩, hlocksu⟩
  refine ⟨⟨gain_found r ▸ hu, hl.trans hlu, hlocksu.trans hlocks⟩, nameOf name, ?_⟩
  rw [← horigin, ← hl.node]
  exact hres

theorem namei_ends {path : CString} (h : Steady B s) (hB : B → Whole s.node)
    (hcwd : (s.proc p).cwd = some cwd) :
    Ends (fun r t => Released B s r t ∧ r.map (fun e => (t.cache e).inum) =
      walk s.node (origin s cwd path) (namesOf path)) (Halted B s) (namei p path name s) := by
  rw [namei]
  refine (namex_ends h hB hcwd).bind fun r t ⟨ht, a, hres⟩ => ends_ok.2 ⟨ht, ?_⟩
  have hwalk := resolve_eq_walk s.node (origin s cwd path) a (namesOf path)
  rw [hres] at hwalk
  rw [← hwalk, found]
  cases r.1 with
  | none => rfl
  | some e => rfl

theorem nameiparent_ends {path : CString} (h : Steady B s) (hB : B → Whole s.node)
    (hcwd : (s.proc p).cwd = some cwd) :
    Ends (fun r t => Released B s r.1 t ∧ (namesOf path = [] → r.1 = none) ∧
      ∀ before last, namesOf path = before ++ [last] →
        r.1.map (fun e => (t.cache e).inum) =
          (walk s.node (origin s cwd path) before).filter (fun j => (s.node j).attr.type = .dir) ∧
        (r.1 ≠ none → nameOf r.2 = last)) (Halted B s) (nameiparent p path name s) := by
  rw [nameiparent]
  refine (namex_ends h hB hcwd).post fun r t ⟨ht, a, hres⟩ => ⟨ht, ?_, ?_⟩
  · intro hnil
    rw [hnil, resolve, if_pos rfl, found] at hres
    cases hr : r.1 with
    | none => rfl
    | some e =>
      rw [hr] at hres
      cases hres
  · intro before last hlast
    rw [hlast, resolve_parent, found] at hres
    cases hr : r.1 with
    | none =>
      rw [hr] at hres
      refine ⟨?_, fun hne => absurd rfl hne⟩
      exact (Option.map_eq_none_iff.1 hres).symm
    | some e =>
      rw [hr] at hres
      obtain ⟨j, hj, heq⟩ := Option.map_eq_some_iff.1 hres
      obtain ⟨rfl, hname⟩ := Prod.mk.inj heq
      exact ⟨hj.symm, fun _ => hname.symm⟩

/-- `skipelem`, called over and over, goes through the components of a path, each cut to `DIRSIZ`
bytes, and nothing is left of the path exactly at the last one. `namei` is the walk over them from the
root or the current directory, which fails where a name is not found or is looked up in something
that is not a directory; `nameiparent` is the walk over all but the last, at the end of which there
must be a directory too, and leaves the last name in the buffer. Both hold one reference more, to the
inode that they return, and no lock. -/
theorem namei_walks (h : Steady B s) (hB : B → Whole s.node) (hcwd : (s.proc p).cwd = some cwd)
    (path : CString) (name : ℕ → UInt8) :
    ((iterate path.bytes name).map (fun x => cutString x.1 DIRSIZ) =
      (components slash path.bytes).map (List.take DIRSIZ)) ∧
    (∀ k x, (iterate path.bytes name)[k]? = some x →
      (x.2 = [] ↔ k + 1 = (components slash path.bytes).length)) ∧
    Ends (fun r t => Released B s r t ∧ r.map (fun e => (t.cache e).inum) =
      walk s.node (origin s cwd path) (namesOf path)) (Halted B s) (namei p path name s) ∧
    (walk s.node (origin s cwd path) (namesOf path) = none ↔
      ∃ before a after j, namesOf path = before ++ a :: after ∧
        walk s.node (origin s cwd path) before = some j ∧
        ((s.node j).attr.type ≠ .dir ∨ findEntry (s.node j).entries a = none)) ∧
    Ends (fun r t => Released B s r.1 t ∧ (namesOf path = [] → r.1 = none) ∧
      ∀ before last, namesOf path = before ++ [last] →
        r.1.map (fun e => (t.cache e).inum) =
          (walk s.node (origin s cwd path) before).filter (fun j => (s.node j).attr.type = .dir) ∧
        (r.1 ≠ none → nameOf r.2 = last)) (Halted B s) (nameiparent p path name s) := by
  obtain ⟨hnames, hrests⟩ := iterate_components name path.nonzero
  exact ⟨hnames, fun k x hx => (hrests k x hx).2.1, namei_ends h hB hcwd, walk_eq_none_iff,
    nameiparent_ends h hB hcwd⟩

/-- The path `//.//../`. -/
def dots : CString := ⟨[47, 47, 46, 47, 47, 46, 46, 47], by decide⟩

/-- The root, by way of two of its entries. -/
theorem namei_walks_dots : namesOf dots = [.dot, .dotdot] ∧
    Ends (fun r t => Released True boot r t ∧ r.map (fun e => (t.cache e).inum) = some ROOTINO)
      (Halted True boot) (namei 0 dots (fun _ => 1) boot) := by
  have hnames : namesOf dots = [.dot, .dotdot] := by decide
  have hwalk : walk boot.node (origin boot 0 dots) (namesOf dots) = some ROOTINO := by decide
  have hcwd : (boot.proc 0).cwd = some 0 := rfl
  have h := namei_walks (B := True) boot_steady (fun _ => boot_wellFormed.tree.whole trivial) hcwd dots
    fun _ => 1
  exact ⟨hnames, hwalk ▸ h.2.2.1⟩

end Xv6Container.Paths
