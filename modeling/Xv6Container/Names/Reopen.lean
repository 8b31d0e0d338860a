import Xv6Container.Names.Links

/-! The two ways of `sys_open` to an inode. With `O_CREATE` the path is replaced by a name
built from it and the container, without it the path is looked up as it is. A later open
finds the inode of the first one, as long as nothing is unlinked, just if the path and that
name lead to the same entry or to the same inode. -/

namespace Xv6Container.Names

open Lib Fs

variable {W : Prop} {s t u : State} {n n' m : Inum → Node} {p q : Slot} {path path' : CString}
  {i j d : Inum} {name a : Name} {names : List Name} {parent : Bool} {es : List Dirent}
  {x : ℕ × Inum} {adds makes removes : Option Inum}

/-! ### Walks that go on leading to the same inode -/

/-- The directories in which the names are looked up. -/
def visited (n : Inum → Node) : Inum → List Name → List Inum
  | _, [] => []
  | i, name :: names =>
    i :: match findEntry (n i).entries name with
      | none => []
      | some x => visited n x.2 names

/-- Names found in a directory are found there again. -/
structure Kept (n n' : Inum → Node) (d : Inum) : Prop where
  type : (n' d).attr.type = (n d).attr.type
  find : ∀ name x, findEntry (n d).entries name = some x → findEntry (n' d).entries name = some x

theorem Kept.refl (n : Inum → Node) (d : Inum) : Kept n n d := ⟨rfl, fun _ _ h => h⟩

theorem Kept.of_eq (h : n' d = n d) : Kept n n' d := by
  refine ⟨?_, fun _ _ hx => ?_⟩
  · rw [h]
  · rwa [h]

theorem Kept.trans (h : Kept n n' d) (h' : Kept n' m d) : Kept n m d :=
  ⟨h'.type.trans h.type, fun name x hx => h'.find name x (h.find name x hx)⟩

theorem resolve_kept (h : resolve n parent i name names = some (d, a))
    (hk : ∀ j ∈ visited n i names, Kept n n' j) :
    resolve n' parent i name names = some (d, a) := by
  induction names generalizing i name with
  | nil => exact h
  | cons b names ih =>
    have hi : Kept n n' i := hk i List.mem_cons_self
    simp only [resolve, hi.type] at h ⊢
    split_ifs at h ⊢ with htype hlast
    · exact h
    · obtain ⟨x, hx, hrest⟩ := Option.bind_eq_some_iff.1 h
      rw [hi.find b x hx]
      refine ih hrest fun j hj => hk j ?_
      rw [visited, hx]
      exact List.mem_cons_of_mem i hj

/-- The inode of a path is what its last element is found to be. -/
theorem resolve_last (h : resolve n true i name names = some (d, a)) :
    resolve n false i name names = (findEntry (n d).entries a).map fun x => (x.2, a) := by
  induction names generalizing i name with
  | nil => cases h
  | cons b names ih =>
    simp only [resolve, Bool.false_eq_true, false_and, if_false, true_and] at h ⊢
    split_ifs at h ⊢ with htype hlast
    · cases h
      rw [hlast]
      cases findEntry (n d).entries a <;> rfl
    · obtain ⟨x, hx, hrest⟩ := Option.bind_eq_some_iff.1 h
      rw [hx, Option.bind_some]
      exact ih hrest

/-! ### What a call keeps -/

theorem findEntry_insertFree (hf : findEntry es name = none) :
    ∃ off, findEntry (insertFree es (some (name, i))) name = some (off, i) := by
  induction es with
  | nil => exact ⟨0, by simp [insertFree, findEntry]⟩
  | cons de es ih =>
    cases de with
    | none => exact ⟨0, by simp [insertFree, findEntry]⟩
    | some y =>
      simp only [findEntry] at hf
      split_ifs at hf with hy
      obtain ⟨off, hoff⟩ := ih (Option.map_eq_none_iff.1 hf)
      refine ⟨off + 1, ?_⟩
      rw [insertFree, findEntry, if_neg hy, hoff]
      rfl

/-- Other names are found as before. -/
theorem findEntry_insertFree_of_ne (hne : a ≠ name) :
    findEntry (insertFree es (some (name, i))) a = findEntry es a := by
  induction es with
  | nil => simp [insertFree, findEntry, hne.symm]
  | cons de es ih =>
    cases de with
    | none =>
      rw [insertFree, findEntry, if_neg hne.symm]
      rfl
    | some y => rw [insertFree, findEntry, findEntry, ih]

theorem Kept.insertFree (hd : (n' d).attr.type = (n d).attr.type)
    (hes : (n' d).entries = insertFree (n d).entries (some (name, i)))
    (hf : findEntry (n d).entries name = none) : Kept n n' d := by
  refine ⟨hd, fun b x hx => ?_⟩
  have hne : b ≠ name := by
    rintro rfl
    rw [hf] at hx
    cases hx
  rw [hes, findEntry_insertFree_of_ne hne]
  exact hx

/-- What a call without `unlink` does to an inode in use: it has its entries and its links
after it. -/
theorem Edit.kept (h : Edit W adds makes removes n m) (hW : ¬ W)
    (hj : (n j).attr.type ≠ .free) :
    Kept n m j ∧ (n j).attr.nlink ≤ (m j).attr.nlink := by
  cases h with
  | same => exact ⟨.refl n j, le_refl _⟩
  | @make d i name a _ _ hd hname hi0 hi _ _ =>
    have hji : j ≠ i := fun hji => hj (hji ▸ hi)
    by_cases hjd : j = d
    · subst hjd
      have hself : made n j name i a j = ⟨if a.type = .dir then
          { (n j).attr with nlink := (n j).attr.nlink + 1 } else (n j).attr,
          Names.insertFree (n j).entries (some (name, i))⟩ := Function.update_self ..
      refine ⟨.insertFree ?_ (congrArg Node.entries hself) hname, ?_⟩
      · rw [hself]
        split_ifs <;> rfl
      · rw [hself]
        split_ifs
        · exact Int.le_add_one (le_refl _)
        · exact le_refl _
    · have hother : made n d name i a j = n j := by
        rw [made, Function.update_of_ne hjd, Function.update_of_ne hji]
      exact ⟨.of_eq hother, by rw [hother]⟩
  | @link d i name _ hd hname hi _ =>
    have hdi : d ≠ i := by
      rintro rfl
      exact hi hd
    by_cases hjd : j = d
    · subst hjd
      have hself := Function.update_self j (⟨(n j).attr,
        Names.insertFree (n j).entries (some (name, i))⟩ : Node) (Function.update n i
        ⟨{ (n i).attr with nlink := (n i).attr.nlink + 1 }, (n i).entries⟩)
      exact ⟨.insertFree (by rw [hself]) (congrArg Node.entries hself) hname, by rw [hself]⟩
    · rw [Function.update_of_ne hjd]
      by_cases hji : j = i
      · subst hji
        refine ⟨⟨?_, fun b x hx => ?_⟩, ?_⟩
        · rw [Function.update_of_ne hjd, Function.update_self]
        · rw [Function.update_of_ne hjd, Function.update_self]
          exact hx
        · rw [Function.update_self]
          exact Int.le_add_one (le_refl _)
      · have hother := Function.update_of_ne hji (⟨{ (n i).attr with
          nlink := (n i).attr.nlink + 1 }, (n i).entries⟩ : Node) n
        rw [hother]
        refine ⟨.of_eq ?_, le_refl _⟩
        rw [Function.update_of_ne hjd, hother]
  | remove hw => exact absurd hw hW
  | removeDir hw => exact absurd hw hW

/-- An inode is not touched unless it has no link and is free in the end. -/
theorem Swept.node_eq (h : Swept n m) (j : Inum) :
    m j = n j ∨ (n j).attr.nlink = 0 ∧ (m j).attr.type = .free := by
  induction h with
  | refl => exact Or.inl rfl
  | @tail k m _ hc ih =>
    obtain ⟨i, htype, hlink, rfl⟩ := hc
    by_cases hji : j = i
    · subst hji
      rcases ih with hk | ⟨-, hk⟩
      · rw [hk] at hlink
        exact Or.inr ⟨hlink, by rw [Function.update_self]⟩
      · exact absurd hk htype
    · rw [Function.update_of_ne hji]
      exact ih

/-- A call without `unlink` keeps an inode that has a link or is still in use after it. -/
theorem Effect.kept (h : Effect W adds makes removes n m) (hW : ¬ W)
    (hj : (n j).attr.type ≠ .free)
    (hkeep : 0 < (n j).attr.nlink ∨ (m j).attr.type ≠ .free) :
    Kept n m j ∧ (n j).attr.nlink ≤ (m j).attr.nlink := by
  obtain ⟨k, hedit, hsweep⟩ := h
  obtain ⟨hk, hle⟩ := hedit.kept hW hj
  rcases hsweep.node_eq j with hm | ⟨hlink, hfree⟩
  · exact ⟨hk.trans (.of_eq hm), by rwa [hm]⟩
  · rcases hkeep with hpos | hne
    · rw [hlink] at hle
      exact absurd hpos (not_lt.2 hle)
    · exact absurd hfree hne

/-! ### Names that agree -/

/-- The inode that `create` finds or makes, in a directory without the name. -/
def State.createTarget (s : State) (p : Slot) (path : CString) : Option Inum :=
  (s.parentOf p path).bind fun x =>
    match findEntry (s.node x.1).entries x.2 with
    | some y => some y.2
    | none => freeInum s.node

/-- The path and the name that `sys_open` builds from it lead to the same entry or to the same
inode. -/
def Agree (s : State) (p : Slot) (path : CString) : Prop :=
  ∃ path', openPath (s.proc p).containerID path true = .ok path' ∧
    (s.parentOf p path = s.parentOf p path' ∨ s.target p path = s.createTarget p path')

/-- A process outside of the containers gets the path itself. -/
theorem agree_of_zero (h : (s.proc p).containerID = 0)
    (hpath : openPath (s.proc p).containerID path true = .ok path') : Agree s p path := by
  refine ⟨path', hpath, Or.inl ?_⟩
  rw [h] at hpath
  rw [openPath_zero hpath]

/-- A walk after `create` that ends at its new file. -/
theorem resolve_made {y : Attr} (hy : y.type = .file) (hd : (n d).attr.type = .dir)
    (hf : findEntry (n d).entries name = none) (hi : (n i).attr.type = .free) {j : Inum}
    {a b : Name} (h : resolve (made n d name i y) false j a names = some (i, b)) :
    resolve n true j a names = some (d, name) ∨ resolve n false j a names = some (i, b) := by
  have hdi : d ≠ i := by
    rintro rfl
    rw [hi] at hd
    cases hd
  have hmi : (made n d name i y i).attr.type = .file := by
    rw [made, Function.update_of_ne hdi.symm, Function.update_self]
    exact hy
  have hydir : y.type ≠ .dir := by
    rw [hy]
    decide
  induction names generalizing j a with
  | nil => exact Or.inr h
  | cons c names ih =>
    simp only [resolve, Bool.false_eq_true, false_and, if_false, true_and] at h ⊢
    split_ifs at h with htype
    rw [not_not] at htype
    have hji : j ≠ i := by
      rintro rfl
      rw [hmi] at htype
      cases htype
    obtain ⟨x, hx, hrest⟩ := Option.bind_eq_some_iff.1 h
    -- the new entry ends the walk, every other entry was there before
    have hfind : findEntry (n j).entries c = some x ∨ j = d ∧ c = name ∧ x.2 = i := by
      by_cases hjd : j = d
      · subst hjd
        rw [made, Function.update_self] at hx
        by_cases hc : c = name
        · subst hc
          obtain ⟨off, hoff⟩ := findEntry_insertFree (i := i) hf
          rw [hoff] at hx
          cases hx
          exact Or.inr ⟨rfl, rfl, rfl⟩
        · rw [findEntry_insertFree_of_ne hc] at hx
          exact Or.inl hx
      · rw [made, Function.update_of_ne hjd, Function.update_of_ne hji] at hx
        exact Or.inl hx
    have hjtype : (n j).attr.type = .dir := by
      by_cases hjd : j = d
      · rw [hjd]
        exact hd
      · rwa [made, Function.update_of_ne hjd, Function.update_of_ne hji] at htype
    rw [if_neg (not_not.2 hjtype), if_neg (not_not.2 hjtype)]
    rcases hfind with hfind | ⟨rfl, rfl, hxi⟩
    · rw [hfind, Option.bind_some, Option.bind_some]
      rcases ih hrest with hp | hp
      · left
        rw [if_neg]
        · exact hp
        · rintro rfl
          cases hp
      · exact Or.inr hp
    · left
      cases names with
      | nil => exact if_pos rfl
      | cons c' names =>
        rw [hxi] at hrest
        simp only [resolve, hmi] at hrest
        cases hrest

theorem visited_dir {r : Inum × Name} (h : resolve n parent i name names = some r)
    (hj : j ∈ visited n i names) : (n j).attr.type = .dir := by
  induction names generalizing i name with
  | nil => cases hj
  | cons b names ih =>
    simp only [resolve] at h
    split_ifs at h with htype hlast
    · rw [visited, hlast.2] at hj
      rcases List.mem_cons.1 hj with rfl | hj
      · exact not_not.1 htype
      · cases hf : findEntry (n i).entries b with
        | none =>
          rw [hf] at hj
          cases hj
        | some x =>
          rw [hf] at hj
          cases hj
    · obtain ⟨x, hx, hrest⟩ := Option.bind_eq_some_iff.1 h
      rw [visited, hx] at hj
      rcases List.mem_cons.1 hj with rfl | hj
      · exact not_not.1 htype
      · exact ih hrest hj

theorem State.origin_eq (h : t.cwd q = s.cwd p) : t.origin q path = s.origin p path := by
  unfold State.origin
  split_ifs
  · rfl
  · exact h

/-- The inode of a path is what its last element is found to be. -/
theorem State.target_of_parentOf (h : s.parentOf p path = some (d, name)) :
    s.target p path = (findEntry (s.node d).entries name).map Prod.snd := by
  obtain ⟨o, ho, hres⟩ := Option.bind_eq_some_iff.1 h
  rw [State.target, State.lookup, ho, Option.bind_some, resolve_last hres, Option.map_map]
  rfl

theorem agree_iff (hpath : openPath (s.proc p).containerID path true = .ok path') :
    Agree s p path ↔ s.parentOf p path = s.parentOf p path' ∨
      s.target p path = s.createTarget p path' := by
  refine ⟨?_, fun h => ⟨path', hpath, h⟩⟩
  rintro ⟨path'', hpath'', h⟩
  rw [hpath] at hpath''
  cases hpath''
  exact h

/-- A path leads to the file that `create` has just returned just if the names agree. -/
theorem Created.target_iff {y : Attr} (hy : y.type = .file) (hlink : y.nlink = 1)
    (h : Created s p path' y t.node (some i))
    (hpath : openPath (s.proc p).containerID path true = .ok path') (hcwd : t.cwd p = s.cwd p) :
    t.target p path = some i ↔ Agree s p path := by
  rw [agree_iff hpath]
  have horigin : t.origin p path = s.origin p path := State.origin_eq hcwd
  cases h with
  | @old d name x hp hf hn _ =>
    have hcreate : s.createTarget p path' = some x.2 := by
      rw [State.createTarget, hp, Option.bind_some, hf]
    have htarget : t.target p path = s.target p path := by
      rw [State.target, State.target, State.lookup, State.lookup, horigin, hn]
    rw [htarget, hcreate]
    refine ⟨Or.inr, ?_⟩
    rintro (hpar | htar)
    · rw [State.target_of_parentOf (hpar.trans hp), hf]
      rfl
    · exact htar
  | @new d _ name m hp hf hnum hm hn =>
    obtain ⟨hi0, hi⟩ := freeInum_free hnum
    have hd := State.parentOf_dir hp
    have hcreate : s.createTarget p path' = some i := by
      rw [State.createTarget, hp, Option.bind_some, hf]
      exact hnum
    have hnode : t.node = made s.node d name i y := by
      rcases hn with hn | ⟨hdir, -⟩
      · rw [hn, hm]
      · rw [hy] at hdir
        cases hdir
    have hkept : ∀ j, (s.node j).attr.type = .dir → Kept s.node t.node j := by
      intro j hj
      have hedit : Edit False (some d) (some d) none s.node t.node :=
        hnode ▸ .make rfl (fun _ => rfl) hd hf hi0 hi (by rw [hy]; decide) hlink
      exact (hedit.kept id (by rw [hj]; decide)).1
    rw [hcreate]
    constructor
    · intro h
      obtain ⟨⟨j, b⟩, hlook, hji⟩ := Option.map_eq_some_iff.1 h
      obtain ⟨o, ho, hres⟩ := Option.bind_eq_some_iff.1 hlook
      cases hji
      rw [hnode] at hres
      rw [horigin] at ho
      rcases resolve_made hy hd hf hi hres with hpar | htar
      · left
        rw [hp, State.parentOf, State.lookup, ho]
        exact hpar
      · right
        rw [State.target, State.lookup, ho, Option.bind_some, htar]
        rfl
    · rintro (hpar | htar)
      · obtain ⟨o, ho, hres⟩ := Option.bind_eq_some_iff.1 (hpar.trans hp)
        have hpar' : t.parentOf p path = some (d, name) := by
          rw [State.parentOf, State.lookup, horigin, ho]
          exact resolve_kept hres fun j hj => hkept j (visited_dir hres hj)
        obtain ⟨off, hoff⟩ := findEntry_insertFree (i := i) hf
        rw [State.target_of_parentOf hpar', hnode, made, Function.update_self, hoff]
        rfl
      · obtain ⟨r, hlook, hri⟩ := Option.map_eq_some_iff.1 htar
        obtain ⟨o, ho, hres⟩ := Option.bind_eq_some_iff.1 hlook
        rw [State.target, State.lookup, horigin, ho, Option.bind_some,
          resolve_kept hres fun j hj => hkept j (visited_dir hres hj), Option.map_some, hri]

/-! ### Runs without `unlink` -/

/-- The directories of a path. -/
def State.onPath (s : State) (p : Slot) (path : CString) : List Inum :=
  (s.origin p path).elim [] fun o => visited s.node o (pathNames path)

/-- The removed ones among the directories of a path and its inode. -/
def State.removedOn (s : State) (p : Slot) (path : CString) (i : Inum) : List Inum :=
  (i :: s.onPath p path).filter fun j => (s.node j).attr.nlink ≤ 0

/-- A call unlinks nothing and leaves some inodes in use. -/
def Undisturbed (ds : List Inum) (s : State) (c : Call) : Prop :=
  c.unlinks = false ∧ ∀ t, step s c = .ok t → ∀ d ∈ ds, (t.node d).attr.type ≠ .free

theorem steady_of_reach {guard : State → Call → Prop} {init : State → Prop}
    (h0 : ∀ s, init s → Steady False s) (hs : Reach step guard init s) : Steady False s :=
  hs.invariant h0 fun _ _ _ h _ ht => (step_ok h False.elim ht).1

theorem WellFormed.holders (h : WellFormed s) : Steady False s := h.steady.weaken False.elim

/-- The path of a file goes on leading to it. -/
theorem target_of_undisturbed (ht : Steady False t) (hi : t.target p path = some i)
    (hfile : (t.node i).attr.type = .file)
    (hu : Reach step (Undisturbed (t.removedOn p path i)) (· = t) u) (hcwd : u.cwd q = t.cwd p) :
    u.target q path = some i ∧ (u.node i).attr.type = .file := by
  obtain ⟨r, hlook, hri⟩ := Option.map_eq_some_iff.1 hi
  obtain ⟨o, ho, hres⟩ := Option.bind_eq_some_iff.1 hlook
  have hpath : t.onPath p path = visited t.node o (pathNames path) := by
    rw [State.onPath, ho]
    rfl
  have htype : ∀ j ∈ i :: t.onPath p path, (t.node j).attr.type ≠ .free := by
    intro j hj
    rw [hpath] at hj
    rcases List.mem_cons.1 hj with rfl | hj
    · rw [hfile]
      decide
    · rw [visited_dir hres hj]
      decide
  have hinv : Steady False u ∧ ∀ j ∈ i :: t.onPath p path, Kept t.node u.node j ∧
      (t.node j).attr.nlink ≤ (u.node j).attr.nlink := by
    refine hu.invariant (I := fun u => Steady False u ∧ ∀ j ∈ i :: t.onPath p path,
      Kept t.node u.node j ∧ (t.node j).attr.nlink ≤ (u.node j).attr.nlink)
      (fun u h => ?_) fun u c v ⟨hst, hkept⟩ ⟨hun, hfree⟩ hv => ?_
    · rw [h]
      exact ⟨ht, fun j _ => ⟨.refl _ j, le_refl _⟩⟩
    · obtain ⟨hst', heff⟩ := step_ok hst False.elim hv
      refine ⟨hst', fun j hj => ?_⟩
      obtain ⟨hk, hle⟩ := hkept j hj
      have hkeep : 0 < (u.node j).attr.nlink ∨ (v.node j).attr.type ≠ .free := by
        by_cases hpos : (t.node j).attr.nlink ≤ 0
        · exact Or.inr (hfree v hv j (List.mem_filter.2 ⟨hj, decide_eq_true hpos⟩))
        · exact Or.inl (lt_of_lt_of_le (not_le.1 hpos) hle)
      obtain ⟨hk', hle'⟩ := heff.kept (by rw [hun]; decide) (hk.type ▸ htype j hj) hkeep
      exact ⟨hk.trans hk', hle.trans hle'⟩
  have horigin : u.origin q path = t.origin p path := State.origin_eq hcwd
  constructor
  · rw [State.target, State.lookup, horigin, ho, Option.bind_some, resolve_kept hres,
      Option.map_some, hri]
    intro j hj
    rw [← hpath] at hj
    exact (hinv.2 j (List.mem_cons_of_mem i hj)).1
  · rw [(hinv.2 i List.mem_cons_self).1.type, hfile]

/-! ### Opening again -/

/-- The inode that `sys_open` finds without `O_CREATE`. -/
def State.reopens (s : State) (p : Slot) (path : CString) (omode : UInt32) : Option Inum :=
  match openPath (s.proc p).containerID path false with
  | .ok path => (s.target p path).filter fun i => ¬ ((s.node i).attr.type = .dir ∧ omode ≠ 0)
  | .error _ => none

theorem Opened.reopens {omode : UInt32} {o : Option Inum} (h : Opened s p path omode n' o)
    (hm : (omode &&& O_CREATE != 0) = false) : s.reopens p path omode = o := by
  cases h with
  | create ho =>
    rw [hm] at ho
    cases ho
  | find _ hpath _ =>
    rw [State.reopens, hpath]

theorem Opened.created {omode : UInt32} {o : Option Inum} (h : Opened s p path omode n' o)
    (ho : (omode &&& O_CREATE != 0) = true) : ∃ path',
      openPath (s.proc p).containerID path true = .ok path' ∧
      Created s p path' ⟨.file, 0, 0, 1⟩ n' o := by
  cases h with
  | create _ hpath h => exact ⟨_, hpath, h⟩
  | find hm =>
    rw [ho] at hm
    cases hm

/-- `create` returns a file. -/
theorem Created.file (h : Created s p path ⟨.file, 0, 0, 1⟩ n' (some i)) :
    (n' i).attr.type = .file := by
  cases h with
  | old _ _ hn hx => rwa [hn]
  | @new d i name m hp hf hnum hm hn =>
    obtain ⟨-, hi⟩ := freeInum_free hnum
    rcases hn with hn | ⟨hdir, -⟩
    · have hdi : i ≠ d := by
        rintro rfl
        rw [State.parentOf_dir hp] at hi
        cases hi
      rw [hn, hm, made, Function.update_of_ne hdi, Function.update_self]
    · cases hdir

/-- A process has opened a path with `O_CREATE`. In every run from there that unlinks nothing
and frees nothing on the path, an open of the path without `O_CREATE` from the same container
and the same directory leads to the same inode, just if the names agree. -/
theorem reopens_iff_agree {omode mode : UInt32} {fd : Fd} (hs : Reach step always WellFormed s)
    (ho : (omode &&& O_CREATE != 0) = true) (hm : (mode &&& O_CREATE != 0) = false)
    (hopen : sysOpen p path omode s = .ok (some fd) t) (hi : t.opened p fd = some i) :
    (∀ u q, Reach step (Undisturbed (t.removedOn p path i)) (· = t) u →
      (u.proc q).containerID = (s.proc p).containerID → u.cwd q = s.cwd p →
      u.reopens q path mode = some i ∧
        ∀ gd v, sysOpen q path mode u = .ok (some gd) v → v.opened q gd = some i) ↔
      Agree s p path := by
  obtain ⟨ht, -, hfd⟩ := (sysOpen_ends (W := False)
    (steady_of_reach (fun _ h => h.holders) hs) False.elim).1 _ _ hopen
  obtain ⟨⟨j, hj, hop⟩, hown, hcwd⟩ := hfd fd rfl
  have hji : j = i := Option.some.inj (hj.symm.trans hi)
  subst hji
  obtain ⟨path', hpath, hcr⟩ := hop.created ho
  have hfile := hcr.file
  rw [← hcr.target_iff rfl rfl hpath hcwd]
  have hreopens : ∀ {u : State} {q : Slot}, (u.proc q).containerID = (s.proc p).containerID →
      u.reopens q path mode = (u.target q path).filter fun i =>
        ¬ ((u.node i).attr.type = .dir ∧ mode ≠ 0) := by
    intro u q hc
    rw [State.reopens, hc, openPath_plain hpath]
  constructor
  · intro h
    have hfound := (h t p (.start rfl) hown hcwd).1
    rw [hreopens hown] at hfound
    exact (Option.filter_eq_some_iff.1 hfound).1
  · intro htar u q hu hc hq
    obtain ⟨htar', hfile'⟩ := target_of_undisturbed ht htar hfile hu (hq.trans hcwd.symm)
    have hfound : u.reopens q path mode = some j := by
      rw [hreopens hc, htar', Option.filter_some, if_pos]
      rw [decide_eq_true_eq, hfile']
      exact fun h => absurd h.1 (by decide)
    refine ⟨hfound, fun gd v hv => ?_⟩
    have hst : Steady False u := steady_of_reach (fun v (hv : v = t) => by rwa [hv]) hu
    obtain ⟨-, -, hgd⟩ := (sysOpen_ends (W := False) hst False.elim).1 _ _ hv
    obtain ⟨⟨k, hk, hfind⟩, -⟩ := hgd gd rfl
    rw [hk, ← hfind.reopens hm, hfound]

/-- Run an open and test the state after it and the inode that it has found. -/
def afterOpen (p : Slot) (path : CString) (omode : UInt32) (test : State → Inum → Bool)
    (s : State) : Bool :=
  match sysOpen p path omode s with
  | .ok (some fd) t => (t.opened p fd).any (test t)
  | _ => false

theorem exists_of_afterOpen {omode : UInt32} {test : State → Inum → Bool}
    (h : afterOpen p path omode test s = true) : ∃ t fd i,
      sysOpen p path omode s = .ok (some fd) t ∧ t.opened p fd = some i ∧ test t i = true := by
  unfold afterOpen at h
  split at h
  next fd t hopen =>
    obtain ⟨i, hi, htest⟩ := (Option.any_eq_true _ _).1 h
    exact ⟨t, fd, i, hopen, hi, htest⟩
  next => cases h

/-- The file `f` of a process outside of the containers. -/
theorem reopens_outside : ∃ t fd i, sysOpen 0 pathF O_CREATE boot = .ok (some fd) t ∧
    t.opened 0 fd = some i ∧
    ∀ u q, Reach step (Undisturbed (t.removedOn 0 pathF i)) (· = t) u →
      (u.proc q).containerID = (boot.proc 0).containerID → u.cwd q = boot.cwd 0 →
      u.reopens q pathF 0 = some i ∧
        ∀ gd v, sysOpen q pathF 0 u = .ok (some gd) v → v.opened q gd = some i := by
  have htest : afterOpen 0 pathF O_CREATE (fun _ _ => true) boot = true := by decide +kernel
  obtain ⟨t, fd, i, hopen, hi, -⟩ := exists_of_afterOpen htest
  have hboot : Reach step always WellFormed boot := .start boot_wellFormed
  refine ⟨t, fd, i, hopen, hi, (reopens_iff_agree hboot (by decide) (by decide) hopen hi).2 ?_⟩
  exact @agree_of_zero boot 0 pathF pathF rfl (by decide)

/-- A process of container 1 makes the file `f`, whose name is `cn1-f`, and does not find it
under `f`. -/
theorem container_file_not_reopened : ¬ ∀ s t p path omode mode fd i,
    Reach step always WellFormed s → (omode &&& O_CREATE != 0) = true →
    (mode &&& O_CREATE != 0) = false → sysOpen p path omode s = .ok (some fd) t →
    t.opened p fd = some i → ∀ u q, Reach step (fun _ c => c.unlinks = false) (· = t) u →
      (u.proc q).containerID = (s.proc p).containerID → u.cwd q = s.cwd p →
      u.reopens q path mode = some i := by
  intro h
  have hboot : Reach step always WellFormed boot := .start boot_wellFormed
  obtain ⟨s, hs, htest⟩ := hboot.of_endsIn
    (fun s => afterOpen 1 pathF O_CREATE (fun t i => decide (t.reopens 1 pathF 0 ≠ some i ∧
      (t.proc 1).containerID = (s.proc 1).containerID ∧ t.cwd 1 = s.cwd 1)) s) [.fork 0 1 1]
    (by decide +kernel)
  obtain ⟨t, fd, i, hopen, hi, ht⟩ := exists_of_afterOpen htest
  obtain ⟨hne, hown, hcwd⟩ := of_decide_eq_true ht
  exact hne (h s t 1 pathF O_CREATE 0 fd i hs (by decide) (by decide) hopen hi t 1 (.start rfl)
    hown hcwd)

end Xv6Container.Names
