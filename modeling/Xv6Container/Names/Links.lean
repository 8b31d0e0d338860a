import Xv6Container.Lib.Reach
import Xv6Container.Names.Calls

/-! Link counts. In every run in which no call adds an entry to a removed directory, the link
count of every inode in use is the number of entries that name it. -/

namespace Xv6Container.Names

open Lib Fs

variable {A A' B B' W : Prop} {R : Entry → ℤ} {s t : State} {n n' m : Inum → Node}
  {i d u : Inum} {name : Name} {es : List Dirent} {adds makes removes : Option Inum}

/-! ### Effects keep the tree -/

theorem findEntry_dots (h : Dotted d u es) (hf : findEntry es name = none) :
    name ≠ .dot ∧ name ≠ .dotdot := by
  obtain ⟨rest, rfl, -⟩ := h
  constructor
  · rintro rfl
    simp [findEntry] at hf
  · rintro rfl
    simp [findEntry, dot_ne_dotdot] at hf

theorem Dotted.of_empty (h : Dotted d u es) (he : isdirempty es = true) {j : Inum}
    (hj : some (name, j) ∈ es) : name = .dot ∨ name = .dotdot := by
  obtain ⟨rest, rfl, -⟩ := h
  have hrest : ∀ de ∈ rest, de.isNone = true := List.all_eq_true.1 he
  rcases List.mem_cons.1 hj with hj | hj
  · cases hj
    exact Or.inl rfl
  · rcases List.mem_cons.1 hj with hj | hj
    · cases hj
      exact Or.inr rfl
    · exact absurd (hrest _ hj) (by simp)

/-- A file gets an entry, and as many links as it has entries then. -/
theorem Tree.addFile (h : Tree A B n) (hd : (n d).attr.type = .dir)
    (hf : findEntry (n d).entries name = none) (hi : (n i).attr.type ≠ .dir) (hi0 : i ≠ 0)
    (hA : A → 0 < (n d).attr.nlink) {x : Node} (hxdir : x.attr.type ≠ .dir)
    (hxfree : x.attr.type ≠ .free) (hle : named n i + 1 ≤ x.attr.nlink)
    (heq : A → named n i + 1 = x.attr.nlink) :
    Tree A B (Function.update (Function.update n i x) d
      ⟨(n d).attr, insertFree (n d).entries (some (name, i))⟩) := by
  obtain ⟨u, hu⟩ := h.dotted d hd
  obtain ⟨hdot, hdotdot⟩ := findEntry_dots hu hf
  have hcount := countP_names_insertFree (i := i) (n d).entries hdot hdotdot
  refine h.setFile hd hi hi0 hxdir hxfree (fun u hu => hu.insertFree hdot hdotdot)
    (fun y j hy => ?_) (fun j hj => ?_) ?_ fun hA => ?_
  · rcases mem_insertFree hy with hy | hy
    · exact Or.inl hy
    · cases hy
      exact Or.inr ⟨rfl, fun ha => ⟨hd, hA ha⟩⟩
  · rw [hcount, if_neg hj.symm, Nat.add_zero]
  · rw [hcount, if_pos rfl]
    omega
  · have := heq hA
    rw [hcount, if_pos rfl]
    omega

theorem Tree.edit (h : Tree A B n) (he : Edit W adds makes removes n m)
    (hA : A → ∀ d, adds = some d → 0 < (n d).attr.nlink)
    (hM : ∀ d, makes = some d → 0 < (n d).attr.nlink)
    (hB : B → ∀ i, removes = some i → ∀ e, (n e).attr.type = .dir → (n e).up = some i → e = i) :
    Tree A B m := by
  cases he with
  | same => exact h
  | @make d i name a hadds hmakes hd hname hi0 hi ha hlink =>
    obtain ⟨u, hu⟩ := h.dotted d hd
    obtain ⟨hdot, hdotdot⟩ := findEntry_dots hu hname
    unfold made
    by_cases hdir : a.type = .dir
    · rw [if_pos hdir, if_pos hdir]
      exact h.makeDir ⟨hd, hM d (hmakes hdir)⟩ hi hi0 hdot hdotdot hdir hlink rfl
    · rw [if_neg hdir, if_neg hdir]
      have hi' : (n i).attr.type ≠ .dir := by
        rw [hi]
        decide
      refine h.addFile hd hname hi' hi0 (fun ha => hA ha d hadds) hdir ha ?_ fun _ => ?_
      · rw [h.named_free hi, hlink, zero_add]
      · rw [h.named_free hi, hlink, zero_add]
  | @link d i name hadds hd hname hi hfree =>
    obtain ⟨hle, heq⟩ := h.files i hi hfree
    have hi0 : i ≠ 0 := fun h0 => hfree (h0 ▸ h.zero)
    refine h.addFile hd hname hi hi0 (fun ha => hA ha d hadds) hi hfree ?_ fun ha => ?_
    · exact add_le_add_left hle 1
    · rw [heq ha]
  | @remove d i name off _ hd hoff hdot hdotdot hi hfree =>
    obtain ⟨hle, heq⟩ := h.files i hi hfree
    have hdi : d ≠ i := by
      rintro rfl
      exact hi hd
    have hcount := countP_names_clear hoff hdot hdotdot
    have hi0 : i ≠ 0 := fun h0 => hfree (h0 ▸ h.zero)
    have hself := hcount i
    rw [if_pos rfl] at hself
    rw [Function.update_comm hdi]
    refine h.setFile hd hi hi0 hi hfree (fun u hu => hu.clear hoff hdot hdotdot)
      (fun y j hy => Or.inl (mem_clear hy)) (fun j hj => ?_) ?_ fun ha => ?_
    · have := hcount j
      rwa [if_neg hj.symm, Nat.add_zero] at this
    · change _ ≤ (n i).attr.nlink - 1
      omega
    · have := heq ha
      change _ = (n i).attr.nlink - 1
      omega
  | @removeDir d i name off k k' P _ hremoves hd hoff hdot hdotdot hi hempty hk hk' =>
    obtain ⟨u, hu⟩ := h.dotted i hi
    have hin : some (name, i) ∈ (n d).entries := List.mem_of_getElem? hoff
    obtain ⟨hdlive, hup⟩ := (h.below d name i hd hin hdot hdotdot).2 hi
    obtain ⟨hlive, hroot, -⟩ := h.live_of_named hi (named_pos hd hin hdot hdotdot).ne'
    have htwo := h.two_links hlive hup hroot
    have hkk : k' = k := by
      rcases hk' with hk' | ⟨-, -, hzero, -⟩
      · exact hk'
      · rw [hk, Function.update_self] at hzero
        change (n d).attr.nlink - 1 = 0 at hzero
        omega
    have hid : i ≠ d := by
      rintro rfl
      rcases hu.of_empty hempty hin with hname | hname
      · exact hdot hname
      · exact hdotdot hname
    rw [hkk, hk, Function.update_of_ne hid]
    exact h.removeDir hd hi hoff hdot hdotdot (fun y j hy => hu.of_empty hempty hy)
      fun hb => hB hb i hremoves

theorem Tree.sweep (h : Tree A B n) (hs : Swept n m) : Tree A B m := by
  induction hs with
  | refl => exact h
  | tail _ hc ih =>
    obtain ⟨i, hc⟩ := hc
    exact ih.collect hc

/-- The tree with weaker promises about the removed directories. -/
theorem Tree.weaken (h : Tree A B n) (hA : A' → A) (hB : B' → B) : Tree A' B' n where
  zero := h.zero
  rootLive := h.rootLive
  rootUp := h.rootUp
  dotted := h.dotted
  below := h.below
  upLive d u hd hor := h.upLive d u hd (hor.imp_right hB)
  files i hi hf := ⟨(h.files i hi hf).1, fun ha => (h.files i hi hf).2 (hA ha)⟩
  dirs := h.dirs
  once := h.once
  empty ha := h.empty (hA ha)

theorem Steady.weaken (h : Steady B s) (hB : B' → B) : Steady B' s :=
  ⟨⟨⟨h.cached.count, h.cached.distinct, h.cached.synced, fun b => h.cached.alive (hB b),
    h.cached.owned, h.cached.zero⟩, h.cached.settled⟩, h.closed⟩

/-! ### Link counts -/

/-- An entry other than `.` that names an inode. -/
def pointsTo (i : Inum) : Dirent → Bool
  | some (y, j) => decide (y ≠ .dot ∧ j = i)
  | none => false

/-- The number of entries other than `.` that name an inode, in directories in use with a
link. -/
def linkCount (n : Inum → Node) (i : Inum) : ℤ :=
  ∑ d, if (n d).Live then ((n d).entries.countP (pointsTo i) : ℕ) else 0

/-- The link count of every inode in use is right. -/
def LinkCounts (n : Inum → Node) : Prop :=
  ∀ i, (n i).attr.type ≠ .free → (n i).attr.nlink = linkCount n i

theorem countP_pointsTo (h : Dotted d u es) (i : Inum) :
    es.countP (pointsTo i) = es.countP (names i) + if u = i then 1 else 0 := by
  obtain ⟨rest, rfl, hrest⟩ := h
  have heq : rest.countP (pointsTo i) = rest.countP (names i) := by
    refine List.countP_congr fun de hde => ?_
    cases de with
    | none => rfl
    | some x =>
      obtain ⟨hdot, hdotdot⟩ := hrest x.1 x.2 hde
      simp [pointsTo, names, hdot, hdotdot]
  simp only [List.countP_cons, heq]
  simp [pointsTo, names, dot_ne_dotdot.symm]

theorem Tree.linkCount_eq (h : Tree True B n) (i : Inum) : linkCount n i = named n i + kids n i := by
  unfold linkCount named kids
  rw [← Finset.sum_add_distrib]
  refine Finset.sum_congr rfl fun d _ => ?_
  by_cases hd : (n d).attr.type = .dir
  · obtain ⟨u, hu⟩ := h.dotted d hd
    by_cases hl : (n d).Live
    · rw [if_pos hl, countP_pointsTo hu]
      simp only [Node.named, hd, if_true, Node.kid, hl, hu.up, true_and, Option.some.injEq]
      split_ifs <;> simp
    · have hnone : (n d).named i = 0 := by
        by_contra hne
        obtain ⟨-, y, hy, hdot, hdotdot⟩ := Node.exists_of_named hne
        rcases h.empty trivial d y i hd hl hy with hy' | hy'
        · exact hdot hy'
        · exact hdotdot hy'
      rw [if_neg hl, hnone, Node.kid, if_neg fun hk => hl hk.1, add_zero]
  · rw [if_neg fun hl => hd hl.1, Node.named_of_ne hd, Node.kid_of_ne hd, add_zero]

theorem Tree.linkCounts (h : Tree True B n) : LinkCounts n := by
  intro i hi
  rw [h.linkCount_eq]
  by_cases hdir : (n i).attr.type = .dir
  · exact h.dirs i hdir
  · rw [h.kids_of_ne hdir, add_zero]
    exact ((h.files i hdir hi).2 trivial).symm

/-- A file system with processes and files that use it. -/
structure WellFormed (s : State) : Prop where
  tree : Tree True True s.node
  steady : Steady True s

/-- A call adds entries only to directories with a link. -/
def AddsLinked (s : State) (c : Call) : Prop := ∀ d ∈ c.adds s, 0 < (s.node d).attr.nlink

instance (s : State) (c : Call) : Decidable (AddsLinked s c) :=
  inferInstanceAs (Decidable (∀ d ∈ c.adds s, _))

/-- What `sys_mkdir` does is also an addition. -/
theorem Call.adds_of_makes {c : Call} (h : c.makes s = some d) : c.adds s = some d := by
  cases c with
  | mkdir p path => exact h
  | _ => cases h

/-- In every run whose calls add entries only to directories with a link, the link counts
are right between the calls. -/
theorem links_counted (hs : Reach step AddsLinked WellFormed s) : LinkCounts s.node := by
  have hinv : Tree True False s.node ∧ Steady False s := by
    refine hs.invariant (I := fun s => Tree True False s.node ∧ Steady False s)
      (fun s h => ?_) fun s c t ⟨htree, hsteady⟩ hg ht => ?_
    · exact ⟨h.tree.weaken id False.elim, h.steady.weaken False.elim⟩
    · obtain ⟨hst, m, hedit, hsweep⟩ := step_ok hsteady False.elim ht
      refine ⟨(htree.edit hedit (fun _ => hg) (fun d hd => ?_) False.elim).sweep hsweep, hst⟩
      exact hg d (Call.adds_of_makes hd)
  exact hinv.1.linkCounts

/-! ### A first state -/

/-- Nothing on the disk and nobody there. -/
def blank : State where
  node _ := ⟨⟨.free, 0, 0, 0⟩, []⟩
  cache _ := ⟨0, 0, false, false, ⟨.free, 0, 0, 0⟩, 0⟩
  file _ := ⟨0, none, false, false⟩
  proc _ := ⟨0, none, fun _ => none⟩
  creator _ := none
  recycled := []

/-- An empty root directory and one process in it. -/
def boot : State :=
  ((blank.setNode ROOTINO
    ⟨⟨.dir, 0, 0, 1⟩, [some (.dot, ROOTINO), some (.dotdot, ROOTINO)]⟩).setInode 0
    ⟨ROOTINO, 1, false, false, ⟨.free, 0, 0, 0⟩, 0⟩).setProc 0 ⟨0, some 0, fun _ => none⟩

theorem hold_boot : hold boot = one 0 := by
  obtain ⟨s, hs⟩ : ∃ s, s = (blank.setNode ROOTINO
    ⟨⟨.dir, 0, 0, 1⟩, [some (.dot, ROOTINO), some (.dotdot, ROOTINO)]⟩).setInode 0
    ⟨ROOTINO, 1, false, false, ⟨.free, 0, 0, 0⟩, 0⟩ := ⟨_, rfl⟩
  have hblank : hold s = 0 := by
    funext e
    simp [hs, hold, tally, State.setInode, State.setNode, blank]
  have hhold := hold_setProc (s := s) (p := 0) ⟨0, some 0, fun _ => none⟩
  rw [hblank, zero_add, ptr_some] at hhold
  have hnone : (s.proc 0).cwd = none := by rw [hs]; rfl
  rw [hnone, ptr_none, add_zero, hs] at hhold
  exact hhold

theorem boot_node (i : Inum) : boot.node i = if i = ROOTINO
    then ⟨⟨.dir, 0, 0, 1⟩, [some (.dot, ROOTINO), some (.dotdot, ROOTINO)]⟩
    else ⟨⟨.free, 0, 0, 0⟩, []⟩ := by
  change Function.update _ ROOTINO _ i = _
  rw [Function.update_apply]
  rfl

theorem boot_tree : Tree A B boot.node := by
  have hroot : boot.node ROOTINO = ⟨⟨.dir, 0, 0, 1⟩,
      [some (.dot, ROOTINO), some (.dotdot, ROOTINO)]⟩ := by rw [boot_node, if_pos rfl]
  have hfree : ∀ i, (boot.node i).attr.type ≠ .free → i = ROOTINO := by
    intro i hi
    by_contra hne
    rw [boot_node, if_neg hne] at hi
    exact hi rfl
  have hdir : ∀ i, (boot.node i).attr.type = .dir → i = ROOTINO := fun i hi =>
    hfree i (by rw [hi]; decide)
  have hentries : ∀ d y j, (boot.node d).attr.type = .dir → some (y, j) ∈ (boot.node d).entries →
      y = .dot ∨ y = .dotdot := by
    intro d y j hd hy
    rw [hdir d hd, hroot] at hy
    simp only [List.mem_cons, Option.some.injEq, Prod.mk.injEq, List.not_mem_nil, or_false] at hy
    exact hy.imp And.left And.left
  have hnamed : ∀ i, named boot.node i = 0 := by
    intro i
    by_contra hne
    obtain ⟨d, hd, y, hy, hdot, hdotdot⟩ := exists_of_named hne
    rcases hentries d y i hd hy with h | h
    · exact hdot h
    · exact hdotdot h
  have hlive : (boot.node ROOTINO).Live := by
    rw [hroot]
    decide
  have hup : (boot.node ROOTINO).up = some ROOTINO := by rw [hroot]; rfl
  have hkids : kids boot.node ROOTINO = 1 := by
    unfold kids
    rw [Finset.sum_eq_single ROOTINO]
    · exact if_pos ⟨hlive, hup⟩
    · intro d _ hd
      exact Node.kid_of_ne fun h => hd (hdir d h)
    · intro h
      exact absurd (Finset.mem_univ _) h
  constructor
  case zero =>
    rw [boot_node, if_neg (by decide)]
  case rootLive => exact hlive
  case rootUp => exact hup
  case dotted =>
    intro d hd
    rw [hdir d hd, hroot]
    exact ⟨ROOTINO, [], rfl, nofun⟩
  case below =>
    intro d y j hd hy hdot hdotdot
    rcases hentries d y j hd hy with h | h
    · exact absurd h hdot
    · exact absurd h hdotdot
  case upLive =>
    intro d u hd _ hu
    rw [hdir d hd, hup] at hu
    rwa [← Option.some.inj hu]
  case files =>
    intro i hi hf
    rw [hfree i hf] at hi
    exact absurd hlive.1 hi
  case dirs =>
    intro i hi
    rw [hdir i hi, hnamed, hkids, hroot]
    rfl
  case once =>
    intro i hi
    rw [hnamed, hdir i hi]
    simp
  case empty => exact fun _ d y j hd _ hy => hentries d y j hd hy

theorem boot_steady : Steady B boot := by
  have hpos : ∀ e, 0 < hold boot e → e = 0 := by
    intro e he
    by_contra hne
    rw [hold_boot, one_of_ne hne] at he
    exact absurd he (lt_irrefl 0)
  have hself : boot.cache 0 = ⟨ROOTINO, 1, false, false, ⟨.free, 0, 0, 0⟩, 0⟩ := rfl
  have hroot : (boot.node ROOTINO).attr.type ≠ .free := by
    rw [boot_node, if_pos rfl]
    decide
  refine ⟨⟨⟨fun e => ?_, fun a b ha hb _ => ?_, fun e he hv => ?_, fun _ e he => ?_,
    fun _ e c he hc => ?_, ?_⟩, fun i hi hn => ?_⟩, fun f _ => rfl⟩
  · rw [hold_boot]
    by_cases he : e = 0
    · rw [he]
      rfl
    · rw [one_of_ne he]
      change (Function.update blank.cache 0 _ e).ref = 0
      rw [Function.update_of_ne he]
      rfl
  · rw [hpos a ha, hpos b hb]
  · rw [hpos e he] at hv
    cases hv
  · rw [hpos e he, hself]
    exact hroot
  · cases hc
  · rw [boot_node, if_neg (by decide)]
  · by_cases hir : i = ROOTINO
    · rw [boot_node, if_pos hir] at hn
      exact absurd hn one_ne_zero
    · rw [boot_node, if_neg hir] at hi
      exact absurd rfl hi

theorem boot_wellFormed : WellFormed boot := ⟨boot_tree, boot_steady⟩

/-- The paths `d` and `f`. -/
def pathD : CString := ⟨['d'.toUInt8], by decide⟩

def pathF : CString := ⟨['f'.toUInt8], by decide⟩

/-- A subdirectory is a link to the root. -/
theorem links_counted_mkdir : ∃ t, Reach step AddsLinked WellFormed t ∧ LinkCounts t.node ∧
    (t.node ROOTINO).attr.nlink = 2 := by
  have hboot : Reach step AddsLinked WellFormed boot := .start boot_wellFormed
  obtain ⟨t, hs, ht⟩ := hboot.of_endsIn
    (fun s => decide ((s.node ROOTINO).attr.nlink = 2)) [.mkdir 0 pathD] (by decide +kernel)
  exact ⟨t, hs, links_counted hs, of_decide_eq_true ht⟩

/-- A process makes a file in its current directory, which another one has removed. -/
theorem file_in_removed_directory :
    ¬ ∀ s, Reach step always WellFormed s → LinkCounts s.node := by
  intro h
  have hboot : Reach step always WellFormed boot := .start boot_wellFormed
  obtain ⟨t, hs, ht⟩ := hboot.of_endsIn
    (fun s => decide ((s.node 3).attr.type ≠ .free ∧ (s.node 3).attr.nlink ≠ linkCount s.node 3))
    [.mkdir 0 pathD, .fork 0 1 0, .chdir 1 pathD, .unlink 0 pathD, .open_ 1 pathF O_CREATE]
    (by decide +kernel)
  have hne := of_decide_eq_true ht
  exact hne.2 (h t hs 3 hne.1)

end Xv6Container.Names
