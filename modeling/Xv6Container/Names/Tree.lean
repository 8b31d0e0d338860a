import Xv6Container.Names.Lookup

/-! The directories on the disk as a tree. A directory in use is named by one entry of its
parent, except for the root, and its link count is that of the entries that name it and of
the `..` of its subdirectories. A removed directory names its parent as before but does not
count. -/

namespace Xv6Container.Names

open Lib Fs

variable {A B : Prop} {n n' : Inum → Node} {i j d u : Inum} {name y : Name} {off : ℕ}
  {es es' : List Dirent} {x z : Node}

/-! ### Entries -/

/-- An entry that names an inode, other than `.` and `..`. -/
def names (i : Inum) : Dirent → Bool
  | some (y, j) => decide (y ≠ .dot ∧ y ≠ .dotdot ∧ j = i)
  | none => false

theorem names_some {y : Name} {j : Inum} :
    names i (some (y, j)) = true ↔ y ≠ .dot ∧ y ≠ .dotdot ∧ j = i := by
  simp [names]

theorem names_none : names i none = false := rfl

/-- An entry at the first free offset. -/
def insertFree : List Dirent → Dirent → List Dirent
  | [], de => [de]
  | none :: rest, de => de :: rest
  | some a :: rest, de => some a :: insertFree rest de

theorem put_freeEntry (es : List Dirent) (de : Dirent) :
    put es (freeEntry es) de = insertFree es de := by
  induction es with
  | nil => rfl
  | cons a es ih =>
    cases a with
    | none => simp [put, freeEntry, insertFree, List.findIdx_cons]
    | some a =>
      have hfree : freeEntry (some a :: es) = freeEntry es + 1 := by
        simp [freeEntry, List.findIdx_cons]
      rw [hfree, insertFree, ← ih]
      simp only [put, List.length_cons, Nat.add_lt_add_iff_right, List.set_cons_succ,
        List.cons_append]
      split_ifs <;> rfl

theorem countP_insertFree (f : Dirent → Bool) (hf : f none = false) (es : List Dirent)
    (de : Dirent) : (insertFree es de).countP f = es.countP f + if f de then 1 else 0 := by
  induction es with
  | nil => simp [insertFree, List.countP_cons]
  | cons a es ih =>
    cases a with
    | none => simp [insertFree, List.countP_cons, hf]
    | some a =>
      simp only [insertFree, List.countP_cons, ih]
      omega

theorem mem_insertFree {a de : Dirent} (h : a ∈ insertFree es de) : a ∈ es ∨ a = de := by
  induction es with
  | nil => simpa [insertFree] using h
  | cons b es ih =>
    cases b with
    | none =>
      rcases List.mem_cons.1 h with h | h
      · exact Or.inr h
      · exact Or.inl (List.mem_cons_of_mem _ h)
    | some b =>
      rcases List.mem_cons.1 h with h | h
      · exact Or.inl (h ▸ List.mem_cons_self)
      · exact (ih h).imp_left (List.mem_cons_of_mem _)

/-- An entry is cleared. -/
theorem countP_clear (f : Dirent → Bool) (hf : f none = false) {de : Dirent}
    (h : es[off]? = some de) : (es.set off none).countP f + (if f de then 1 else 0) =
      es.countP f := by
  obtain ⟨hlt, hde⟩ := List.getElem?_eq_some_iff.1 h
  have hpos : f de = true → 0 < es.countP f := fun hfd =>
    List.countP_pos_iff.2 ⟨de, hde ▸ List.getElem_mem hlt, hfd⟩
  rw [List.countP_set hlt, hde, hf, if_neg (by decide : ¬ (false = true)), Nat.add_zero]
  split_ifs with hfd
  · have := hpos hfd
    omega
  · rfl

theorem mem_clear {a : Name × Inum} (h : some a ∈ es.set off none) : some a ∈ es := by
  rcases List.mem_or_eq_of_mem_set h with h | h
  · exact h
  · cases h

theorem names_entry (hdot : name ≠ .dot) (hdotdot : name ≠ .dotdot) (j : Inum) :
    names j (some (name, i)) = true ↔ i = j := by
  rw [names_some]
  exact ⟨fun h => h.2.2, fun h => ⟨hdot, hdotdot, h⟩⟩

theorem countP_names_insertFree (es : List Dirent) (hdot : name ≠ .dot) (hdotdot : name ≠ .dotdot)
    (j : Inum) : (insertFree es (some (name, i))).countP (names j) =
      es.countP (names j) + if i = j then 1 else 0 := by
  rw [countP_insertFree (names j) names_none]
  simp only [names_entry hdot hdotdot]

theorem countP_names_clear (h : es[off]? = some (some (name, i))) (hdot : name ≠ .dot)
    (hdotdot : name ≠ .dotdot) (j : Inum) :
    (es.set off none).countP (names j) + (if i = j then 1 else 0) = es.countP (names j) := by
  have hcount := countP_clear (names j) names_none h
  simpa only [names_entry hdot hdotdot] using hcount

/-- The entries of a directory `d`: the two dots and other names. -/
def Dotted (d u : Inum) (es : List Dirent) : Prop :=
  ∃ rest, es = some (.dot, d) :: some (.dotdot, u) :: rest ∧
    ∀ y j, some (y, j) ∈ rest → y ≠ .dot ∧ y ≠ .dotdot

theorem Dotted.insertFree (h : Dotted d u es) (hdot : name ≠ .dot) (hdotdot : name ≠ .dotdot) :
    Dotted d u (insertFree es (some (name, i))) := by
  obtain ⟨rest, rfl, hrest⟩ := h
  refine ⟨Names.insertFree rest (some (name, i)), rfl, fun y j hy => ?_⟩
  rcases mem_insertFree hy with hy | hy
  · exact hrest y j hy
  · cases hy
    exact ⟨hdot, hdotdot⟩

theorem Dotted.clear (h : Dotted d u es) (hoff : es[off]? = some (some (name, i)))
    (hdot : name ≠ .dot) (hdotdot : name ≠ .dotdot) : Dotted d u (es.set off none) := by
  obtain ⟨rest, rfl, hrest⟩ := h
  match off with
  | 0 =>
    cases hoff
    exact absurd rfl hdot
  | 1 =>
    cases hoff
    exact absurd rfl hdotdot
  | off + 2 =>
    exact ⟨rest.set off none, rfl, fun y j hy => hrest y j (mem_clear hy)⟩

/-! ### Counts -/

/-- The `..` of a directory. -/
def Node.up (x : Node) : Option Inum := x.entries[1]?.join.map Prod.snd

theorem Dotted.up (h : Dotted d u x.entries) : x.up = some u := by
  obtain ⟨rest, hes, -⟩ := h
  simp [Node.up, hes]

/-- A directory that is not removed. -/
def Node.Live (x : Node) : Prop := x.attr.type = .dir ∧ 0 < x.attr.nlink

instance (x : Node) : Decidable x.Live := inferInstanceAs (Decidable (_ ∧ _))

/-- The entries of `x` that name `i`. -/
def Node.named (x : Node) (i : Inum) : ℤ :=
  if x.attr.type = .dir then (x.entries.countP (names i) : ℕ) else 0

/-- Whether `x` is a subdirectory of `i`. -/
def Node.kid (x : Node) (i : Inum) : ℤ := if x.Live ∧ x.up = some i then 1 else 0

/-- The entries that name `i`, other than `.` and `..`. -/
def named (n : Inum → Node) (i : Inum) : ℤ := ∑ d, (n d).named i

/-- The subdirectories of `i`. -/
def kids (n : Inum → Node) (i : Inum) : ℤ := ∑ d, (n d).kid i

theorem Node.named_nonneg (x : Node) (i : Inum) : 0 ≤ x.named i := by
  unfold Node.named
  split_ifs <;> omega

theorem Node.kid_nonneg (x : Node) (i : Inum) : 0 ≤ x.kid i := by
  unfold Node.kid
  split_ifs <;> decide

theorem named_nonneg (n : Inum → Node) (i : Inum) : 0 ≤ named n i :=
  Finset.sum_nonneg fun d _ => (n d).named_nonneg i

theorem kids_nonneg (n : Inum → Node) (i : Inum) : 0 ≤ kids n i :=
  Finset.sum_nonneg fun d _ => (n d).kid_nonneg i

theorem named_update : named (Function.update n d x) i = named n i - (n d).named i + x.named i :=
  sum_update (fun y : Node => y.named i) n d x

theorem kids_update : kids (Function.update n d x) i = kids n i - (n d).kid i + x.kid i :=
  sum_update (fun y : Node => y.kid i) n d x

/-- Two nodes change. -/
theorem named_update₂ (h : d ≠ j) : named (Function.update (Function.update n j x) d z) i =
    named n i - (n j).named i - (n d).named i + x.named i + z.named i := by
  rw [named_update, named_update, Function.update_of_ne h]
  omega

theorem kids_update₂ (h : d ≠ j) : kids (Function.update (Function.update n j x) d z) i =
    kids n i - (n j).kid i - (n d).kid i + x.kid i + z.kid i := by
  rw [kids_update, kids_update, Function.update_of_ne h]
  omega

theorem Node.named_of_ne (h : x.attr.type ≠ .dir) : x.named i = 0 := if_neg h

theorem Node.kid_of_ne (h : x.attr.type ≠ .dir) : x.kid i = 0 := if_neg fun h' => h h'.1.1

theorem Node.kid_congr (hl : x.Live ↔ z.Live) (hu : x.Live → x.up = z.up) :
    x.kid i = z.kid i := by
  unfold Node.kid
  by_cases hx : x.Live
  · simp only [hx, hl.1 hx, hu hx]
  · have hz : ¬ z.Live := fun hz => hx (hl.2 hz)
    simp only [hx, hz, false_and]

theorem Node.named_pos (h : x.attr.type = .dir) (hy : some (y, i) ∈ x.entries)
    (hdot : y ≠ .dot) (hdotdot : y ≠ .dotdot) : 0 < x.named i := by
  rw [Node.named, if_pos h]
  exact_mod_cast List.countP_pos_iff.2 ⟨_, hy, names_some.2 ⟨hdot, hdotdot, rfl⟩⟩

theorem named_pos (h : (n d).attr.type = .dir) (hy : some (y, i) ∈ (n d).entries)
    (hdot : y ≠ .dot) (hdotdot : y ≠ .dotdot) : 0 < named n i :=
  lt_of_lt_of_le (Node.named_pos h hy hdot hdotdot)
    (Finset.single_le_sum (fun d _ => (n d).named_nonneg i) (Finset.mem_univ d))

theorem Node.exists_of_named (h : x.named i ≠ 0) :
    x.attr.type = .dir ∧ ∃ y, some (y, i) ∈ x.entries ∧ y ≠ .dot ∧ y ≠ .dotdot := by
  unfold Node.named at h
  split_ifs at h with hdir
  · have hpos : 0 < x.entries.countP (names i) := by omega
    obtain ⟨de, hmem, hde⟩ := List.countP_pos_iff.1 hpos
    cases de with
    | none => cases hde
    | some de =>
      obtain ⟨hdot, hdotdot, heq⟩ := names_some.1 hde
      rw [← heq]
      exact ⟨hdir, de.1, hmem, hdot, hdotdot⟩
  · exact absurd rfl h

/-- Who is counted is named somewhere. -/
theorem exists_of_named (h : named n i ≠ 0) : ∃ d, (n d).attr.type = .dir ∧
    ∃ y, some (y, i) ∈ (n d).entries ∧ y ≠ .dot ∧ y ≠ .dotdot := by
  obtain ⟨d, -, hd⟩ := Finset.exists_ne_zero_of_sum_ne_zero h
  obtain ⟨hdir, hy⟩ := Node.exists_of_named hd
  exact ⟨d, hdir, hy⟩

theorem kids_eq_zero (h : ∀ d, (n d).Live → (n d).up ≠ some i) : kids n i = 0 :=
  Finset.sum_eq_zero fun d _ => if_neg fun ⟨hl, hu⟩ => h d hl hu

theorem kids_pos (hl : (n d).Live) (hu : (n d).up = some i) : 0 < kids n i := by
  have hone : (n d).kid i = 1 := if_pos ⟨hl, hu⟩
  have := Finset.single_le_sum (fun d _ => (n d).kid_nonneg i) (Finset.mem_univ d)
  unfold kids
  omega

/-! ### The tree -/

/-- The directories are a tree. Under `A` the removed directories are empty and the link
counts of files are exact, under `B` the `..` of a removed directory is not removed. -/
structure Tree (A B : Prop) (n : Inum → Node) : Prop where
  zero : (n 0).attr.type = .free
  rootLive : (n ROOTINO).Live
  rootUp : (n ROOTINO).up = some ROOTINO
  dotted : ∀ d, (n d).attr.type = .dir → ∃ u, Dotted d u (n d).entries
  below : ∀ d y j, (n d).attr.type = .dir → some (y, j) ∈ (n d).entries → y ≠ .dot →
    y ≠ .dotdot → (n j).attr.type ≠ .free ∧
      ((n j).attr.type = .dir → (n d).Live ∧ (n j).up = some d)
  upLive : ∀ d u, (n d).attr.type = .dir → (n d).Live ∨ B → (n d).up = some u → (n u).Live
  files : ∀ i, (n i).attr.type ≠ .dir → (n i).attr.type ≠ .free →
    named n i ≤ (n i).attr.nlink ∧ (A → named n i = (n i).attr.nlink)
  dirs : ∀ i, (n i).attr.type = .dir → (n i).attr.nlink = named n i + kids n i
  once : ∀ i, (n i).attr.type = .dir →
    named n i = if 0 < (n i).attr.nlink ∧ i ≠ ROOTINO then 1 else 0
  empty : A → ∀ d y j, (n d).attr.type = .dir → ¬ (n d).Live → some (y, j) ∈ (n d).entries →
    y = .dot ∨ y = .dotdot

namespace Tree

theorem named_free (h : Tree A B n) (hi : (n i).attr.type = .free) : named n i = 0 := by
  by_contra hne
  obtain ⟨d, hd, y, hy, hdot, hdotdot⟩ := exists_of_named hne
  exact (h.below d y i hd hy hdot hdotdot).1 hi

/-- Nobody's parent is a file or a free inode. -/
theorem kids_of_ne (h : Tree A B n) (hi : (n i).attr.type ≠ .dir) : kids n i = 0 :=
  kids_eq_zero fun d hl hu => hi (h.upLive d i hl.1 (Or.inl hl) hu).1

/-- A directory that is named by an entry. -/
theorem live_of_named (h : Tree A B n) (hi : (n i).attr.type = .dir) (hn : named n i ≠ 0) :
    (n i).Live ∧ i ≠ ROOTINO ∧ named n i = 1 := by
  have honce := h.once i hi
  split_ifs at honce with hif
  · exact ⟨⟨hi, hif.1⟩, hif.2, honce⟩
  · exact absurd honce hn

/-- A parent is linked for itself and for its subdirectory. -/
theorem two_links (h : Tree A B n) (hi : (n i).Live) (hup : (n i).up = some d)
    (hroot : i ≠ ROOTINO) : 2 ≤ (n d).attr.nlink := by
  have hd : (n d).Live := h.upLive i d hi.1 (Or.inl hi) hup
  have hlinks := h.dirs d hd.1
  have honce := h.once d hd.1
  have hkids : 0 < kids n d := kids_pos hi hup
  by_cases hdr : d = ROOTINO
  · -- without `i` the root still has itself
    have hother : 0 < kids (Function.update n i ⟨⟨.free, 0, 0, 0⟩, []⟩) ROOTINO := by
      refine kids_pos (d := ROOTINO) ?_ ?_
      · rw [Function.update_of_ne hroot.symm]
        exact h.rootLive
      · rw [Function.update_of_ne hroot.symm]
        exact h.rootUp
    have hone : (n i).kid ROOTINO = 1 := if_pos ⟨hi, hdr ▸ hup⟩
    rw [kids_update, hone, Node.kid_of_ne (by simp)] at hother
    have := named_nonneg n d
    rw [hdr] at hlinks this ⊢
    omega
  · rw [if_pos ⟨hd.2, hdr⟩] at honce
    omega

/-- A directory without entries besides the dots has one link. -/
theorem one_link (h : Tree A B n) (hi : (n i).attr.type = .dir) (hn : named n i ≠ 0)
    (hempty : ∀ y j, some (y, j) ∈ (n i).entries → y = .dot ∨ y = .dotdot) :
    (n i).attr.nlink = 1 := by
  obtain ⟨hlive, hroot, hone⟩ := h.live_of_named hi hn
  have hkids : kids n i = 0 := by
    refine kids_eq_zero fun c hc hup => ?_
    by_cases hcr : c = ROOTINO
    · rw [hcr, h.rootUp] at hup
      exact hroot (Option.some.inj hup).symm
    · have hnamed : named n c ≠ 0 := by
        rw [h.once c hc.1, if_pos ⟨hc.2, hcr⟩]
        exact one_ne_zero
      obtain ⟨e, he, y, hy, hdot, hdotdot⟩ := exists_of_named hnamed
      have hec := ((h.below e y c he hy hdot hdotdot).2 hc.1).2
      rw [hup] at hec
      rw [← Option.some.inj hec] at hy
      rcases hempty y c hy with hy' | hy'
      · exact hdot hy'
      · exact hdotdot hy'
  rw [h.dirs i hi, hone, hkids, add_zero]

end Tree

end Xv6Container.Names
