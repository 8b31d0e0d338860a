import Xv6Container.Paging.Tables

/-! What `walkpgdir` and a store to a page table entry do to the page tables. A page table that is
made is a page from the free list, empty; a store changes one entry. Both rest on the page tables being
apart from each other and from the free pages. -/

namespace Xv6Container.Paging

open Lib
open Memory (PGSIZE KERNBASE PHYSTOP DEVSPACE UINT NPTENTRIES V2P PGROUNDUP)
open Memory.Copyout (PTE_P PTE_U flag PTE_ADDR P2V PDX PTX memmove)

variable {m m' : ℕ → UInt8} {pgdir p t i j n a x : ℕ} {s s' s'' : Kmem} {k : Kernel}
  {got used used' next : List ℕ} {w w' : ℕ → Option ℕ}

/-- The page directory and its page tables are different pages. -/
structure Directory (m : ℕ → UInt8) (pgdir : ℕ) : Prop where
  dir : IsPage pgdir
  nodup : (pgdir :: tables m pgdir).Nodup

/-- The free pages are different pages, and none of them is used for the page tables. -/
structure Apart (s : Kmem) (pgdir : ℕ) : Prop where
  dir : IsPage pgdir
  free : ∀ p ∈ s.freelist, IsPage p
  nodup : (s.freelist ++ pgdir :: tables s.mem pgdir).Nodup

theorem dirSlot_lt (hn : n < NPAGES) : n / NPTENTRIES < NPTENTRIES := by
  dsimp only [NPTENTRIES, NPAGES] at *
  omega

theorem Directory.table_ne (h : Directory m pgdir) (hi : i < NPTENTRIES)
    (ht : table m pgdir i = some t) : t ≠ pgdir := by
  rintro rfl
  exact (List.nodup_cons.1 h.nodup).1 (mem_tables hi ht)

theorem Directory.table_inj (h : Directory m pgdir) (hi : i < NPTENTRIES) (hj : j < NPTENTRIES)
    (hti : table m pgdir i = some t) (htj : table m pgdir j = some t) : i = j :=
  filterMap_inj (List.nodup_cons.1 h.nodup).2 (mem_dirSlots.2 hi) (mem_dirSlots.2 hj) hti htj

theorem Apart.directory (h : Apart s pgdir) : Directory s.mem pgdir :=
  ⟨h.dir, (List.nodup_append.1 h.nodup).2.1⟩

theorem Apart.dir_notMem (h : Apart s pgdir) : pgdir ∉ s.freelist := fun hmem =>
  (List.nodup_append.1 h.nodup).2.2 _ hmem _ List.mem_cons_self rfl

theorem Apart.table_notMem (h : Apart s pgdir) (hi : i < NPTENTRIES)
    (ht : table s.mem pgdir i = some t) : t ∉ s.freelist := fun hmem =>
  (List.nodup_append.1 h.nodup).2.2 _ hmem _ (List.mem_cons_of_mem _ (mem_tables hi ht)) rfl

/-- What is written to other pages does not change the page tables. -/
theorem Frame.tables_eq {P : List ℕ} (h : Frame P m m') (hdir : IsPage pgdir)
    (hP : ∀ p ∈ pgdir :: tables m pgdir, p ∉ P) :
    (∀ i < NPTENTRIES, table m' pgdir i = table m pgdir i) ∧
      ∀ n < NPAGES, pte m' pgdir n = pte m pgdir n := by
  have htable : ∀ i < NPTENTRIES, table m' pgdir i = table m pgdir i :=
    fun i hi => table_congr (h.word hdir (hP _ List.mem_cons_self) hi)
  refine ⟨htable, fun n hn => ?_⟩
  rw [pte, pte, htable _ (dirSlot_lt hn)]
  cases ht : table m pgdir (n / NPTENTRIES) with
  | none => rfl
  | some t =>
    have hmem := List.mem_cons_of_mem pgdir (mem_tables (dirSlot_lt hn) ht)
    rw [Option.map_some, Option.map_some,
      h.word (isPage_table ht) (hP t hmem) (Nat.mod_lt _ (by decide))]

theorem tables_congr (h : ∀ i < NPTENTRIES, table m' pgdir i = table m pgdir i) :
    tables m' pgdir = tables m pgdir :=
  List.filterMap_congr fun i hi => h i (mem_dirSlots.1 hi)

/-- What has been entered in the page tables between two states: the words `w`, and page tables in the
pages `used` of the free list; the pages `got` have been taken for other use. An entry that is not
present may have become 0. -/
structure Entered (pgdir : ℕ) (s s' : Kmem) (got used : List ℕ) (w : ℕ → Option ℕ) : Prop where
  free : s.freelist.Perm (got ++ (used ++ s'.freelist))
  tables : (tables s'.mem pgdir).Perm (used ++ tables s.mem pgdir)
  keeps : ∀ i < NPTENTRIES, ∀ t, table s.mem pgdir i = some t → table s'.mem pgdir i = some t
  present : ∀ n x, w n = some x → flag x PTE_P = true
  set : ∀ n < NPAGES, ∀ x, w n = some x → pte s'.mem pgdir n = some x
  rest : ∀ n < NPAGES, w n = none → pte s'.mem pgdir n = pte s.mem pgdir n ∨
    mapping s.mem pgdir n = none ∧ pte s'.mem pgdir n = some 0
  frame : Frame (s.freelist ++ pgdir :: Paging.tables s.mem pgdir) s.mem s'.mem

namespace Entered

theorem refl (pgdir : ℕ) (s : Kmem) : Entered pgdir s s [] [] fun _ => none where
  free := .refl _
  tables := by rw [List.nil_append]
  keeps _ _ _ := id
  present n x hx := by cases hx
  set n hn x hx := by cases hx
  rest _ _ _ := .inl rfl
  frame := .refl _ _

/-- The pages of the page tables and the free pages, with what has been taken. -/
theorem perm (h : Entered pgdir s s' got used w) :
    (s.freelist ++ pgdir :: Paging.tables s.mem pgdir).Perm
      (got ++ (s'.freelist ++ pgdir :: Paging.tables s'.mem pgdir)) := by
  have hfree := h.free.append_right (pgdir :: Paging.tables s.mem pgdir)
  have htables := (h.tables.cons pgdir).append_left (got ++ s'.freelist)
  rw [List.append_assoc, List.append_assoc] at hfree htables
  refine hfree.trans (.trans ?_ htables.symm)
  refine List.Perm.append_left got ?_
  exact (List.perm_append_comm_assoc ..).trans (List.perm_middle.append_left _)

theorem subset (h : Entered pgdir s s' got used w) {p : ℕ}
    (hp : p ∈ got ++ (s'.freelist ++ pgdir :: Paging.tables s'.mem pgdir)) :
    p ∈ s.freelist ++ pgdir :: Paging.tables s.mem pgdir :=
  h.perm.mem_iff.2 hp

theorem apart (h : Entered pgdir s s' got used w) (hs : Apart s pgdir) : Apart s' pgdir := by
  refine ⟨hs.dir, fun p hp => hs.free p (h.free.mem_iff.2 ?_), ?_⟩
  · exact List.mem_append_right _ (List.mem_append_right _ hp)
  · exact (List.nodup_append.1 (h.perm.nodup_iff.1 hs.nodup)).2.1

/-- The entries that are present but for those that have been entered. -/
theorem mapping_eq (h : Entered pgdir s s' got used w) (hn : n < NPAGES) (hw : w n = none) :
    mapping s'.mem pgdir n = mapping s.mem pgdir n := by
  obtain heq | ⟨hnone, hzero⟩ := h.rest n hn hw
  · exact mapping_congr heq
  · rw [hnone, mapping, hzero]
    rfl

theorem mapping_set (h : Entered pgdir s s' got used w) (hn : n < NPAGES) (hw : w n = some x) :
    mapping s'.mem pgdir n = some x :=
  mapping_eq_some.2 ⟨h.set n hn x hw, h.present n x hw⟩

/-- Words that are entered later stand. -/
theorem trans {got' : List ℕ} (h : Entered pgdir s s' got used w)
    (h' : Entered pgdir s' s'' got' used' w') :
    Entered pgdir s s'' (got ++ got') (used ++ used') fun n => (w' n).or (w n) := by
  constructor
  case free =>
    refine h.free.trans ?_
    rw [List.append_assoc, List.append_assoc]
    refine List.Perm.append_left got ((h'.free.append_left used).trans ?_)
    exact List.perm_append_comm_assoc ..
  case tables =>
    refine (h'.tables.trans (h.tables.append_left used')).trans ?_
    rw [← List.append_assoc]
    exact List.perm_append_comm.append_right _
  case keeps => exact fun i hi t ht => h'.keeps i hi t (h.keeps i hi t ht)
  case present =>
    intro n x hx
    obtain hx | ⟨-, hx⟩ := Option.or_eq_some_iff.1 hx
    · exact h'.present n x hx
    · exact h.present n x hx
  case set =>
    intro n hn x hx
    obtain hx | ⟨hnone, hx⟩ := Option.or_eq_some_iff.1 hx
    · exact h'.set n hn x hx
    · have hset := h.set n hn x hx
      obtain heq | ⟨habsent, -⟩ := h'.rest n hn hnone
      · exact heq.trans hset
      · exact absurd ((h.mapping_set hn hx).symm.trans habsent) (Option.some_ne_none x)
  case rest =>
    intro n hn hnone
    rw [Option.or_eq_none_iff] at hnone
    obtain heq' | ⟨habsent, hzero⟩ := h'.rest n hn hnone.1
    · rw [heq']
      exact h.rest n hn hnone.2
    · exact .inr ⟨(h.mapping_eq hn hnone.2).symm.trans habsent, hzero⟩
  case frame =>
    refine h.frame.trans (h'.frame.mono fun p hp => h.subset ?_)
    exact List.mem_append_right _ hp

theorem congr (h : Entered pgdir s s' got used w) (hw : ∀ n < NPAGES, w' n = w n)
    (hpresent : ∀ n x, w' n = some x → flag x PTE_P = true) : Entered pgdir s s' got used w' :=
  ⟨h.free, h.tables, h.keeps, hpresent, fun n hn x hx => h.set n hn x (hw n hn ▸ hx),
    fun n hn hx => h.rest n hn (hw n hn ▸ hx), h.frame⟩

/-- A page that has been entered is one more user page. -/
theorem users_put {lo hi : ℕ} (h : Entered pgdir s s' got used w) (hlo : lo ≤ n) (hn : n < hi)
    (hhi : hi ≤ NPAGES) (hw : w n = some x) (hother : ∀ n', lo ≤ n' → n' < hi → n' ≠ n → w n' = none)
    (hnone : mapping s.mem pgdir n = none) :
    (users s'.mem pgdir lo hi).Perm (P2V (PTE_ADDR x) :: users s.mem pgdir lo hi) := by
  refine filterMap_put (nodup_pagesFrom lo hi) (mem_pagesFrom.2 ⟨hlo, hn⟩) (by rw [userPage, hnone]; rfl)
    (by rw [userPage, h.mapping_set (by omega) hw]; rfl) fun n' hn' hne => userPage_congr ?_
  obtain ⟨h1, h2⟩ := mem_pagesFrom.1 hn'
  exact h.mapping_eq (by omega) (hother n' h1 h2 hne)

theorem users_eq {lo hi : ℕ} (h : Entered pgdir s s' got used w) (hhi : hi ≤ NPAGES)
    (hw : ∀ n, lo ≤ n → n < hi → w n = none) : users s'.mem pgdir lo hi = users s.mem pgdir lo hi :=
  users_congr fun n h1 h2 => h.mapping_eq (by omega) (hw n h1 h2)

end Entered

/-! ### A store to an entry -/

theorem table_store (hs : Directory m pgdir) (hn : n < NPAGES)
    (ht : table m pgdir (n / NPTENTRIES) = some t) (x : ℕ) (hi : i < NPTENTRIES) :
    table (setWord m (t + 4 * (n % NPTENTRIES)) x) pgdir i = table m pgdir i := by
  have hslot : n % NPTENTRIES < NPTENTRIES := Nat.mod_lt _ (by decide)
  refine table_congr ((Frame.of_setWord (isPage_table ht) hslot x).word hs.dir ?_ hi)
  rw [List.mem_singleton]
  exact (hs.table_ne (dirSlot_lt hn) ht).symm

theorem pte_store_of_ne (hs : Directory m pgdir) (hn : n < NPAGES)
    (ht : table m pgdir (n / NPTENTRIES) = some t) (x : ℕ) {n' : ℕ} (hn' : n' < NPAGES)
    (hne : n' ≠ n) :
    pte (setWord m (t + 4 * (n % NPTENTRIES)) x) pgdir n' = pte m pgdir n' := by
  rw [pte, pte, table_store hs hn ht x (dirSlot_lt hn')]
  cases ht' : table m pgdir (n' / NPTENTRIES) with
  | none => rfl
  | some t' =>
    rw [Option.map_some, Option.map_some]
    congr 1
    by_cases htt : t' = t
    · -- another entry of the same table
      subst htt
      have hdiv := hs.table_inj (dirSlot_lt hn') (dirSlot_lt hn) ht' ht
      refine word_setWord_of_disjoint ?_
      dsimp only [NPTENTRIES] at hdiv ⊢
      omega
    · have hframe := Frame.of_setWord (m := m) (isPage_table ht) (Nat.mod_lt n (by decide)) x
      refine hframe.word (isPage_table ht') ?_ (Nat.mod_lt _ (by decide))
      rw [List.mem_singleton]
      exact htt

theorem pte_store (hs : Directory m pgdir) (hn : n < NPAGES)
    (ht : table m pgdir (n / NPTENTRIES) = some t) (hx : x < UINT) :
    pte (setWord m (t + 4 * (n % NPTENTRIES)) x) pgdir n = some x := by
  rw [pte_of_table ((table_store hs hn ht x (dirSlot_lt hn)).trans ht), word_setWord]
  exact congrArg some (Nat.mod_eq_of_lt hx)

theorem frame_store (hn : n < NPAGES) (ht : table m pgdir (n / NPTENTRIES) = some t) (x : ℕ) :
    Frame (tables m pgdir) m (setWord m (t + 4 * (n % NPTENTRIES)) x) := by
  refine (Frame.of_setWord (isPage_table ht) (Nat.mod_lt _ (by decide)) x).mono fun p hp => ?_
  rw [List.mem_singleton.1 hp]
  exact mem_tables (dirSlot_lt hn) ht

/-- `*pte = x` for the entry of page `n` in the page table `t`. -/
theorem entered_store (hs : Directory s.mem pgdir) (hn : n < NPAGES)
    (ht : table s.mem pgdir (n / NPTENTRIES) = some t) (hx : x < UINT) (hp : flag x PTE_P = true) :
    Entered pgdir s { s with mem := setWord s.mem (t + 4 * (n % NPTENTRIES)) x } [] []
      fun n' => if n' = n then some x else none := by
  have htable := fun i (hi : i < NPTENTRIES) => table_store hs hn ht x hi
  constructor
  case free => exact .refl _
  case tables => rw [List.nil_append, tables_congr htable]
  case keeps => exact fun i hi t' ht' => (htable i hi).trans ht'
  case present =>
    intro n' y hy
    split_ifs at hy
    rwa [← Option.some.inj hy]
  case set =>
    intro n' hn' y hy
    split_ifs at hy with heq
    rw [heq, ← Option.some.inj hy]
    exact pte_store hs hn ht hx
  case rest =>
    intro n' hn' hnone
    split_ifs at hnone with heq
    exact .inl (pte_store_of_ne hs hn ht x hn' heq)
  case frame =>
    exact (frame_store hn ht x).mono fun p hp => List.mem_append_right _ (List.mem_cons_of_mem _ hp)

/-! ### A new page table -/

/-- A page of the free list becomes the page table for the pages `1024 * i` and on. -/
def addTable (s : Kmem) (pgdir i t : ℕ) (next : List ℕ) : Kmem :=
  ⟨next, setWord (fill s.mem t 0 PGSIZE) (pgdir + 4 * i) (V2P t ||| PTE_P ||| PTE_W ||| PTE_U)⟩

section AddTable

variable (hs : Apart s pgdir) (hfree : s.freelist = t :: next) (hi : i < NPTENTRIES)
include hs hfree

theorem new_notMem : IsPage t ∧ t ≠ pgdir ∧
    ∀ j < NPTENTRIES, ∀ t', table s.mem pgdir j = some t' → t' ≠ t := by
  refine ⟨hs.free t (by simp [hfree]), ?_, fun j hj t' ht' => ?_⟩
  · rintro rfl
    exact hs.dir_notMem (by simp [hfree])
  · rintro rfl
    exact hs.table_notMem hj ht' (by simp [hfree])

theorem table_addTable : table (addTable s pgdir i t next).mem pgdir i = some t := by
  obtain ⟨hpresent, haddr, hlt⟩ := pde_entry (new_notMem hs hfree).1
  have hmod : (V2P t ||| PTE_P ||| PTE_W ||| PTE_U) % 2 ^ 32 = V2P t ||| PTE_P ||| PTE_W ||| PTE_U :=
    Nat.mod_eq_of_lt hlt
  dsimp only [table, addTable]
  rw [word_setWord, hmod, if_pos hpresent, haddr]

theorem table_addTable_of_ne (hj : j < NPTENTRIES) (hji : j ≠ i) :
    table (addTable s pgdir i t next).mem pgdir j = table s.mem pgdir j := by
  obtain ⟨ht, hne, -⟩ := new_notMem hs hfree
  refine table_congr ?_
  rw [addTable, word_setWord_of_disjoint (by omega)]
  refine (Frame.of_fill ht 0).word hs.dir ?_ hj
  rw [List.mem_singleton]
  exact hne.symm

include hi

theorem pte_addTable (hn : n / NPTENTRIES = i) :
    pte (addTable s pgdir i t next).mem pgdir n = some 0 := by
  obtain ⟨ht, hne, -⟩ := new_notMem hs hfree
  have hslot : n % NPTENTRIES < NPTENTRIES := Nat.mod_lt _ (by decide)
  rw [pte, hn, table_addTable hs hfree, Option.map_some, addTable,
    (Frame.of_setWord hs.dir hi _).word ht (by rwa [List.mem_singleton]) hslot]
  congr 1
  refine word_fill_zero (by omega) ?_
  dsimp only [NPTENTRIES, PGSIZE] at *
  omega

theorem pte_addTable_of_ne (hn : n < NPAGES) (hne : n / NPTENTRIES ≠ i) :
    pte (addTable s pgdir i t next).mem pgdir n = pte s.mem pgdir n := by
  obtain ⟨ht, -, hother⟩ := new_notMem hs hfree
  have hslot : n % NPTENTRIES < NPTENTRIES := Nat.mod_lt _ (by decide)
  rw [pte, pte, table_addTable_of_ne hs hfree (dirSlot_lt hn) hne]
  cases ht' : table s.mem pgdir (n / NPTENTRIES) with
  | none => rfl
  | some t' =>
    rw [Option.map_some, Option.map_some]
    congr 1
    have hpage := isPage_table ht'
    have hdir : t' ∉ [pgdir] := by
      rw [List.mem_singleton]
      exact hs.directory.table_ne (dirSlot_lt hn) ht'
    have hnew : t' ∉ [t] := by
      rw [List.mem_singleton]
      exact hother _ (dirSlot_lt hn) _ ht'
    rw [addTable, (Frame.of_setWord hs.dir hi _).word hpage hdir hslot,
      (Frame.of_fill ht 0).word hpage hnew hslot]

theorem entered_addTable (hnone : table s.mem pgdir i = none) :
    Entered pgdir s (addTable s pgdir i t next) [] [t] fun _ => none := by
  have hkeeps : ∀ j < NPTENTRIES, j ≠ i →
      table (addTable s pgdir i t next).mem pgdir j = table s.mem pgdir j :=
    fun j hj => table_addTable_of_ne hs hfree hj
  constructor
  case free => rw [hfree]; exact .refl _
  case tables =>
    exact filterMap_put nodup_dirSlots (mem_dirSlots.2 hi) hnone (table_addTable hs hfree)
      fun j hj => hkeeps j (mem_dirSlots.1 hj)
  case keeps =>
    intro j hj t' ht'
    rwa [hkeeps j hj]
    rintro rfl
    exact absurd (hnone.symm.trans ht') (Option.some_ne_none t').symm
  case present => exact fun n x hx => absurd hx (Option.some_ne_none x).symm
  case set => exact fun n hn x hx => absurd hx (Option.some_ne_none x).symm
  case rest =>
    intro n hn _
    by_cases hni : n / NPTENTRIES = i
    · refine .inr ⟨?_, pte_addTable hs hfree hi hni⟩
      rw [mapping, pte_of_none (hni ▸ hnone)]
      rfl
    · exact .inl (pte_addTable_of_ne hs hfree hi hn hni)
  case frame =>
    have ht := (new_notMem hs hfree).1
    refine ((Frame.of_fill ht 0).mono fun p hp => ?_).trans
      ((Frame.of_setWord hs.dir hi _).mono fun p hp => ?_)
    · rw [List.mem_singleton.1 hp, hfree]
      simp
    · rw [List.mem_singleton.1 hp]
      simp

end AddTable

/-! ### `walkpgdir` -/

theorem index_page (hn : n < NPAGES) :
    (PDX (n * PGSIZE) : ℕ) = n / NPTENTRIES ∧ (PTX (n * PGSIZE) : ℕ) = n % NPTENTRIES := by
  dsimp only [PDX, PTX, PGSIZE, NPTENTRIES, NPAGES] at *
  omega

/-- The walk finds the entry of a page that has a page table. -/
theorem walk_some (alloc : Bool) (hn : n < NPAGES)
    (ht : table s.mem pgdir (n / NPTENTRIES) = some t) :
    walkpgdir pgdir (n * PGSIZE) alloc s = .ok (some (t + 4 * (n % NPTENTRIES))) s := by
  obtain ⟨hpdx, hptx⟩ := index_page hn
  dsimp only [table] at ht
  rw [walkpgdir, run_load_bind, hpdx, hptx]
  split_ifs at ht ⊢ with hp
  rw [Option.some.inj ht]
  rfl

theorem walk_none (hn : n < NPAGES) (ht : table s.mem pgdir (n / NPTENTRIES) = none) :
    walkpgdir pgdir (n * PGSIZE) false s = .ok none s := by
  obtain ⟨hpdx, -⟩ := index_page hn
  dsimp only [table] at ht
  rw [walkpgdir, run_load_bind, hpdx]
  split_ifs at ht with hp
  rw [if_neg hp, if_pos rfl]
  rfl

/-- The walk makes the page table that is missing, or memory is exhausted. -/
theorem walk_alloc (hs : Apart s pgdir) (hn : n < NPAGES) :
    Ends (fun r s' => r = none ∧ s' = s ∧ s.freelist = [] ∨
        ∃ t used, r = some (t + 4 * (n % NPTENTRIES)) ∧
          table s'.mem pgdir (n / NPTENTRIES) = some t ∧ Entered pgdir s s' [] used fun _ => none)
      (fun _ => False) (walkpgdir pgdir (n * PGSIZE) true s) := by
  cases ht : table s.mem pgdir (n / NPTENTRIES) with
  | some t =>
    rw [walk_some true hn ht]
    exact ends_ok.2 (.inr ⟨t, [], rfl, ht, .refl pgdir s⟩)
  | none =>
    obtain ⟨hpdx, hptx⟩ := index_page hn
    have habsent := ht
    dsimp only [table] at habsent
    rw [walkpgdir, run_load_bind, hpdx, hptx]
    split_ifs at habsent with hp
    rw [if_neg hp, if_neg (by decide)]
    cases hfree : s.freelist with
    | nil =>
      rw [run_bind_ok (kalloc_nil hfree)]
      exact ends_ok.2 (.inl ⟨rfl, rfl, rfl⟩)
    | cons t next =>
      rw [run_bind_ok (kalloc_cons hfree)]
      change Ends _ _ (.ok (some _) (addTable s pgdir (n / NPTENTRIES) t next))
      exact ends_ok.2 (.inr ⟨t, [t], rfl, table_addTable hs hfree,
        entered_addTable hs hfree (dirSlot_lt hn) ht⟩)

end Xv6Container.Paging
