import Xv6Container.Paging.Mappages

/-! `deallocuvm` against the plain loop that visits one page after the other. Where a page table is
missing the code jumps to the first page of the next one; the plain loop finds nothing to do up to
there. What the visits do is then proved of the plain loop. -/

namespace Xv6Container.Paging

open Lib
open Memory (PGSIZE KERNBASE PHYSTOP DEVSPACE UINT NPTENTRIES V2P PGROUNDUP)
open Memory.Copyout (PTE_P PTE_U flag PTE_ADDR P2V PDX PTX memmove)

variable {m : ℕ → UInt8} {pgdir t n lo mid hi p fuel oldsz newsz : ℕ} {s s' s'' : Kmem} {k : Kernel}

/-- What `deallocuvm` does with page `n`. -/
def visit (k : Kernel) (pgdir n : ℕ) : Run Unit := do
  match ← walkpgdir pgdir (n * PGSIZE) false with
  | none => return
  | some pte =>
    let w ← load pte
    if flag w PTE_P then
      if PTE_ADDR w = 0 then throw (.panic "kfree")
      else
        kfree k (P2V (PTE_ADDR w))
        store pte 0

/-- The plain loop over the pages from `lo` to `hi`. -/
def visitPages (k : Kernel) (pgdir lo hi : ℕ) : Run Unit := (pagesFrom lo hi).forM (visit k pgdir)

theorem visitPages_nil (h : hi ≤ lo) : visitPages k pgdir lo hi s = .ok () s := by
  rw [visitPages, pagesFrom_nil h]
  rfl

theorem visitPages_cons (h : lo < hi) :
    visitPages k pgdir lo hi s = (visit k pgdir lo >>= fun _ => visitPages k pgdir (lo + 1) hi) s := by
  rw [visitPages, pagesFrom_cons h]
  rfl

/-! ### The jump -/

theorem visit_none (hn : n < NPAGES) (ht : table s.mem pgdir (n / NPTENTRIES) = none) :
    visit k pgdir n s = .ok () s := by
  rw [visit, run_bind_ok (walk_none hn ht)]
  rfl

/-- Pages without a page table are visited in vain. -/
theorem visitPages_skip (hlo : lo ≤ mid) (hmid : mid ≤ hi) (hhi : hi ≤ NPAGES)
    (hnone : ∀ n, lo ≤ n → n < mid → table s.mem pgdir (n / NPTENTRIES) = none) :
    visitPages k pgdir lo hi s = visitPages k pgdir mid hi s := by
  induction hd : mid - lo generalizing lo with
  | zero =>
    obtain rfl : lo = mid := by omega
    rfl
  | succ d ih =>
    rw [visitPages_cons (by omega), run_bind_ok (visit_none (by omega) (hnone lo (le_refl lo) (by omega)))]
    exact ih (by omega) (fun n h1 h2 => hnone n (by omega) h2) (by omega)

/-- Where the code goes from page `n` when its page table is missing. -/
theorem jump_eq (hn : n < NUPAGES) :
    ((PGADDR (PDX (n * PGSIZE) + 1) 0 0 + (UINT - PGSIZE)) % UINT + PGSIZE) % UINT =
      (n / NPTENTRIES + 1) * NPTENTRIES * PGSIZE := by
  have hpdx : (PDX (n * PGSIZE) : ℕ) = n / NPTENTRIES :=
    (index_page (by dsimp only [NUPAGES, NPAGES] at *; omega)).1
  have hshift : PGADDR (n / NPTENTRIES + 1) 0 0 = (n / NPTENTRIES + 1) * 2 ^ 22 % UINT := by
    rw [PGADDR, Nat.zero_shiftLeft, Nat.or_zero, Nat.or_zero, Nat.shiftLeft_eq]
  rw [hpdx, hshift]
  dsimp only [UINT, PGSIZE, NPTENTRIES, NUPAGES] at *
  omega

/-- The pages below a size that is not above `KERNBASE`. -/
def sizePages (sz : ℕ) : ℕ := (sz + (PGSIZE - 1)) / PGSIZE

theorem lt_sizePages {sz : ℕ} : n < sizePages sz ↔ n * PGSIZE < sz := by
  unfold sizePages
  dsimp only [PGSIZE]
  omega

theorem sizePages_le {sz : ℕ} (h : sz ≤ KERNBASE) : sizePages sz ≤ NUPAGES := by
  unfold sizePages
  dsimp only [PGSIZE, KERNBASE, NUPAGES] at *
  omega

theorem PGROUNDUP_eq {sz : ℕ} (h : sz ≤ KERNBASE) : PGROUNDUP sz = sizePages sz * PGSIZE := by
  unfold PGROUNDUP sizePages
  dsimp only [PGSIZE, KERNBASE, UINT] at *
  omega

/-- A pass of the loop at a page that has a page table. -/
theorem deallocLoop_visit {a : ℕ} (hn : n < NPAGES) (ha : a = n * PGSIZE) (hlt : a < oldsz)
    (ht : table s.mem pgdir (n / NPTENTRIES) = some t) :
    deallocLoop k pgdir oldsz (fuel + 1) a s =
      (visit k pgdir n >>= fun _ => deallocLoop k pgdir oldsz fuel ((a + PGSIZE) % UINT)) s := by
  subst ha
  rw [deallocLoop, if_pos hlt, run_bind_ok (walk_some false hn ht), visit, bind_assoc,
    run_bind_ok (walk_some false hn ht)]
  dsimp only
  rw [run_load_bind, bind_assoc, run_load_bind]
  by_cases hp : flag (word s.mem (t + 4 * (n % NPTENTRIES))) PTE_P = true
  · rw [if_pos hp, if_pos hp]
    by_cases hzero : PTE_ADDR (word s.mem (t + 4 * (n % NPTENTRIES))) = 0
    · rw [if_pos hzero, if_pos hzero]
      rfl
    · rw [if_neg hzero, if_neg hzero, bind_assoc]
  · rw [if_neg hp, if_neg hp]
    rfl

/-- The loop of `deallocuvm` and the plain loop run alike. -/
theorem deallocLoop_eq (hold : oldsz ≤ KERNBASE) (hpos : 0 < fuel)
    (hfuel : sizePages oldsz < fuel + lo) :
    deallocLoop k pgdir oldsz fuel (lo * PGSIZE) s =
      visitPages k pgdir lo (sizePages oldsz) s := by
  have hpages := sizePages_le hold
  induction fuel generalizing lo s with
  | zero => omega
  | succ fuel ih =>
    by_cases hlt : lo * PGSIZE < oldsz
    · have hlo := lt_sizePages.2 hlt
      have hn : lo < NPAGES := by
        dsimp only [NUPAGES, NPAGES] at *
        omega
      cases ht : table s.mem pgdir (lo / NPTENTRIES) with
      | none =>
        rw [deallocLoop, if_pos hlt, run_bind_ok (walk_none hn ht)]
        dsimp only
        obtain ⟨next, hnext⟩ : ∃ next, next = (lo / NPTENTRIES + 1) * NPTENTRIES := ⟨_, rfl⟩
        have hgt : lo < next ∧ ∀ n, lo ≤ n → n < next → n / NPTENTRIES = lo / NPTENTRIES := by
          dsimp only [NPTENTRIES] at hnext ⊢
          exact ⟨by omega, fun n h1 h2 => by omega⟩
        have hnone : ∀ n, lo ≤ n → n < next → table s.mem pgdir (n / NPTENTRIES) = none := by
          intro n h1 h2
          rw [hgt.2 n h1 h2, ht]
        rw [jump_eq (by omega), ← hnext, ih (by omega) (by omega)]
        obtain hle | hle := Nat.le_total next (sizePages oldsz)
        · exact (visitPages_skip hgt.1.le hle (by dsimp only [NUPAGES, NPAGES] at *; omega) hnone).symm
        · -- the jump leaves the range
          rw [visitPages_nil hle, visitPages_skip hlo.le (le_refl _)
            (by dsimp only [NUPAGES, NPAGES] at *; omega) fun n h1 h2 => hnone n h1 (by omega),
            visitPages_nil (le_refl _)]
      | some t =>
        have hnext : (lo * PGSIZE + PGSIZE) % UINT = (lo + 1) * PGSIZE := by
          dsimp only [PGSIZE, UINT, NUPAGES] at *
          omega
        rw [deallocLoop_visit hn rfl hlt ht, visitPages_cons hlo, hnext]
        cases hvisit : visit k pgdir lo s with
        | ok u s' =>
          rw [run_bind_ok hvisit, run_bind_ok hvisit]
          exact ih (by omega) (by omega)
        | error e s' => rw [run_bind_error hvisit, run_bind_error hvisit]
    · rw [deallocLoop, if_neg hlt, visitPages_nil (Nat.not_lt.1 fun h => hlt (lt_sizePages.1 h))]
      rfl

/-- `deallocuvm` is the plain loop. -/
theorem deallocuvm_eq (hlt : newsz < oldsz) (hold : oldsz ≤ KERNBASE) :
    deallocuvm k pgdir oldsz newsz s =
      (visitPages k pgdir (sizePages newsz) (sizePages oldsz) >>= fun _ => pure newsz) s := by
  rw [deallocuvm, if_neg (Nat.not_le.2 hlt), PGROUNDUP_eq (by omega)]
  have hpages := sizePages_le hold
  have hloop := @deallocLoop_eq pgdir (sizePages newsz) (UINT / PGSIZE + 1) oldsz s k hold
    (by decide) (by dsimp only [UINT, PGSIZE, NUPAGES] at *; omega)
  cases hvisit : visitPages k pgdir (sizePages newsz) (sizePages oldsz) s with
  | ok u s' => rw [run_bind_ok (hloop.trans hvisit), run_bind_ok hvisit]
  | error e s' => rw [run_bind_error (hloop.trans hvisit), run_bind_error hvisit]

/-! ### What the visits do -/

/-- Pages that may be freed: `kfree` takes them, and they are not used for the page tables. -/
def Freeable (k : Kernel) (m : ℕ → UInt8) (pgdir : ℕ) (l : List ℕ) : Prop :=
  ∀ p ∈ l, Valid k p ∧ p ∉ pgdir :: tables m pgdir

/-- The pages that were present between `lo` and `hi` are on the free list and unmapped, and no other
entry has changed. -/
structure Freed (pgdir lo hi : ℕ) (s s' : Kmem) : Prop where
  free : s'.freelist = (users s.mem pgdir lo hi).reverse ++ s.freelist
  table : ∀ i < NPTENTRIES, table s'.mem pgdir i = table s.mem pgdir i
  clear : ∀ n, lo ≤ n → n < hi → pte s'.mem pgdir n =
    if (mapping s.mem pgdir n).isSome then some 0 else pte s.mem pgdir n
  rest : ∀ n < NPAGES, ¬ (lo ≤ n ∧ n < hi) → pte s'.mem pgdir n = pte s.mem pgdir n
  frame : Frame (users s.mem pgdir lo hi ++ tables s.mem pgdir) s.mem s'.mem

namespace Freed

theorem refl (h : hi ≤ lo) : Freed pgdir lo hi s s where
  free := by rw [users_nil h]; rfl
  table _ _ := rfl
  clear n h1 h2 := by omega
  rest _ _ _ := rfl
  frame := .refl _ _

theorem trans (h : Freed pgdir lo mid s s') (h' : Freed pgdir mid hi s' s'') (h1 : lo ≤ mid)
    (h2 : mid ≤ hi) (hhi : hi ≤ NPAGES) : Freed pgdir lo hi s s'' := by
  have hsame : ∀ n, mid ≤ n → n < hi → pte s'.mem pgdir n = pte s.mem pgdir n :=
    fun n h3 h4 => h.rest n (by omega) (by omega)
  have husers : users s'.mem pgdir mid hi = users s.mem pgdir mid hi :=
    users_congr fun n h3 h4 => mapping_congr (hsame n h3 h4)
  have htables := tables_congr h.table
  constructor
  case free =>
    rw [h'.free, husers, h.free, ← users_append h1 h2, List.reverse_append, List.append_assoc]
  case table => exact fun i hi => (h'.table i hi).trans (h.table i hi)
  case clear =>
    intro n h3 h4
    by_cases hn : n < mid
    · rw [h'.rest n (by omega) (by omega), h.clear n h3 hn]
    · rw [h'.clear n (by omega) h4, hsame n (by omega) h4,
        mapping_congr (hsame n (by omega) h4)]
  case rest =>
    intro n hn hout
    rw [h'.rest n hn (by omega), h.rest n hn (by omega)]
  case frame =>
    refine (h.frame.mono fun p hp => ?_).trans (h'.frame.mono fun p hp => ?_) <;>
    · rw [← users_append h1 h2]
      try rw [husers, htables] at hp
      simp only [List.mem_append] at hp ⊢
      tauto

end Freed

theorem kfree_valid (hp : Valid k p) :
    kfree k p s = .ok () ⟨p :: s.freelist, fill s.mem p 1 PGSIZE⟩ := by
  have hok : ¬ (p % PGSIZE ≠ 0 ∨ p < k.kernelEnd ∨ V2P p ≥ PHYSTOP) := by
    have h1 := hp.page.1
    have h2 := hp.image
    have h3 := hp.physical
    omega
  rw [kfree, if_neg hok]
  rfl

/-- The page of an entry has been freed and the entry cleared. -/
theorem freed_page (hd : Directory s.mem pgdir) (hn : n < NPAGES)
    (ht : table s.mem pgdir (n / NPTENTRIES) = some t) (hmap : (userPage s.mem pgdir n) = some p)
    (hvalid : IsPage p) (hnot : p ∉ pgdir :: tables s.mem pgdir) :
    Freed pgdir n (n + 1) s
      ⟨p :: s.freelist, setWord (fill s.mem p 1 PGSIZE) (t + 4 * (n % NPTENTRIES)) 0⟩ := by
  have husers : users s.mem pgdir n (n + 1) = [p] := by
    rw [users, pagesFrom_cons (by omega), pagesFrom_nil (le_refl _), List.filterMap_cons_some hmap]
    rfl
  have hframe : Frame [p] s.mem (fill s.mem p 1 PGSIZE) := .of_fill hvalid 1
  obtain ⟨htable, hptes⟩ := hframe.tables_eq hd.dir fun q hq => by
    rw [List.mem_singleton]
    exact ne_of_mem_of_not_mem hq hnot
  have hd' : Directory (fill s.mem p 1 PGSIZE) pgdir := by
    refine ⟨hd.dir, ?_⟩
    rw [tables_congr htable]
    exact hd.nodup
  have ht' := (htable _ (dirSlot_lt hn)).trans ht
  constructor
  case free =>
    rw [husers]
    rfl
  case table => exact fun i hi => (table_store hd' hn ht' 0 hi).trans (htable i hi)
  case clear =>
    intro n' h1 h2
    obtain rfl : n' = n := by omega
    rw [userPage, Option.map_eq_some_iff] at hmap
    obtain ⟨x, hx, -⟩ := hmap
    rw [hx, Option.isSome_some, if_pos rfl]
    exact pte_store hd' hn ht' (by decide)
  case rest =>
    intro n' hn' hout
    exact (pte_store_of_ne hd' hn ht' 0 hn' (by omega)).trans (hptes n' hn')
  case frame =>
    rw [husers]
    refine (hframe.mono fun q hq => List.mem_append_left _ hq).trans ?_
    refine (frame_store hn ht' 0).mono fun q hq => List.mem_append_right _ ?_
    rwa [← tables_congr htable]

/-- One visit. -/
theorem visit_freed (hd : Directory s.mem pgdir) (hn : n < NPAGES)
    (hfree : Freeable k s.mem pgdir (users s.mem pgdir n (n + 1))) :
    ∃ s', visit k pgdir n s = .ok () s' ∧ Freed pgdir n (n + 1) s s' := by
  have hidle : ∀ x, pte s.mem pgdir n = x → (x.filter fun w => flag w PTE_P) = none →
      Freed pgdir n (n + 1) s s := by
    intro x hx hnone
    have hmap : mapping s.mem pgdir n = none := by
      rw [mapping, hx, hnone]
    refine ⟨by rw [users_one_none hmap]; rfl, fun _ _ => rfl, fun n' h1 h2 => ?_, fun _ _ _ => rfl,
      .refl _ _⟩
    obtain rfl : n' = n := by omega
    rw [hmap]
    rfl
  cases ht : table s.mem pgdir (n / NPTENTRIES) with
  | none => exact ⟨s, visit_none hn ht, hidle none (pte_of_none ht) rfl⟩
  | some t =>
    have hpte := pte_of_table ht
    rw [visit, run_bind_ok (walk_some false hn ht)]
    dsimp only
    rw [run_load_bind]
    by_cases hp : flag (word s.mem (t + 4 * (n % NPTENTRIES))) PTE_P = true
    · have hmap := mapping_eq_some.2 ⟨hpte, hp⟩
      have hpage : userPage s.mem pgdir n =
          some (P2V (PTE_ADDR (word s.mem (t + 4 * (n % NPTENTRIES))))) := by
        rw [userPage, hmap, Option.map_some]
      rw [users_one_some hmap] at hfree
      obtain ⟨hvalid, hnot⟩ := hfree _ List.mem_cons_self
      have hzero : PTE_ADDR (word s.mem (t + 4 * (n % NPTENTRIES))) ≠ 0 := by
        intro h0
        have hrange := hvalid.range.1
        rw [h0] at hrange
        exact absurd hrange (by decide)
      have hfreed := freed_page hd hn ht hpage hvalid.page hnot
      rw [if_pos hp, if_neg hzero, run_bind_ok (kfree_valid hvalid), run_store]
      dsimp only
      exact ⟨_, rfl, hfreed⟩
    · rw [if_neg hp]
      exact ⟨s, rfl, hidle _ hpte (by rw [Option.filter_some, if_neg hp])⟩

/-- The plain loop frees all pages that are present. -/
theorem visitPages_freed (hd : Directory s.mem pgdir) (hhi : hi ≤ NPAGES)
    (hfree : Freeable k s.mem pgdir (users s.mem pgdir lo hi)) :
    ∃ s', visitPages k pgdir lo hi s = .ok () s' ∧ Freed pgdir lo hi s s' := by
  induction hm : hi - lo generalizing lo s with
  | zero => exact ⟨s, visitPages_nil (by omega), .refl (by omega)⟩
  | succ m ih =>
    have hlt : lo < hi := by omega
    have hsplit : users s.mem pgdir lo (lo + 1) ++ users s.mem pgdir (lo + 1) hi =
        users s.mem pgdir lo hi := users_append (by omega) hlt
    rw [← hsplit] at hfree
    obtain ⟨s₁, hvisit, hfreed⟩ := visit_freed hd (by omega)
      fun p hp => hfree p (List.mem_append_left _ hp)
    have htables := tables_congr hfreed.table
    have husers : users s₁.mem pgdir (lo + 1) hi = users s.mem pgdir (lo + 1) hi :=
      users_congr fun n h1 h2 => mapping_congr (hfreed.rest n (by omega) (by omega))
    have hd₁ : Directory s₁.mem pgdir := ⟨hd.dir, htables ▸ hd.nodup⟩
    have hfree₁ : Freeable k s₁.mem pgdir (users s₁.mem pgdir (lo + 1) hi) := by
      intro p hp
      rw [husers] at hp
      rw [htables]
      exact hfree p (List.mem_append_right _ hp)
    obtain ⟨s₂, hrest, hfreed₂⟩ := ih hd₁ hfree₁ (by omega)
    refine ⟨s₂, ?_, hfreed.trans hfreed₂ (by omega) hlt hhi⟩
    rw [visitPages_cons hlt, run_bind_ok hvisit]
    exact hrest

/-- `deallocuvm` is the plain loop over the pages from `newsz` to `oldsz`, which frees each page that
is present once, unmaps it, and leaves every other entry as it is. -/
theorem deallocuvm_visits (hd : Directory s.mem pgdir) (hlt : newsz < oldsz) (hold : oldsz ≤ KERNBASE)
    (husers : (users s.mem pgdir 0 NUPAGES).Nodup)
    (hvalid : Freeable k s.mem pgdir (users s.mem pgdir 0 NUPAGES)) :
    ∃ s', deallocuvm k pgdir oldsz newsz s = .ok newsz s' ∧
      visitPages k pgdir (sizePages newsz) (sizePages oldsz) s = .ok () s' ∧
      Freed pgdir (sizePages newsz) (sizePages oldsz) s s' ∧
      (users s.mem pgdir (sizePages newsz) (sizePages oldsz)).Nodup := by
  have hpages := sizePages_le hold
  have hle : sizePages newsz ≤ sizePages oldsz := by
    unfold sizePages
    exact Nat.div_le_div_right (by omega)
  have hsub : (users s.mem pgdir (sizePages newsz) (sizePages oldsz)).Sublist
      (users s.mem pgdir 0 NUPAGES) := by
    rw [← users_append (Nat.zero_le _) (hle.trans hpages), ← users_append hle hpages]
    exact (List.sublist_append_left _ _).trans (List.sublist_append_right _ _)
  obtain ⟨s', hvisit, hfreed⟩ := visitPages_freed hd
    (hpages.trans (by decide)) fun p hp => hvalid p (hsub.subset hp)
  refine ⟨s', ?_, hvisit, hfreed, hsub.nodup husers⟩
  rw [deallocuvm_eq hlt hold, run_bind_ok hvisit]
  rfl

/-- A page directory whose only entry maps page 5. -/
def oneUser : Kmem :=
  let s := addTable emptyDir 0x80400000 0 0x80401000 [0x80402000, 0x80403000]
  { s with mem := setWord s.mem (0x80401000 + 4 * (5 % NPTENTRIES)) (0x402000 ||| 6 ||| PTE_P) }

def smallKernel : Kernel := ⟨0x80108000, 0x80110000, by decide, by decide, by decide, by decide⟩

theorem entered_oneUser : ∃ w : ℕ → Option ℕ, Entered 0x80400000 emptyDir oneUser [] [0x80401000] w ∧
    w 5 = some (0x402000 ||| 6 ||| PTE_P) ∧ ∀ n, n ≠ 5 → w n = none := by
  have hadd := entered_addTable apart_emptyDir rfl (by decide : 0 < NPTENTRIES) (table_zero _ 0)
  have hstore := entered_store (hadd.apart apart_emptyDir).directory (by decide : 5 < NPAGES)
    (table_addTable apart_emptyDir rfl) (by decide : (0x402000 ||| 6 ||| PTE_P) < UINT) (by decide)
  exact ⟨_, hadd.trans hstore, rfl, fun n hn => by simp [hn]⟩

/-- Page 5 is freed when the process shrinks from 10 pages to one byte. -/
theorem deallocuvm_visits_one : ∃ s', deallocuvm smallKernel 0x80400000 40960 1 oneUser = .ok 1 s' ∧
    Freed 0x80400000 1 10 oneUser s' := by
  obtain ⟨w, hw, hfive, hother⟩ := entered_oneUser
  have hzero : users emptyDir.mem 0x80400000 0 NUPAGES = [] :=
    List.filterMap_eq_nil_iff.2 fun n _ => by rw [userPage, emptyDir, mapping_zero]; rfl
  have husers := hw.users_put (Nat.zero_le 5) (by decide : 5 < NUPAGES) (by decide) hfive
    (fun n _ _ => hother n) (mapping_zero _ 5)
  have hd := (hw.apart apart_emptyDir).directory
  have htables := hw.tables
  rw [hzero] at husers
  rw [emptyDir, tables_zero] at htables
  obtain ⟨s', hrun, -, hfreed, -⟩ := @deallocuvm_visits _ 40960 1 oneUser smallKernel hd (by decide)
    (by decide) (husers.nodup_iff.2 (by decide)) fun p hp => by
      rw [husers.mem_iff, List.mem_singleton] at hp
      rw [hp, List.mem_cons, htables.mem_iff]
      exact ⟨⟨by decide, by decide, by decide⟩, by decide⟩
  exact ⟨s', hrun, hfreed⟩

end Xv6Container.Paging
