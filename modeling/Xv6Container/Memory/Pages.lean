import Mathlib.Algebra.BigOperators.Fin
import Xv6Container.Lib.Tally
import Xv6Container.Memory.Mapping

/-! Where the pages are. Every function of `kalloc.c` and `vm.c` moves pages between the free list
and page tables, and none of them loses a page or puts it in two places: for each page the number
of its places stays the same. -/

namespace Xv6Container.Memory

open Lib

variable {d d₀ : PageDir} {m : Kmem} {a va sz oldsz newsz fuel : ℕ} {n : ℤ} {pg : Page}

/-! ### Places -/

/-- Whether a place holds a page. -/
def hit (o : Option Page) (pg : Page) : ℤ := if o = some pg then 1 else 0

@[simp] theorem hit_none : hit none pg = 0 := if_neg nofun

theorem hit_nonneg (o : Option Page) (pg : Page) : 0 ≤ hit o pg := by
  unfold hit
  split_ifs
  · exact Int.one_nonneg
  · exact le_refl 0

/-- The places of a page in the free list. -/
def Kmem.count (m : Kmem) (pg : Page) : ℤ := m.freelist.count pg

namespace PageTable

/-- The places of a page in a page table: the table itself and its entries. -/
def count (t : PageTable) (pg : Page) : ℤ :=
  hit (some t.page) pg + ∑ j, hit ((t.pte j).map Pte.mem) pg

theorem count_new (pgtab pg : Page) : count ⟨pgtab, fun _ => none⟩ pg = hit (some pgtab) pg := by
  simp [count]

theorem count_update (t : PageTable) (j : Fin NPTENTRIES) (x : Option Pte) :
    count { t with pte := Function.update t.pte j x } pg =
      t.count pg - hit ((t.pte j).map Pte.mem) pg + hit (x.map Pte.mem) pg := by
  have hsum := sum_update (fun o : Option Pte => hit (o.map Pte.mem) pg) t.pte j x
  unfold count
  rw [hsum]
  dsimp only
  omega

end PageTable

/-- The places of a page in a page table that may be missing. -/
def tableCount (o : Option PageTable) (pg : Page) : ℤ := o.elim 0 fun t => t.count pg

namespace PageDir

/-- The places of a page in an address space. -/
def count (d : PageDir) (pg : Page) : ℤ :=
  hit (some d.page) pg + ∑ i, tableCount (d.user i) pg + ∑ i, hit (d.kernel i) pg

theorem count_setTable (i : Fin NUPDE) (o : Option PageTable) :
    (d.setTable i o).count pg = d.count pg - tableCount (d.user i) pg + tableCount o pg := by
  have hsum := sum_update (fun o => tableCount o pg) d.user i o
  unfold count setTable
  rw [hsum]
  dsimp only
  omega

theorem count_setEntry {l : Fin NUPDE × Fin NPTENTRIES} (h : (d.user l.1).isSome)
    (x : Option Pte) : (d.setEntry l x).count pg =
      d.count pg - hit ((d.entry l).map Pte.mem) pg + hit (x.map Pte.mem) pg := by
  obtain ⟨t, ht⟩ := Option.isSome_iff_exists.1 h
  have htable : tableCount (some { t with pte := Function.update t.pte l.2 x }) pg =
      t.count pg - hit ((t.pte l.2).map Pte.mem) pg + hit (x.map Pte.mem) pg := t.count_update ..
  have hold : tableCount (some t) pg = t.count pg := rfl
  rw [setEntry, count_setTable, entry, ht, Option.map_some, htable, hold, Option.bind_some]
  omega

theorem count_setKernel {i : Fin NUPDE} (h : d.kernel i = none) (pgtab : Page) :
    (d.setKernel i pgtab).count pg = d.count pg + hit (some pgtab) pg := by
  have hsum := sum_update (fun o => hit o pg) d.kernel i (some pgtab)
  rw [h, hit_none, sub_zero] at hsum
  unfold count setKernel
  rw [hsum]
  dsimp only
  omega

end PageDir

/-! ### One page -/

theorem kalloc_count : Ends (fun o m' => ∀ pg, hit o pg + m'.count pg = m.count pg)
    (fun _ => True) (kalloc m) := by
  simp only [kalloc, run_get_bind]
  cases hlist : m.freelist with
  | nil => exact ends_ok.2 fun pg => by simp
  | cons r next =>
    refine ends_ok.2 fun pg => ?_
    show hit (some r) pg + (next.count pg : ℤ) = m.freelist.count pg
    rw [hlist, List.count_cons, hit]
    simp only [Option.some.injEq, beq_iff_eq]
    split_ifs <;> push_cast <;> omega

theorem kfree_count {v : Page} : Ends (fun _ m' => ∀ pg, m'.count pg = m.count pg + hit (some v) pg)
    (fun _ => True) (kfree v m) := by
  simp only [kfree, run_get_bind]
  split_ifs
  · exact ends_error.2 trivial
  · refine ends_ok.2 fun pg => ?_
    show (((v :: m.freelist).count pg : ℕ) : ℤ) = m.freelist.count pg + hit (some v) pg
    rw [List.count_cons, hit]
    simp only [Option.some.injEq, beq_iff_eq]
    split_ifs <;> push_cast <;> omega

theorem forM_kfree_count (l : List Page) :
    Ends (fun _ m' => ∀ pg, m'.count pg = m.count pg + l.count pg) (fun _ => True)
      (l.forM kfree m) := by
  induction l generalizing m with
  | nil => exact ends_ok.2 fun pg => (add_zero _).symm
  | cons v l ih =>
    change Ends _ _ ((kfree v >>= fun _ => l.forM kfree) m)
    refine kfree_count.bind fun _ m' hm => ih.post fun _ m'' hm' pg => ?_
    rw [hm', hm, List.count_cons, hit]
    simp only [Option.some.injEq, beq_iff_eq]
    split_ifs <;> push_cast <;> omega

/-- The places that are freed one after the other. -/
theorem count_filterMap {β : Type} (f : β → Option Page) (l : List β) :
    ((l.filterMap f).count pg : ℤ) = (l.map fun b => hit (f b) pg).sum := by
  induction l with
  | nil => rfl
  | cons b l ih =>
    rw [List.map_cons, List.sum_cons, ← ih]
    cases hb : f b with
    | none => rw [List.filterMap_cons_none hb, hit_none, zero_add]
    | some v =>
      rw [List.filterMap_cons_some hb, List.count_cons, hit]
      simp only [Option.some.injEq, beq_iff_eq]
      split_ifs <;> push_cast <;> omega

theorem count_finRange {k : ℕ} (f : Fin k → Option Page) :
    (((List.finRange k).filterMap f).count pg : ℤ) = ∑ i, hit (f i) pg := by
  rw [count_filterMap, Fin.sum_univ_def]

/-! ### Page tables -/

theorem walkpgdir_look_table : Ends (fun x m' => x.1 = d ∧ m' = m ∧
    ∀ l, x.2 = some l → (d.user l.1).isSome) (fun _ => True) (walkpgdir d va false m) := by
  by_cases hva : va < KERNBASE
  · rw [walkpgdir_look hva, ends_ok]
    refine ⟨rfl, rfl, fun l hl => ?_⟩
    obtain ⟨t, ht, rfl⟩ := Option.map_eq_some_iff.1 hl
    rw [ht]
    rfl
  · simp only [walkpgdir, if_pos (not_lt.1 hva)]
    exact ends_error.2 trivial

theorem walkpgdir_count : Ends (fun x m' =>
    (∀ pg, x.1.count pg + m'.count pg = d.count pg + m.count pg) ∧
      ∀ l, x.2 = some l → (x.1.user l.1).isSome) (fun _ => True) (walkpgdir d va true m) := by
  by_cases hva : va < KERNBASE
  · simp only [walkpgdir, if_neg (not_le.2 hva)]
    cases ht : d.user (PDX va) with
    | some t =>
      refine ends_ok.2 ⟨fun _ => rfl, ?_⟩
      rintro l ⟨⟩
      rw [ht]
      rfl
    | none =>
      simp only [if_true]
      refine kalloc_count.bind fun o m' hm => ?_
      cases o with
      | none =>
        refine ends_ok.2 ⟨fun pg => ?_, by rintro _ ⟨⟩⟩
        have := hm pg
        rw [hit_none] at this
        dsimp only
        omega
      | some pgtab =>
        refine ends_ok.2 ⟨fun pg => ?_, ?_⟩
        · have := hm pg
          have hnew : tableCount (some ⟨pgtab, fun _ => none⟩) pg = hit (some pgtab) pg :=
            PageTable.count_new ..
          have hnone : tableCount none pg = 0 := rfl
          rw [PageDir.count_setTable, ht, hnew, hnone]
          omega
        · rintro l ⟨⟩
          change (Function.update d.user (PDX va) _ (PDX va)).isSome
          rw [Function.update_self]
          rfl
  · simp only [walkpgdir, if_pos (not_lt.1 hva)]
    exact ends_error.2 trivial

/-- A page that is mapped has found a place. -/
theorem mappages_count {pte : Pte} : Ends (fun x m' => ∀ pg, x.1.count pg + m'.count pg =
    d.count pg + m.count pg + if x.2 then hit (some pte.mem) pg else 0) (fun _ => True)
    (mappages d va pte m) := by
  refine walkpgdir_count.bind fun x m' ⟨hx, hl⟩ => ?_
  obtain ⟨d', o⟩ := x
  cases o with
  | none => exact ends_ok.2 fun pg => by simpa using hx pg
  | some l =>
    dsimp only
    split_ifs with hentry
    · exact ends_error.2 trivial
    · refine ends_ok.2 fun pg => ?_
      have hpg := hx pg
      have hnone := Option.not_isSome_iff_eq_none.1 hentry
      have hset : (d'.setEntry l (some pte)).count pg = d'.count pg -
          hit ((d'.entry l).map Pte.mem) pg + hit (some pte.mem) pg :=
        PageDir.count_setEntry (hl l rfl) (some pte)
      rw [hnone, Option.map_none, hit_none] at hset
      dsimp only at hpg ⊢
      rw [hset, if_pos rfl]
      omega

/-! ### `deallocuvm` and `freevm` -/

theorem deallocLoop_count : Ends (fun x m' => ∀ pg, x.count pg + m'.count pg =
    d.count pg + m.count pg) (fun _ => True) (deallocLoop fuel d a oldsz m) := by
  induction fuel generalizing d a m with
  | zero => exact ends_ok.2 fun _ => rfl
  | succ fuel ih =>
    unfold deallocLoop
    split_ifs
    · refine walkpgdir_look_table.bind ?_
      rintro x m' ⟨_, hm, hl⟩
      subst hm
      obtain ⟨d', o⟩ := x
      cases o with
      | none => exact ih
      | some l =>
        dsimp only
        cases he : d.entry l with
        | none => exact ih
        | some pte =>
          dsimp only
          split_ifs
          · exact ends_error.2 trivial
          · refine kfree_count.bind fun _ m'' hm => ih.post fun x m''' hx pg => ?_
            rw [hx, PageDir.count_setEntry (hl l rfl), he, hm, Option.map_some, Option.map_none,
              hit_none]
            omega
    · exact ends_ok.2 fun _ => rfl

theorem deallocuvm_count : Ends (fun x m' => ∀ pg, x.1.count pg + m'.count pg =
    d.count pg + m.count pg) (fun _ => True) (deallocuvm d oldsz newsz m) := by
  unfold deallocuvm
  split_ifs
  · exact ends_ok.2 fun _ => rfl
  · exact deallocLoop_count.bind fun x m' hx => ends_ok.2 hx

/-- An address space without entries. -/
theorem PageDir.count_unmapped (h : ∀ b, b < KERNBASE → d.mapped b = none) :
    d.count pg = hit (some d.page) pg + ∑ i, hit ((d.user i).map PageTable.page) pg +
      ∑ i, hit (d.kernel i) pg := by
  have hentry : ∀ i j, d.entry (i, j) = none := by
    intro i j
    have hi : i.val < 512 := i.isLt
    have hj : j.val < 1024 := j.isLt
    have hplace : (PDX (i.val * 0x400000 + j.val * PGSIZE),
        PTX (i.val * 0x400000 + j.val * PGSIZE)) = (i, j) := by
      simp only [PDX, PTX, Prod.mk.injEq, Fin.ext_iff, NUPDE, NPTENTRIES, PGSIZE]
      omega
    rw [← hplace]
    refine h _ ?_
    simp only [KERNBASE, PGSIZE]
    omega
  have htable : ∀ i, tableCount (d.user i) pg = hit ((d.user i).map PageTable.page) pg := by
    intro i
    cases ht : d.user i with
    | none => exact hit_none.symm
    | some t =>
      have hnone : ∀ j, t.pte j = none := by
        intro j
        have := hentry i j
        rwa [entry, ht, Option.bind_some] at this
      show t.count pg = _
      simp [PageTable.count, hnone]
  unfold count
  rw [Finset.sum_congr rfl fun i _ => htable i]

/-- All pages of an address space go back to the free list. -/
theorem freevm_count : Ends (fun _ m' => ∀ pg, m'.count pg = m.count pg + d.count pg)
    (fun _ => True) (freevm d m) := by
  have hunmap : Ends (fun x m' => (∀ b, b < KERNBASE → x.1.mapped b = none) ∧
      ∀ pg, x.1.count pg + m'.count pg = d.count pg + m.count pg) (fun _ => True)
      (deallocuvm d KERNBASE 0 m) := by
    refine ((deallocuvm_mapped (le_refl _) (by decide)).and deallocuvm_count).mono
      (fun x m' ⟨⟨_, hx⟩, hcount⟩ => ⟨fun b hb => ?_, hcount⟩) fun _ _ => trivial
    rw [hx b hb]
    refine if_pos ⟨?_, ?_⟩
    · rw [PGROUNDUP_of_le (Nat.zero_le _)]
      exact Nat.zero_le b
    · simp only [KERNBASE, PGSIZE] at hb ⊢
      omega
  refine hunmap.bind fun x m₁ ⟨hx, h₁⟩ => ?_
  refine (forM_kfree_count _).bind fun _ m₂ h₂ => ?_
  refine (forM_kfree_count _).bind fun _ m₃ h₃ => ?_
  refine kfree_count.post fun _ m₄ h₄ pg => ?_
  have hpg := h₁ pg
  rw [PageDir.count_unmapped hx] at hpg
  rw [h₄, h₃, h₂, count_finRange, count_finRange]
  omega

/-! ### `setupkvm` -/

theorem mapKernel_count {is : List (Fin NUPDE)} : Ends (fun x m' => ∀ pg,
    x.1.count pg + m'.count pg = d.count pg + m.count pg) (fun _ => True) (mapKernel d is m) := by
  induction is generalizing d m with
  | nil => exact ends_ok.2 fun _ => rfl
  | cons i is ih =>
    unfold mapKernel
    split_ifs with hi
    · exact ih
    · refine kalloc_count.bind fun o m' hm => ?_
      cases o with
      | none =>
        refine ends_ok.2 fun pg => ?_
        have := hm pg
        rw [hit_none] at this
        dsimp only
        omega
      | some pgtab =>
        refine ih.post fun x m'' hx pg => ?_
        have := hm pg
        rw [hx, PageDir.count_setKernel (Option.not_isSome_iff_eq_none.1 hi)]
        omega

/-- The places of a page in an address space that may be missing. -/
def dirCount (o : Option PageDir) (pg : Page) : ℤ := o.elim 0 fun d => d.count pg

theorem setupkvm_count : Ends (fun o m' => ∀ pg, dirCount o pg + m'.count pg = m.count pg)
    (fun _ => True) (setupkvm m) := by
  refine kalloc_count.bind fun o m₁ h₁ => ?_
  cases o with
  | none => exact ends_ok.2 fun pg => by simpa [dirCount] using h₁ pg
  | some page =>
    refine mapKernel_count.bind fun x m₂ h₂ => ?_
    obtain ⟨d, b⟩ := x
    have hnew : ∀ pg, (PageDir.mk page (fun _ => none) fun _ => none).count pg =
        hit (some page) pg := by
      intro pg
      simp [PageDir.count, tableCount]
    cases b with
    | true =>
      refine ends_ok.2 fun pg => ?_
      show d.count pg + m₂.count pg = m.count pg
      have := h₂ pg
      rw [hnew, h₁] at this
      exact this
    | false =>
      refine freevm_count.bind fun _ m₃ h₃ => ends_ok.2 fun pg => ?_
      have := h₂ pg
      rw [hnew, h₁] at this
      show 0 + m₃.count pg = m.count pg
      rw [h₃, ← this]
      dsimp only
      omega

/-! ### `allocuvm` and `copyuvm` -/

theorem allocLoop_count : Ends (fun x m' => ∀ pg, x.1.count pg + m'.count pg =
    d.count pg + m.count pg) (fun _ => True) (allocLoop fuel d a oldsz newsz m) := by
  induction fuel generalizing d a m with
  | zero => exact ends_ok.2 fun _ => rfl
  | succ fuel ih =>
    unfold allocLoop
    split_ifs
    · refine kalloc_count.bind fun o m₁ h₁ => ?_
      cases o with
      | none =>
        refine deallocuvm_count.bind fun x m₂ h₂ => ends_ok.2 fun pg => ?_
        have hpg := h₁ pg
        rw [hit_none] at hpg
        have hpg' := h₂ pg
        dsimp only
        omega
      | some mem =>
        refine mappages_count.bind fun x m₂ h₂ => ?_
        obtain ⟨d', b⟩ := x
        cases b with
        | true =>
          refine ih.post fun x m₃ h₃ pg => ?_
          have hpg := h₂ pg
          rw [if_pos rfl] at hpg
          have hpg' := h₁ pg
          dsimp only at hpg
          rw [h₃]
          omega
        | false =>
          refine deallocuvm_count.bind fun x m₃ h₃ => ?_
          refine kfree_count.bind fun _ m₄ h₄ => ends_ok.2 fun pg => ?_
          have hpg := h₂ pg
          rw [if_neg Bool.false_ne_true] at hpg
          have hpg' := h₁ pg
          have hpg'' := h₃ pg
          dsimp only at hpg ⊢
          rw [h₄]
          omega
    · exact ends_ok.2 fun _ => rfl

theorem allocuvm_count : Ends (fun x m' => ∀ pg, x.1.count pg + m'.count pg =
    d.count pg + m.count pg) (fun _ => True) (allocuvm d oldsz newsz m) := by
  unfold allocuvm
  split_ifs
  · exact ends_ok.2 fun _ => rfl
  · exact ends_ok.2 fun _ => rfl
  · exact allocLoop_count

theorem copyLoop_count {pgdir : PageDir} : Ends (fun o m' => ∀ pg,
    dirCount o pg + m'.count pg = d.count pg + m.count pg) (fun _ => True)
    (copyLoop pgdir fuel d a sz m) := by
  induction fuel generalizing d a m with
  | zero => exact ends_ok.2 fun _ => rfl
  | succ fuel ih =>
    unfold copyLoop
    split_ifs
    · refine walkpgdir_look_table.bind ?_
      rintro x m₁ ⟨_, hm, _⟩
      subst hm
      obtain ⟨_, o⟩ := x
      cases o with
      | none => exact ends_error.2 trivial
      | some l =>
        dsimp only
        cases pgdir.entry l with
        | none => exact ends_error.2 trivial
        | some pte =>
          refine kalloc_count.bind fun o m₁ h₁ => ?_
          cases o with
          | none =>
            refine freevm_count.bind fun _ m₂ h₂ => ends_ok.2 fun pg => ?_
            have hpg := h₁ pg
            rw [hit_none] at hpg
            show 0 + m₂.count pg = _
            rw [h₂]
            omega
          | some mem =>
            refine mappages_count.bind fun x m₂ h₂ => ?_
            obtain ⟨d', b⟩ := x
            cases b with
            | true =>
              refine ih.post fun x m₃ h₃ pg => ?_
              have hpg := h₂ pg
              rw [if_pos rfl] at hpg
              have hpg' := h₁ pg
              dsimp only at hpg
              rw [h₃]
              omega
            | false =>
              refine kfree_count.bind fun _ m₃ h₃ => ?_
              refine freevm_count.bind fun _ m₄ h₄ => ends_ok.2 fun pg => ?_
              have hpg := h₂ pg
              rw [if_neg Bool.false_ne_true] at hpg
              have hpg' := h₁ pg
              dsimp only at hpg
              show 0 + m₄.count pg = _
              rw [h₄, h₃]
              omega
    · exact ends_ok.2 fun _ => rfl

/-- The pages of a copy come from the free list; a copy that fails gives all of them back. -/
theorem copyuvm_count : Ends (fun o m' => ∀ pg, dirCount o pg + m'.count pg = m.count pg)
    (fun _ => True) (copyuvm d sz m) := by
  refine setupkvm_count.bind fun o m₁ h₁ => ?_
  cases o with
  | none => exact ends_ok.2 h₁
  | some d' =>
    refine copyLoop_count.post fun o m₂ h₂ pg => ?_
    rw [h₂]
    exact h₁ pg

/-! ### `growproc` and `exec` -/

theorem growproc_count : Ends (fun x m' => ∀ pg, x.1.count pg + m'.count pg =
    d.count pg + m.count pg) (fun _ => True) (growproc d sz n m) := by
  unfold growproc
  split_ifs
  · exact allocuvm_count.bind fun x m' hx => ends_ok.2 hx
  · exact deallocuvm_count.bind fun x m' hx => ends_ok.2 hx
  · exact ends_ok.2 fun _ => rfl

theorem loadLoop_kmem {addr i : ℕ} {loaded : ℕ → Bool} :
    Ends (fun _ m' => m' = m) (fun _ => True) (loadLoop d addr sz loaded fuel i m) := by
  induction fuel generalizing i with
  | zero => exact ends_ok.2 rfl
  | succ fuel ih =>
    unfold loadLoop
    by_cases hi : i < sz
    · rw [if_pos hi]
      refine walkpgdir_look_table.bind ?_
      rintro x m' ⟨_, hm, _⟩
      subst hm
      obtain ⟨_, o⟩ := x
      cases o with
      | none => exact ends_error.2 trivial
      | some l =>
        dsimp only
        split_ifs
        · exact ih
        · exact ends_ok.2 rfl
    · rw [if_neg hi]
      exact ends_ok.2 rfl

theorem loaduvm_kmem {addr : ℕ} {loaded : ℕ → Bool} :
    Ends (fun _ m' => m' = m) (fun _ => True) (loaduvm d addr sz loaded m) := by
  unfold loaduvm
  split_ifs
  · exact ends_error.2 trivial
  · exact loadLoop_kmem

theorem loadSegments_count {segments : List Segment} : Ends (fun x m' => ∀ pg,
    x.1.count pg + m'.count pg = d.count pg + m.count pg) (fun _ => True)
    (loadSegments d sz segments m) := by
  induction segments generalizing d sz m with
  | nil => exact ends_ok.2 fun _ => rfl
  | cons seg rest ih =>
    unfold loadSegments
    cases seg.hdr with
    | none => exact ends_ok.2 fun _ => rfl
    | some ph =>
      by_cases hload : ph.load = false
      · simp only [if_pos hload]
        exact ih
      · by_cases hbad : ph.memsz < ph.filesz ∨ (ph.vaddr + ph.memsz) % UINT < ph.vaddr
        · obtain hsmall | hwrap := hbad
          · simp only [if_neg hload, if_pos hsmall]
            exact ends_ok.2 fun _ => rfl
          · simp only [if_neg hload, if_pos hwrap, ite_self]
            exact ends_ok.2 fun _ => rfl
        · obtain ⟨hsmall, hwrap⟩ := not_or.1 hbad
          simp only [if_neg hload, if_neg hsmall, if_neg hwrap]
          refine allocuvm_count.bind fun x m₁ h₁ => ?_
          obtain ⟨d', sz'⟩ := x
          dsimp only at h₁ ⊢
          split_ifs
          · exact ends_ok.2 h₁
          · exact ends_ok.2 h₁
          · refine loaduvm_kmem.bind fun b m₂ h₂ => ?_
            subst h₂
            cases b with
            | true => exact ih.post fun x m₃ h₃ pg => (h₃ pg).trans (h₁ pg)
            | false => exact ends_ok.2 h₁

theorem clearpteu_count {uva : ℕ} : Ends (fun x m' => m' = m ∧ ∀ pg, x.count pg = d.count pg)
    (fun _ => True) (clearpteu d uva m) := by
  refine walkpgdir_look_table.bind fun x m' ⟨_, hm, hl⟩ => ?_
  subst hm
  obtain ⟨_, o⟩ := x
  cases o with
  | none => exact ends_error.2 trivial
  | some l =>
    refine ends_ok.2 ⟨rfl, fun pg => ?_⟩
    have hmem : ((d.entry l).map fun pte => { pte with user := false }).map Pte.mem =
        (d.entry l).map Pte.mem := by
      rw [Option.map_map]
      rfl
    rw [PageDir.count_setEntry (hl l rfl), hmem, sub_add_cancel]

/-- `exec` gives back the old address space or the one it was making. -/
theorem exec_count {prog : Program} : Ends (fun o m' => ∀ pg,
    (o.elim d Prod.fst).count pg + m'.count pg = d.count pg + m.count pg) (fun _ => True)
    (exec d prog m) := by
  unfold exec
  cases prog.segments with
  | none => exact ends_ok.2 fun _ => rfl
  | some segments =>
    refine setupkvm_count.bind fun o m₁ h₁ => ?_
    cases o with
    | none =>
      refine ends_ok.2 fun pg => ?_
      have hpg := h₁ pg
      change 0 + _ = _ at hpg
      show d.count pg + m₁.count pg = _
      omega
    | some d₁ =>
      have hfree : ∀ {d₂ : PageDir} {m₂ : Kmem}, (∀ pg, d₂.count pg + m₂.count pg =
          m.count pg) → Ends (fun (o : Option (PageDir × ℕ)) m' => ∀ pg,
            (o.elim d Prod.fst).count pg + m'.count pg = d.count pg + m.count pg) (fun _ => True)
          ((do
            freevm d₂
            return none) m₂) := by
        intro d₂ m₂ h₂
        refine freevm_count.bind fun _ m₃ h₃ => ends_ok.2 fun pg => ?_
        show d.count pg + m₃.count pg = _
        rw [h₃, ← h₂]
        omega
      refine loadSegments_count.bind fun x m₂ h₂ => ?_
      obtain ⟨d₂, o⟩ := x
      have hmade : ∀ pg, d₂.count pg + m₂.count pg = m.count pg := fun pg => (h₂ pg).trans (h₁ pg)
      cases o with
      | none => exact hfree hmade
      | some sz =>
        refine allocuvm_count.bind fun x m₃ h₃ => ?_
        obtain ⟨d₃, sz'⟩ := x
        have hmade' : ∀ pg, d₃.count pg + m₃.count pg = m.count pg := fun pg =>
          (h₃ pg).trans (hmade pg)
        dsimp only
        by_cases hz : sz' = 0
        · rw [if_pos hz]
          exact hfree hmade'
        · rw [if_neg hz]
          refine clearpteu_count.bind fun d₄ m₄ ⟨hm, h₄⟩ => ?_
          subst hm
          have hmade'' : ∀ pg, d₄.count pg + m₄.count pg = m.count pg := fun pg => by
            rw [h₄]
            exact hmade' pg
          split_ifs
          · refine freevm_count.bind fun _ m₅ h₅ => ends_ok.2 fun pg => ?_
            show d₄.count pg + m₅.count pg = _
            rw [h₅, ← hmade'']
            omega
          · exact hfree hmade''

end Xv6Container.Memory
