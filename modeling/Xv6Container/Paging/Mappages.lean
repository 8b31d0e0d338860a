import Xv6Container.Paging.Walk

/-! `mappages` maps a range of pages one after the other. Each pass enters one word, so what has been
entered after some passes is the beginning of the range, and only the pass that meets the last page
ends the loop. -/

namespace Xv6Container.Paging

open Lib
open Memory (PGSIZE KERNBASE PHYSTOP DEVSPACE UINT NPTENTRIES V2P PGROUNDUP)
open Memory.Copyout (PTE_P PTE_U flag PTE_ADDR P2V PDX PTX memmove)

variable {pgdir t n lo a pa perm size va count fuel : ℕ} {s s' : Kmem} {used : List ℕ}

/-- The words of the `count` pages from page `lo` on, with the pages of physical memory from `pa`. -/
def mapped (lo count pa perm n : ℕ) : Option ℕ :=
  if lo ≤ n ∧ n < lo + count then some ((pa + (n - lo) * PGSIZE) % UINT ||| perm ||| PTE_P) else none

theorem mapped_zero (lo pa perm n : ℕ) : mapped lo 0 pa perm n = none := if_neg (by omega)

theorem aligned_mod (hpa : pa % PGSIZE = 0) (i : ℕ) :
    (pa + i * PGSIZE) % UINT % PGSIZE = 0 ∧ (pa + i * PGSIZE) % UINT < UINT := by
  dsimp only [PGSIZE, UINT] at *
  omega

/-- The word that is entered for one page. -/
theorem mapped_one (hpa : pa < UINT) (n perm : ℕ) :
    mapped n 1 pa perm = fun n' => if n' = n then some (pa ||| perm ||| PTE_P) else none := by
  funext n'
  unfold mapped
  by_cases heq : n' = n
  · subst heq
    rw [if_pos (by omega), if_pos rfl, Nat.sub_self, Nat.zero_mul, Nat.add_zero,
      Nat.mod_eq_of_lt hpa]
  · rw [if_neg (by omega), if_neg heq]

/-- The pages of the range after the first. -/
theorem mapped_succ (lo count pa perm n : ℕ) :
    (mapped (lo + 1) count ((pa + PGSIZE) % UINT) perm n).or
      (if n = lo then some (pa % UINT ||| perm ||| PTE_P) else none) =
      mapped lo (count + 1) pa perm n := by
  unfold mapped
  by_cases heq : n = lo
  · subst heq
    rw [if_neg (by omega), if_pos rfl, if_pos (by omega), Nat.sub_self, Nat.zero_mul, Nat.add_zero,
      Option.none_or]
  · rw [if_neg heq, Option.or_none]
    by_cases hin : lo + 1 ≤ n ∧ n < lo + 1 + count
    · have hsum : ((pa + PGSIZE) % UINT + (n - (lo + 1)) * PGSIZE) % UINT =
          (pa + (n - lo) * PGSIZE) % UINT := by
        dsimp only [PGSIZE, UINT]
        omega
      rw [if_pos hin, if_pos (by omega), hsum]
    · rw [if_neg hin, if_neg (by omega)]

theorem mapped_present {x : ℕ} (hx : mapped lo count pa perm n = some x) : flag x PTE_P = true := by
  unfold mapped at hx
  split_ifs at hx
  rw [← Option.some.inj hx]
  exact present_entry _ _

/-- What `mappages` leaves: the range from page `lo` on is mapped as far as memory lasted. -/
structure Maps (pgdir lo count pa perm : ℕ) (s : Kmem) (ok : Bool) (s' : Kmem) : Prop where
  entered : ∃ used i, i ≤ count ∧ (ok = true → i = count) ∧
    (ok = false → i < count ∧ s'.freelist = []) ∧ Entered pgdir s s' [] used (mapped lo i pa perm)

/-- One pass. -/
theorem store_maps (hs : Apart s pgdir) (hn : n < NPAGES) (hpa : pa % PGSIZE = 0) (hpa' : pa < UINT)
    (hperm : perm < PGSIZE) (ht : table s.mem pgdir (n / NPTENTRIES) = some t) :
    Entered pgdir s { s with mem := setWord s.mem (t + 4 * (n % NPTENTRIES)) (pa ||| perm ||| PTE_P) }
      [] [] (mapped n 1 pa perm) := by
  rw [mapped_one hpa']
  exact entered_store hs.directory hn ht (entry_lt hpa hpa' hperm) (present_entry pa perm)

/-- The loop, with the pages that are left. -/
theorem mapLoop_maps (hs : Apart s pgdir) (hcount : 0 < count) (hlast : lo + count ≤ NPAGES)
    (hpa : pa % PGSIZE = 0) (hpa' : pa < UINT) (hperm : perm < PGSIZE) (hfuel : count ≤ fuel)
    (habsent : ∀ n, lo ≤ n → n < lo + count → mapping s.mem pgdir n = none) :
    Ends (Maps pgdir lo count pa perm s) (fun _ => False)
      (mapLoop pgdir ((lo + count - 1) * PGSIZE) perm fuel (lo * PGSIZE) pa s) := by
  induction count generalizing lo pa fuel s with
  | zero => omega
  | succ count ih =>
    obtain ⟨fuel, rfl⟩ : ∃ f, fuel = f + 1 := ⟨fuel - 1, by omega⟩
    have hlo : lo < NPAGES := by omega
    rw [mapLoop]
    refine (walk_alloc hs hlo).bind fun r s₁ h => ?_
    obtain ⟨rfl, rfl, hnone⟩ | ⟨t, used, rfl, ht, hentered⟩ := h
    · -- no memory for a page table
      refine ends_ok.2 ⟨[], 0, by omega, by rintro ⟨⟩, fun _ => ⟨by omega, hnone⟩, ?_⟩
      exact (Entered.refl pgdir s₁).congr (fun n _ => mapped_zero lo pa perm n) fun n x => mapped_present
    · dsimp only
      have hs₁ := hentered.apart hs
      have hword : flag (word s₁.mem (t + 4 * (lo % NPTENTRIES))) PTE_P = false := by
        have hmap := hentered.mapping_eq hlo rfl
        rw [habsent lo (by omega) (by omega), mapping, pte_of_table ht, Option.filter_eq_none_iff] at hmap
        simpa using hmap
      rw [run_load_bind, if_neg (by rw [hword]; decide), run_store_bind]
      have hstore := store_maps hs₁ hlo hpa hpa' hperm ht
      have hone : Entered pgdir s _ [] (used ++ []) (mapped lo 1 pa perm) :=
        (hentered.trans hstore).congr (fun n _ => by rw [Option.or_none]) fun n x => mapped_present
      rw [List.append_nil] at hone
      by_cases hend : count = 0
      · subst hend
        rw [if_pos (by rw [Nat.zero_add, Nat.add_sub_cancel])]
        exact ends_ok.2 ⟨used, 1, le_refl _, fun _ => rfl, by rintro ⟨⟩, hone⟩
      · have hne : lo * PGSIZE ≠ (lo + (count + 1) - 1) * PGSIZE := by
          dsimp only [PGSIZE]
          omega
        have hnext : (lo * PGSIZE + PGSIZE) % UINT = (lo + 1) * PGSIZE := by
          dsimp only [PGSIZE, UINT, NPAGES] at *
          omega
        have hbound : (lo + (count + 1) - 1) = (lo + 1 + count - 1) := by omega
        obtain ⟨halign, hlt⟩ := aligned_mod hpa 1
        rw [Nat.one_mul] at halign hlt
        rw [if_neg hne, hnext, hbound]
        refine (ih (hone.apart hs) (by omega) (by omega) halign hlt (by omega) fun n h1 h2 => ?_).post
          fun ok s₂ h => ?_
        · rw [hone.mapping_eq (by omega) (if_neg (by omega))]
          exact habsent n (by omega) (by omega)
        · obtain ⟨used', i, hi, htrue, hfalse, hrest⟩ := h
          refine ⟨used ++ used', i + 1, by omega, fun hok => by rw [htrue hok],
            fun hok => ⟨by have := (hfalse hok).1; omega, (hfalse hok).2⟩, ?_⟩
          refine (hone.trans hrest).congr (fun n _ => ?_) fun n x => mapped_present
          rw [← mapped_succ lo i pa perm n, mapped_one hpa', Nat.mod_eq_of_lt hpa']

/-- The number of pages that a range meets. -/
def pageCount (va size : ℕ) : ℕ := (va + size - 1) / PGSIZE + 1 - va / PGSIZE

theorem mappages_maps (hs : Apart s pgdir) (hsize : 1 ≤ size) (hrange : va + size ≤ UINT)
    (hpa : pa % PGSIZE = 0) (hpa' : pa < UINT) (hperm : perm < PGSIZE)
    (habsent : ∀ n, va / PGSIZE ≤ n → n < va / PGSIZE + pageCount va size →
      mapping s.mem pgdir n = none) :
    Ends (Maps pgdir (va / PGSIZE) (pageCount va size) pa perm s) (fun _ => False)
      (mappages pgdir va size pa perm s) := by
  have hlast : PGROUNDDOWN ((va + size + (UINT - 1)) % UINT) =
      (va / PGSIZE + pageCount va size - 1) * PGSIZE := by
    unfold PGROUNDDOWN pageCount
    dsimp only [PGSIZE, UINT] at *
    omega
  rw [mappages, hlast]
  refine mapLoop_maps hs ?_ ?_ hpa hpa' hperm ?_ habsent <;>
  · unfold pageCount
    dsimp only [PGSIZE, UINT, NPAGES] at *
    omega

/-- One page. -/
theorem mappages_page (hs : Apart s pgdir) (hn : n < NPAGES) (hpa : pa % PGSIZE = 0) (hpa' : pa < UINT)
    (hperm : perm < PGSIZE) (habsent : mapping s.mem pgdir n = none) :
    Ends (fun ok s' => ∃ used, (ok = false → s'.freelist = []) ∧
        Entered pgdir s s' [] used fun n' =>
          if n' = n ∧ ok = true then some (pa ||| perm ||| PTE_P) else none)
      (fun _ => False) (mappages pgdir (n * PGSIZE) PGSIZE pa perm s) := by
  have hpage : n * PGSIZE / PGSIZE = n := Nat.mul_div_cancel _ (by decide)
  have hcount : pageCount (n * PGSIZE) PGSIZE = 1 := by
    unfold pageCount
    dsimp only [PGSIZE]
    omega
  refine (mappages_maps hs (by decide) ?_ hpa hpa' hperm fun n' h1 h2 => ?_).post fun ok s' h => ?_
  · dsimp only [PGSIZE, UINT, NPAGES] at *
    omega
  · rw [hpage] at h1 h2
    rw [hcount] at h2
    obtain rfl : n' = n := by omega
    exact habsent
  · obtain ⟨used, i, hi, htrue, hfalse, hentered⟩ := h
    rw [hpage] at hentered
    rw [hcount] at hi htrue hfalse
    refine ⟨used, fun hok => (hfalse hok).2, hentered.congr (fun n' _ => ?_) fun n' x hx => ?_⟩
    · cases ok with
      | true =>
        rw [htrue rfl, mapped_one hpa']
        simp
      | false =>
        obtain rfl : i = 0 := by
          have := (hfalse rfl).1
          omega
        rw [mapped_zero]
        simp
    · split_ifs at hx
      rw [← Option.some.inj hx]
      exact present_entry pa perm

/-! ### The translation of addresses -/

/-- Physical address and flags of a virtual address. -/
def translate (m : ℕ → UInt8) (pgdir v : ℕ) : Option (ℕ × ℕ) :=
  (mapping m pgdir (v / PGSIZE)).map fun w => (PTE_ADDR w + v % PGSIZE, PTE_FLAGS w)

/-- The addresses from `va` to `top` have been mapped to those from `pa` on, and no others have
changed. -/
structure Translated (pgdir va top pa perm : ℕ) (s s' : Kmem) : Prop where
  range : ∀ v, PGROUNDDOWN va ≤ v → v < top → translate s'.mem pgdir v =
    some ((pa + (PGROUNDDOWN v - PGROUNDDOWN va)) % UINT + v % PGSIZE, perm ||| PTE_P)
  others : ∀ v < UINT, ¬ (PGROUNDDOWN va ≤ v ∧ v < top) →
    translate s'.mem pgdir v = translate s.mem pgdir v

theorem translate_mapped (hpa : pa % PGSIZE = 0) (hperm : perm < PGSIZE) (v : ℕ)
    (h : mapping s.mem pgdir (v / PGSIZE) = some (pa ||| perm ||| PTE_P)) :
    translate s.mem pgdir v = some (pa + v % PGSIZE, perm ||| PTE_P) := by
  rw [translate, h, Option.map_some, addr_entry hpa hperm, PTE_FLAGS, mod_entry hpa hperm]

theorem Entered.translated {i : ℕ} (h : Entered pgdir s s' [] used (mapped (va / PGSIZE) i pa perm))
    (hpa : pa % PGSIZE = 0) (hperm : perm < PGSIZE) (htop : va / PGSIZE + i ≤ NPAGES) :
    Translated pgdir va ((va / PGSIZE + i) * PGSIZE) pa perm s s' := by
  have hin : ∀ v, PGROUNDDOWN va ≤ v ∧ v < (va / PGSIZE + i) * PGSIZE ↔
      va / PGSIZE ≤ v / PGSIZE ∧ v / PGSIZE < va / PGSIZE + i := by
    intro v
    unfold PGROUNDDOWN
    dsimp only [PGSIZE]
    omega
  constructor
  · intro v h1 h2
    have hv := (hin v).1 ⟨h1, h2⟩
    have hw : mapped (va / PGSIZE) i pa perm (v / PGSIZE) =
        some ((pa + (v / PGSIZE - va / PGSIZE) * PGSIZE) % UINT ||| perm ||| PTE_P) := if_pos hv
    obtain ⟨halign, -⟩ := aligned_mod hpa (v / PGSIZE - va / PGSIZE)
    have hdist : PGROUNDDOWN v - PGROUNDDOWN va = (v / PGSIZE - va / PGSIZE) * PGSIZE := by
      rw [PGROUNDDOWN, PGROUNDDOWN, Nat.sub_mul]
    rw [hdist]
    refine translate_mapped halign hperm v ?_
    exact h.mapping_set (by omega) hw
  · intro v hv hout
    have hpage : v / PGSIZE < NPAGES := by
      dsimp only [PGSIZE, UINT, NPAGES] at *
      omega
    rw [translate, translate, h.mapping_eq hpage (if_neg fun hmem => hout ((hin v).2 hmem))]

/-- `mappages` returns. If it succeeds, all pages of the range have been mapped; if memory is
exhausted, those before some page of it; the translation of every other address is what it was. -/
theorem mappages_translates (hs : Apart s pgdir) (hsize : 1 ≤ size) (hrange : va + size ≤ UINT)
    (hpa : pa % PGSIZE = 0) (hpa' : pa < UINT) (hperm : perm < PGSIZE)
    (habsent : ∀ v, PGROUNDDOWN va ≤ v → v < va + size → translate s.mem pgdir v = none) :
    ∃ ok s' top, mappages pgdir va size pa perm s = .ok ok s' ∧ Apart s' pgdir ∧
      Translated pgdir va top pa perm s s' ∧ top ≤ PGROUNDDOWN (va + size - 1) + PGSIZE ∧
      (ok = true → top = PGROUNDDOWN (va + size - 1) + PGSIZE) ∧
      (ok = false → top ≤ PGROUNDDOWN (va + size - 1) ∧ s'.freelist = []) := by
  have hends := mappages_maps hs hsize hrange hpa hpa' hperm fun n h1 h2 => by
    have hnone := habsent (n * PGSIZE) ?_ ?_
    · rwa [translate, Nat.mul_div_cancel _ (by decide), Option.map_eq_none_iff] at hnone
    · exact Nat.mul_le_mul_right _ h1
    · unfold pageCount at h2
      dsimp only [PGSIZE] at *
      omega
  obtain ⟨ok, s', hrun, used, i, hi, htrue, hfalse, hentered⟩ := hends.returns
  refine ⟨ok, s', _, hrun, hentered.apart hs, hentered.translated hpa hperm ?_, ?_, fun hok => ?_,
    fun hok => ⟨?_, (hfalse hok).2⟩⟩
  · unfold pageCount at hi
    dsimp only [PGSIZE, UINT, NPAGES] at *
    omega
  · unfold pageCount at hi
    unfold PGROUNDDOWN
    dsimp only [PGSIZE] at *
    omega
  · rw [htrue hok]
    unfold pageCount PGROUNDDOWN
    dsimp only [PGSIZE] at *
    omega
  · have hlt := (hfalse hok).1
    unfold pageCount at hlt
    unfold PGROUNDDOWN
    dsimp only [PGSIZE] at *
    omega

/-- A page directory without page tables, in a memory of zeros, with three free pages. -/
def emptyDir : Kmem := ⟨[0x80401000, 0x80402000, 0x80403000], fun _ => 0⟩

theorem table_zero (pgdir i : ℕ) : table (fun _ => 0) pgdir i = none := by
  have hword : word (fun _ => 0) (pgdir + 4 * i) = 0 := rfl
  dsimp only [table]
  rw [hword, if_neg (by decide)]

theorem mapping_zero (pgdir n : ℕ) : mapping (fun _ => 0) pgdir n = none := by
  rw [mapping, pte_of_none (table_zero _ _)]
  rfl

theorem tables_zero (pgdir : ℕ) : tables (fun _ => 0) pgdir = [] := by
  rw [tables, List.filterMap_eq_nil_iff]
  exact fun i _ => table_zero pgdir i

theorem apart_emptyDir : Apart emptyDir 0x80400000 where
  dir := by decide
  free := by decide
  nodup := by
    rw [emptyDir, tables_zero]
    decide

/-- The last two pages of the address space. -/
theorem mappages_translates_top : ∃ ok s' top,
    mappages 0x80400000 0xFFFFE123 0x1EDD 0x1000 PTE_W emptyDir = .ok ok s' ∧
      Translated 0x80400000 0xFFFFE123 top 0x1000 PTE_W emptyDir s' := by
  obtain ⟨ok, s', top, hrun, -, htranslated, -⟩ :=
    @mappages_translates _ 0x1000 PTE_W 0x1EDD 0xFFFFE123 _ apart_emptyDir (by decide) (by decide)
      (by decide : 0x1000 % PGSIZE = 0) (by decide) (by decide : PTE_W < PGSIZE)
      fun v _ _ => by rw [translate, emptyDir, mapping_zero]; rfl
  exact ⟨ok, s', top, hrun, htranslated⟩

end Xv6Container.Paging
