import Xv6Container.Paging.Alloc

/-! An address space and the pages it is made of. The free pages and the pages of the address space
together are the same all the time, whatever is mapped; `freevm` turns all of them into free pages. -/

namespace Xv6Container.Paging

open Lib
open Memory (PGSIZE KERNBASE PHYSTOP DEVSPACE UINT NPTENTRIES V2P PGROUNDUP)
open Memory.Copyout (PTE_P PTE_U flag PTE_ADDR P2V PDX PTX memmove)

variable {m' : ℕ → UInt8} {pgdir i n lo hi p x : ℕ} {s s' s'' : Kmem} {k : Kernel}
  {used next L : List ℕ} {w : ℕ → Option ℕ}

/-- The pages `L` are the user pages of an address space, the free pages, and those of its page
tables. -/
structure Owns (k : Kernel) (s : Kmem) (pgdir : ℕ) (L : List ℕ) : Prop where
  perm : (users s.mem pgdir 0 NUPAGES ++ (s.freelist ++ pgdir :: tables s.mem pgdir)).Perm L
  nodup : L.Nodup
  valid : ∀ p ∈ L, Valid k p

namespace Owns

theorem parts (h : Owns k s pgdir L) :
    (users s.mem pgdir 0 NUPAGES ++ (s.freelist ++ pgdir :: tables s.mem pgdir)).Nodup :=
  h.perm.nodup_iff.2 h.nodup

theorem user_mem (h : Owns k s pgdir L) (hp : p ∈ users s.mem pgdir 0 NUPAGES) : p ∈ L :=
  h.perm.mem_iff.1 (List.mem_append_left _ hp)

theorem rest_mem (h : Owns k s pgdir L) (hp : p ∈ s.freelist ++ pgdir :: tables s.mem pgdir) : p ∈ L :=
  h.perm.mem_iff.1 (List.mem_append_right _ hp)

theorem free_mem (h : Owns k s pgdir L) (hp : p ∈ s.freelist) : p ∈ L :=
  h.rest_mem (List.mem_append_left _ hp)

theorem dir_mem (h : Owns k s pgdir L) : pgdir ∈ L :=
  h.rest_mem (List.mem_append_right _ List.mem_cons_self)

theorem apart (h : Owns k s pgdir L) : Apart s pgdir where
  dir := (h.valid _ h.dir_mem).page
  free _ hp := (h.valid _ (h.free_mem hp)).page
  nodup := (List.nodup_append.1 h.parts).2.1

theorem user_notMem (h : Owns k s pgdir L) (hp : p ∈ users s.mem pgdir 0 NUPAGES) :
    p ∉ s.freelist ++ pgdir :: tables s.mem pgdir := fun hmem =>
  (List.nodup_append.1 h.parts).2.2 p hp p hmem rfl

theorem freeable (h : Owns k s pgdir L) : Freeable k s.mem pgdir (users s.mem pgdir 0 NUPAGES) :=
  fun p hp => ⟨h.valid p (h.user_mem hp), fun hmem => h.user_notMem hp (List.mem_append_right _ hmem)⟩

/-- Page tables or kernel pages have been entered. -/
theorem entered (h : Owns k s pgdir L) (he : Entered pgdir s s' [] used w)
    (hw : ∀ n < NUPAGES, w n = none) : Owns k s' pgdir L := by
  refine ⟨.trans ?_ h.perm, h.nodup, h.valid⟩
  rw [he.users_eq (by decide) fun n _ hn => hw n hn]
  exact he.perm.symm.append_left _

/-- A user page has been taken and mapped. -/
theorem put (h : Owns k s pgdir L) (he : Entered pgdir s s' [p] used w) (hn : n < NUPAGES)
    (hw : w n = some x) (hp : P2V (PTE_ADDR x) = p) (hother : ∀ n' < NUPAGES, n' ≠ n → w n' = none)
    (habsent : mapping s.mem pgdir n = none) : Owns k s' pgdir L := by
  have husers := he.users_put (Nat.zero_le n) hn (by decide) hw (fun n' _ h2 => hother n' h2) habsent
  have hperm := he.perm.append_left (users s.mem pgdir 0 NUPAGES)
  refine ⟨.trans ?_ (hperm.symm.trans h.perm), h.nodup, h.valid⟩
  rw [hp] at husers
  exact (husers.append_right _).trans List.perm_middle.symm

/-- The page tables are all that counts. -/
theorem frame (h : Owns k s pgdir L) {P : List ℕ} (hframe : Frame P s.mem s'.mem)
    (hP : ∀ p ∈ pgdir :: tables s.mem pgdir, p ∉ P) (hfree : s'.freelist = s.freelist) :
    Owns k s' pgdir L := by
  obtain ⟨htable, hpte⟩ := hframe.tables_eq h.apart.dir hP
  have husers : users s'.mem pgdir 0 NUPAGES = users s.mem pgdir 0 NUPAGES :=
    users_congr fun n _ hn => mapping_congr (hpte n (hn.trans (by decide)))
  refine ⟨?_, h.nodup, h.valid⟩
  rw [husers, hfree, tables_congr htable]
  exact h.perm

end Owns

/-! ### `freevm` -/

theorem freeTable_some (hp : Valid k p) (h : table s.mem pgdir i = some p) :
    freeTable k pgdir i s = .ok () ⟨p :: s.freelist, fill s.mem p 1 PGSIZE⟩ := by
  dsimp only [table] at h
  split_ifs at h with hflag
  rw [freeTable, run_load_bind, if_pos hflag, Option.some.inj h, kfree_valid hp]

theorem freeTable_none (h : table s.mem pgdir i = none) : freeTable k pgdir i s = .ok () s := by
  dsimp only [table] at h
  split_ifs at h with hflag
  rw [freeTable, run_load_bind, if_neg hflag]
  rfl

/-- The loop of `freevm` over the page tables. -/
theorem freeTables_frees (hd : Directory s.mem pgdir) (hvalid : ∀ t ∈ tables s.mem pgdir, Valid k t) :
    Ends (fun _ s' => s'.freelist = (tables s.mem pgdir).reverse ++ s.freelist ∧
        Frame (tables s.mem pgdir) s.mem s'.mem)
      (fun _ => False) ((List.range NPTENTRIES).forM (freeTable k pgdir) s) := by
  have hdir : pgdir ∉ tables s.mem pgdir := (List.nodup_cons.1 hd.nodup).1
  have htables : tables s.mem pgdir = (List.range NPTENTRIES).filterMap (table s.mem pgdir) := by
    unfold tables dirSlots
    rfl
  have hloop := Ends.forM (S := fun _ => False) (f := freeTable k pgdir)
    (I := fun i (s' : Kmem) =>
      s'.freelist = ((List.range i).filterMap (table s.mem pgdir)).reverse ++ s.freelist ∧
        Frame (tables s.mem pgdir) s.mem s'.mem)
    (List.range NPTENTRIES) (s := s) ⟨rfl, .refl _ _⟩ fun i hi s' h => by
      obtain ⟨hfree, hframe⟩ := h
      rw [List.length_range] at hi
      rw [List.getElem_range, List.range_succ, List.filterMap_append]
      have htable : table s'.mem pgdir i = table s.mem pgdir i :=
        table_congr (hframe.word hd.dir hdir hi)
      cases ht : table s.mem pgdir i with
      | none =>
        rw [freeTable_none (htable.trans ht), List.filterMap_cons_none ht, List.filterMap_nil,
          List.append_nil]
        exact ends_ok.2 ⟨hfree, hframe⟩
      | some t =>
        have hmem := mem_tables hi ht
        rw [freeTable_some (hvalid t hmem) (htable.trans ht), List.filterMap_cons_some ht,
          List.filterMap_nil, List.reverse_append, List.append_assoc, ← hfree]
        refine ends_ok.2 ⟨rfl, hframe.trans ((Frame.of_fill (hvalid t hmem).page 1).mono ?_)⟩
        intro q hq
        rwa [List.mem_singleton.1 hq]
  rw [List.length_range, ← htables] at hloop
  exact hloop

/-- `freevm` makes free pages of all pages of the address space. -/
theorem freevm_frees (h : Owns k s pgdir L) :
    ∃ s', freevm k pgdir s = .ok () s' ∧ s'.freelist.Perm L ∧ Frame L s.mem s'.mem := by
  have hdirValid := h.valid _ h.dir_mem
  have hne : pgdir ≠ 0 := by
    have hrange := hdirValid.range.1
    rintro rfl
    exact absurd hrange (by decide)
  obtain ⟨s₁, hvisit, hfreed⟩ := visitPages_freed h.apart.directory (by decide) h.freeable
  have htables := tables_congr hfreed.table
  have htable_mem : ∀ t ∈ tables s.mem pgdir, t ∈ L := fun t ht =>
    h.rest_mem (List.mem_append_right _ (List.mem_cons_of_mem _ ht))
  have hd₁ : Directory s₁.mem pgdir := by
    refine ⟨hdirValid.page, ?_⟩
    rw [htables]
    exact h.apart.directory.nodup
  have hvalid₁ : ∀ t ∈ tables s₁.mem pgdir, Valid k t := by
    intro t ht
    rw [htables] at ht
    exact h.valid t (htable_mem t ht)
  obtain ⟨⟨⟩, s₂, hloop, hfree₂, hframe₂⟩ := (freeTables_frees hd₁ hvalid₁).returns
  refine ⟨⟨pgdir :: s₂.freelist, fill s₂.mem pgdir 1 PGSIZE⟩, ?_, ?_, ?_⟩
  · have hsize : sizePages 0 = 0 ∧ sizePages KERNBASE = NUPAGES := by decide
    have hdealloc : deallocuvm k pgdir KERNBASE 0 s = .ok 0 s₁ := by
      rw [deallocuvm_eq (by decide) (le_refl _), hsize.1, hsize.2, run_bind_ok hvisit]
      rfl
    rw [freevm, if_neg hne, run_bind_ok hdealloc, run_bind_ok hloop, kfree_valid hdirValid]
  · refine .trans ?_ h.perm
    rw [hfree₂, htables, hfreed.free]
    refine List.perm_iff_count.2 fun a => ?_
    simp only [List.count_cons, List.count_append, List.count_reverse]
    omega
  · rw [htables] at hframe₂
    refine (hfreed.frame.mono fun p hp => ?_).trans ((hframe₂.mono htable_mem).trans
      ((Frame.of_fill hdirValid.page 1).mono fun p hp => ?_))
    · obtain hp | hp := List.mem_append.1 hp
      · exact h.user_mem hp
      · exact htable_mem p hp
    · rw [List.mem_singleton.1 hp]
      exact h.dir_mem

/-! ### `setupkvm` -/

namespace Kmap

/-- The size that the loop of `setupkvm` computes. -/
def size (m : Kmap) : ℕ := (m.phys_end + (UINT - m.phys_start)) % UINT

/-- The first page of the range, and the one after it. -/
def first (m : Kmap) : ℕ := m.virt / PGSIZE
def top (m : Kmap) : ℕ := (m.virt + m.size) / PGSIZE

/-- A range of whole pages in the kernel part that the user may not reach. -/
structure Fits (m : Kmap) : Prop where
  virt : m.virt % PGSIZE = 0
  phys : m.phys_start % PGSIZE = 0 ∧ m.phys_start < UINT
  range : 1 ≤ m.size ∧ m.size % PGSIZE = 0 ∧ m.virt + m.size ≤ UINT
  kernel : NUPAGES ≤ m.first
  perm : m.perm < PGSIZE ∧ flag m.perm PTE_U = false

theorem Fits.pageCount_eq {m : Kmap} (h : m.Fits) : m.first + pageCount m.virt m.size = m.top := by
  have h1 := h.virt
  have h2 := h.range
  unfold first top pageCount
  dsimp only [PGSIZE] at *
  omega

end Kmap

/-- The ranges lie one behind the other. -/
theorem kmap_fits (h : k.data < KERNBASE + PHYSTOP) :
    (∀ m ∈ kmap k, m.Fits) ∧ (kmap k).Pairwise fun m m' => m.top ≤ m'.first := by
  have haligned := k.data_aligned
  have htext := k.text_lt
  dsimp only [KERNBASE, KERNLINK, EXTMEM, PHYSTOP, PGSIZE] at h haligned htext
  have hmem : ∀ m ∈ kmap k, m.Fits := by
    intro m hm
    simp only [kmap, List.mem_cons, List.not_mem_nil, or_false] at hm
    obtain rfl | rfl | rfl | rfl := hm <;>
    · constructor <;>
        simp only [Kmap.first, Kmap.size, V2P, PGSIZE, UINT, KERNBASE, KERNLINK, EXTMEM, PHYSTOP,
          DEVSPACE, NUPAGES, flag] <;>
        first | decide | omega
  refine ⟨hmem, ?_⟩
  simp only [kmap, List.pairwise_cons, List.mem_cons, List.not_mem_nil, or_false, forall_eq_or_imp,
    forall_eq, false_imp_iff, implies_true, List.Pairwise.nil, and_true, Kmap.top, Kmap.first, Kmap.size,
    V2P, PGSIZE, UINT, KERNBASE, KERNLINK, EXTMEM, PHYSTOP, DEVSPACE]
  omega

theorem mapped_eq_some {lo count pa perm : ℕ} (h : mapped lo count pa perm n = some x) :
    (lo ≤ n ∧ n < lo + count) ∧ x = ((pa + (n - lo) * PGSIZE) % UINT ||| perm ||| PTE_P) := by
  unfold mapped at h
  split_ifs at h with hin
  exact ⟨hin, (Option.some.inj h).symm⟩

theorem mapped_user {lo count pa perm : ℕ} (hpa : pa % PGSIZE = 0)
    (h : mapped lo count pa perm n = some x) : flag x PTE_U = flag perm PTE_U := by
  rw [(mapped_eq_some h).2, user_entry (aligned_mod hpa _).1]

/-- Words of the kernel part. -/
def KernelWords (w : ℕ → Option ℕ) : Prop := ∀ n x, w n = some x → NUPAGES ≤ n ∧ flag x PTE_U = false

theorem KernelWords.mapped {m : Kmap} (h : m.Fits) (count : ℕ) :
    KernelWords (mapped m.first count m.phys_start m.perm) := by
  intro n x hx
  refine ⟨h.kernel.trans (mapped_eq_some hx).1.1, ?_⟩
  rw [mapped_user h.phys.1 hx]
  exact h.perm.2

theorem KernelWords.none (h : KernelWords w) (hn : n < NUPAGES) : w n = none :=
  Option.eq_none_iff_forall_ne_some.2 fun x hx => Nat.not_lt.2 (h n x hx).1 hn

theorem KernelWords.or {w' : ℕ → Option ℕ} (h : KernelWords w) (h' : KernelWords w') :
    KernelWords fun n => (w' n).or (w n) := by
  intro n x hx
  obtain hx | ⟨-, hx⟩ := Option.or_eq_some_iff.1 hx
  · exact h' n x hx
  · exact h n x hx

/-- The loop of `setupkvm`. -/
theorem mapKernel_maps {ms : List Kmap} (h : Owns k s pgdir L) (hfits : ∀ m ∈ ms, m.Fits)
    (hpair : ms.Pairwise fun m m' => m.top ≤ m'.first)
    (habsent : ∀ m ∈ ms, ∀ n, m.first ≤ n → n < m.top → mapping s.mem pgdir n = none) :
    Ends (fun r s' => (r = some pgdir ∧ ∃ used w, Entered pgdir s s' [] used w ∧ KernelWords w ∧
          ∀ m ∈ ms, ∀ n, m.first ≤ n → n < m.top → w n ≠ none) ∨
        r = none ∧ s'.freelist.Perm L ∧ Frame L s.mem s'.mem)
      (fun _ => False) (mapKernel k pgdir ms s) := by
  induction ms generalizing s with
  | nil => exact ends_ok.2 (.inl ⟨rfl, [], _, .refl pgdir s, nofun, nofun⟩)
  | cons m ms ih =>
    have hm := hfits m List.mem_cons_self
    obtain ⟨hnext, hpair'⟩ := List.pairwise_cons.1 hpair
    rw [mapKernel]
    refine (mappages_maps h.apart hm.range.1 hm.range.2.2 hm.phys.1 hm.phys.2 hm.perm.1
      fun n h1 h2 => habsent m List.mem_cons_self n h1 (hm.pageCount_eq ▸ h2)).bind fun ok s₁ h₁ => ?_
    obtain ⟨used, i, hi, htrue, -, hmapped⟩ := h₁
    have hentered : Entered pgdir s s₁ [] used (mapped m.first i m.phys_start m.perm) := hmapped
    have hcount := hm.pageCount_eq
    have hkernel : KernelWords (mapped m.first i m.phys_start m.perm) := .mapped hm i
    have howns₁ := h.entered hentered fun n hn => hkernel.none hn
    cases ok with
    | false =>
      obtain ⟨s₂, hrun, hperm, hframe⟩ := freevm_frees howns₁
      rw [if_neg (by decide), run_bind_ok hrun]
      exact ends_ok.2 (.inr ⟨rfl, hperm, (hentered.frame.mono fun p hp => h.rest_mem hp).trans hframe⟩)
    | true =>
      have htop : m.first + i = m.top := by
        rw [htrue rfl, hcount]
      rw [if_pos rfl]
      refine (ih howns₁ (fun m' hm' => hfits m' (List.mem_cons_of_mem m hm')) hpair'
        fun m' hm' n h1 h2 => ?_).post fun r s' h' => ?_
      · have hfar := hnext m' hm'
        have hfit := hfits m' (List.mem_cons_of_mem m hm')
        have hn : n < NPAGES := by
          have hrange := hfit.range.2.2
          unfold Kmap.top at h2
          dsimp only [PGSIZE, UINT, NPAGES] at *
          omega
        rw [hentered.mapping_eq hn (if_neg (by omega))]
        exact habsent m' (List.mem_cons_of_mem m hm') n h1 h2
      · obtain ⟨rfl, used', w', hentered', hkernel', hall⟩ | ⟨rfl, hperm, hframe⟩ := h'
        · refine .inl ⟨rfl, used ++ used', _, hentered.trans hentered', hkernel.or hkernel', ?_⟩
          intro m' hm' n h1 h2 hnone
          rw [Option.or_eq_none_iff] at hnone
          obtain rfl | hm' := List.mem_cons.1 hm'
          · rw [mapped, if_pos ⟨h1, by omega⟩] at hnone
            exact Option.some_ne_none _ hnone.2
          · exact hall m' hm' n h1 h2 hnone.1
        · exact .inr ⟨rfl, hperm, (hentered.frame.mono fun p hp => h.rest_mem hp).trans hframe⟩

/-- The address space has all of the kernel part, out of reach of the user. -/
structure Space (k : Kernel) (s : Kmem) (pgdir : ℕ) (L : List ℕ) : Prop where
  owns : Owns k s pgdir L
  kernel : ∀ n, NUPAGES ≤ n → n < NPAGES → ∀ x, mapping s.mem pgdir n = some x → flag x PTE_U = false
  devices : ∀ n, DEVSPACE / PGSIZE ≤ n → n < NPAGES → mapping s.mem pgdir n ≠ none

/-- A change of the user part. -/
theorem Space.of_mapping {L' : List ℕ} (h : Space k s pgdir L) (howns : Owns k s' pgdir L')
    (hsame : ∀ n, NUPAGES ≤ n → n < NPAGES → mapping s'.mem pgdir n = mapping s.mem pgdir n) :
    Space k s' pgdir L' := by
  refine ⟨howns, fun n h1 h2 x hx => ?_, fun n h1 h2 => ?_⟩
  · rw [hsame n h1 h2] at hx
    exact h.kernel n h1 h2 x hx
  · rw [hsame n (.trans (by decide) h1) h2]
    exact h.devices n h1 h2

/-- A page of zeros is a page directory without page tables. -/
theorem table_fill (m : ℕ → UInt8) (pgdir : ℕ) (hi : i < NPTENTRIES) :
    table (fill m pgdir 0 PGSIZE) pgdir i = none := by
  have hword : word (fill m pgdir 0 PGSIZE) (pgdir + 4 * i) = 0 := by
    refine word_fill_zero (by omega) ?_
    dsimp only [NPTENTRIES, PGSIZE] at *
    omega
  dsimp only [table]
  rw [hword, if_neg (by decide)]

theorem mapping_fill (m : ℕ → UInt8) (pgdir : ℕ) (hn : n < NPAGES) :
    mapping (fill m pgdir 0 PGSIZE) pgdir n = none := by
  rw [mapping, pte_of_none (table_fill m pgdir (dirSlot_lt hn))]
  rfl

theorem owns_fill (hfree : s.freelist = p :: next) (hnodup : s.freelist.Nodup)
    (hvalid : ∀ p ∈ s.freelist, Valid k p) :
    Owns k ⟨next, fill s.mem p 0 PGSIZE⟩ p s.freelist := by
  refine ⟨?_, hnodup, hvalid⟩
  have husers : users (fill s.mem p 0 PGSIZE) p 0 NUPAGES = [] := by
    refine List.filterMap_eq_nil_iff.2 fun n hn => ?_
    have hpage : n < NPAGES := (mem_pagesFrom.1 hn).2.trans (by decide)
    rw [userPage, mapping_fill s.mem p hpage]
    rfl
  have htables : tables (fill s.mem p 0 PGSIZE) p = [] :=
    List.filterMap_eq_nil_iff.2 fun i hi => table_fill s.mem p (mem_dirSlots.1 hi)
  rw [husers, htables, hfree]
  exact List.perm_append_singleton p next

/-- `setupkvm` makes an address space without user pages, or takes back what it has allocated. -/
theorem setupkvm_makes (hnodup : s.freelist.Nodup) (hvalid : ∀ p ∈ s.freelist, Valid k p) :
    Ends (fun r s' => Frame s.freelist s.mem s'.mem ∧ (r = none ∧ s'.freelist.Perm s.freelist ∨
        ∃ d, r = some d ∧ Space k s' d s.freelist ∧ ∀ n < NUPAGES, mapping s'.mem d n = none))
      (fun _ => False) (setupkvm k s) := by
  rw [setupkvm]
  cases hfree : s.freelist with
  | nil =>
    rw [run_bind_ok (kalloc_nil hfree)]
    exact ends_ok.2 ⟨.refl _ _, .inl ⟨rfl, by rw [hfree]⟩⟩
  | cons p next =>
    have hmem : p ∈ s.freelist := by
      rw [hfree]
      exact List.mem_cons_self
    have howns := owns_fill hfree hnodup hvalid
    have hframe : Frame s.freelist s.mem (fill s.mem p 0 PGSIZE) :=
      (Frame.of_fill (hvalid p hmem).page 0).mono fun q hq => List.mem_singleton.1 hq ▸ hmem
    have hdata : k.data < KERNBASE + PHYSTOP := by
      -- the page is behind the image
      have hrange := (hvalid p hmem).range.2
      have himage := (hvalid p hmem).image
      have hle := k.data_le
      omega
    obtain ⟨hfits, hpair⟩ := kmap_fits hdata
    rw [run_bind_ok (kalloc_cons hfree), ← hfree]
    dsimp only
    rw [run_memset_bind, if_neg (by decide)]
    refine (mapKernel_maps howns hfits hpair fun m hm n h1 h2 => mapping_fill s.mem p ?_).post
      fun r s' h => ?_
    · have hrange := (hfits m hm).range.2.2
      unfold Kmap.top at h2
      dsimp only [PGSIZE, UINT, NPAGES] at *
      omega
    · obtain ⟨rfl, used, w, hentered, hkernel, hall⟩ | ⟨rfl, hperm, hframe'⟩ := h
      · have hlt : ∀ n < NUPAGES, n < NPAGES := fun n hn => hn.trans (by decide)
        refine ⟨hframe.trans (hentered.frame.mono fun q hq => howns.rest_mem hq), .inr ⟨p, rfl,
          ⟨howns.entered hentered fun n hn => hkernel.none hn, fun n h1 h2 x hx => ?_,
            fun n h1 h2 => ?_⟩, fun n hn => ?_⟩⟩
        · cases hw : w n with
          | some y =>
            rw [hentered.mapping_set h2 hw] at hx
            rw [← Option.some.inj hx]
            exact (hkernel n y hw).2
          | none =>
            rw [hentered.mapping_eq h2 hw, mapping_fill s.mem p h2] at hx
            cases hx
        · have hdevice := hall ⟨DEVSPACE, DEVSPACE, 0, PTE_W⟩ (by simp [kmap]) n h1 h2
          obtain ⟨y, hy⟩ := Option.ne_none_iff_exists'.1 hdevice
          rw [hentered.mapping_set h2 hy]
          exact Option.some_ne_none y
        · rw [hentered.mapping_eq (hlt n hn) (hkernel.none hn), mapping_fill s.mem p (hlt n hn)]
      · exact ⟨hframe.trans hframe', .inl ⟨rfl, hperm⟩⟩

end Xv6Container.Paging
