import Xv6Container.Paging.Space

/-! `copyuvm` makes the address space of a child. Each pass takes one page, copies the parent's page
into it and maps it; whatever has been made when memory runs out is an address space, which `freevm`
turns into free pages. The parent's pages are never written to, as none of them is free. -/

namespace Xv6Container.Paging

open Lib
open Memory (PGSIZE KERNBASE PHYSTOP DEVSPACE UINT NPTENTRIES V2P PGROUNDUP)
open Memory.Copyout (PTE_P PTE_U flag PTE_ADDR P2V PDX PTX memmove)

variable {m : ℕ → UInt8} {pgdir d n a p x sz fuel : ℕ} {s s₁ s₂ : Kmem} {k : Kernel}
  {used next : List ℕ}

theorem memmove_of_mem {q : ℕ → UInt8} {buf count : ℕ} (ha : a < count) :
    memmove m p q buf count (p + a) = q (buf + a) := by
  rw [memmove, if_pos (by omega), Nat.add_sub_cancel_left]

/-- The flags of a page that is present say so. -/
theorem flags_present (hx : flag x PTE_P = true) : PTE_FLAGS x ||| PTE_P = PTE_FLAGS x := by
  have hodd : PTE_FLAGS x % 2 = 1 := by
    rw [flag, beq_iff_eq, Nat.div_one] at hx
    unfold PTE_FLAGS
    dsimp only [PGSIZE]
    omega
  refine Nat.eq_of_testBit_eq fun i => ?_
  rw [Nat.testBit_or]
  cases i with
  | zero => rw [Nat.testBit_zero, hodd]; rfl
  | succ i =>
    have hbit : PTE_P.testBit (i + 1) = false := by
      rw [Nat.testBit_succ]
      exact Nat.zero_testBit i
    rw [hbit, Bool.or_false]

/-- The first `n` pages of `d` are copies of those of `pgdir` with the same flags, in pages that were
free, and there are no others. -/
structure Copied (pgdir d n : ℕ) (s s' : Kmem) : Prop where
  page : ∀ i < n, ∃ x y, mapping s.mem pgdir i = some x ∧ mapping s'.mem d i = some y ∧
    PTE_FLAGS y = PTE_FLAGS x ∧ P2V (PTE_ADDR y) ∈ s.freelist ∧
    ∀ a < PGSIZE, s'.mem (P2V (PTE_ADDR y) + a) = s.mem (P2V (PTE_ADDR x) + a)
  rest : ∀ i, n ≤ i → i < NUPAGES → mapping s'.mem d i = none

/-- The parent's pages are not free. -/
structure Parent (s : Kmem) (pgdir : ℕ) : Prop where
  dir : IsPage pgdir
  tables : ∀ p ∈ pgdir :: Paging.tables s.mem pgdir, p ∉ s.freelist
  users : ∀ p ∈ users s.mem pgdir 0 NUPAGES, p ∉ s.freelist

namespace Parent

theorem same (h : Parent s pgdir) (hframe : Frame s.freelist s.mem s₁.mem) :
    (∀ i < NPTENTRIES, table s₁.mem pgdir i = table s.mem pgdir i) ∧
      ∀ n < NPAGES, pte s₁.mem pgdir n = pte s.mem pgdir n :=
  hframe.tables_eq h.dir h.tables

theorem mem_users {m : ℕ → UInt8} (hn : n < NUPAGES) (hx : mapping m pgdir n = some x) :
    P2V (PTE_ADDR x) ∈ Paging.users m pgdir 0 NUPAGES :=
  List.mem_filterMap.2 ⟨n, mem_pagesFrom.2 ⟨Nat.zero_le n, hn⟩, by rw [userPage, hx]; rfl⟩

theorem content (h : Parent s pgdir) (hframe : Frame s.freelist s.mem s₁.mem) (hn : n < NUPAGES)
    (hx : mapping s.mem pgdir n = some x) (ha : a < PGSIZE) :
    s₁.mem (P2V (PTE_ADDR x) + a) = s.mem (P2V (PTE_ADDR x) + a) :=
  hframe.page (isPage_P2V x) (h.users _ (mem_users hn hx)) ha

end Parent

/-- One more page. -/
theorem Copied.put (h : Copied pgdir d n s s₁) (howns : Owns k s₁ d s.freelist) (hn : n < NUPAGES)
    (hx : mapping s.mem pgdir n = some x) (hp : p ∈ s₁.freelist)
    (hput : Entered d s₁ s₂ [p] used fun n' =>
      if n' = n ∧ true = true then some (V2P p ||| PTE_FLAGS x ||| PTE_P) else none)
    (hcopy : ∀ a < PGSIZE, s₂.mem (p + a) = s.mem (P2V (PTE_ADDR x) + a)) :
    Copied pgdir d (n + 1) s s₂ := by
  have hpage : IsPage p := (howns.valid p (howns.free_mem hp)).page
  have haligned := (V2P_aligned hpage).1
  have hflags : PTE_FLAGS x < PGSIZE := Nat.mod_lt x (by decide)
  have hnew : mapping s₂.mem d n = some (V2P p ||| PTE_FLAGS x ||| PTE_P) :=
    hput.mapping_set (hn.trans (by decide)) (if_pos ⟨rfl, rfl⟩)
  have hsame : ∀ i < NUPAGES, i ≠ n → mapping s₂.mem d i = mapping s₁.mem d i :=
    fun i hi hne => hput.mapping_eq (hi.trans (by decide)) (if_neg fun heq => hne heq.1)
  refine ⟨fun i hi => ?_, fun i h1 h2 => (hsame i h2 (by omega)).trans (h.rest i (by omega) h2)⟩
  by_cases heq : i = n
  · subst heq
    have haddr : P2V (PTE_ADDR (V2P p ||| PTE_FLAGS x ||| PTE_P)) = p := by
      rw [addr_entry haligned hflags, P2V_V2P hpage.2]
    refine ⟨x, _, hx, hnew, ?_, ?_, ?_⟩
    · rw [PTE_FLAGS, mod_entry haligned hflags, flags_present (mapping_present hx)]
    · rw [haddr]
      exact howns.free_mem hp
    · rw [haddr]
      exact hcopy
  · have hlt : i < NUPAGES := by omega
    obtain ⟨x', y, hx', hy, hflag, hmem, hcontent⟩ := h.page i (by omega)
    refine ⟨x', y, hx', (hsame i hlt heq).trans hy, hflag, hmem, fun a ha => ?_⟩
    have hout := howns.user_notMem (Parent.mem_users hlt hy)
    exact (hput.frame.page (isPage_P2V y) hout ha).trans (hcontent a ha)

/-- The loop. -/
theorem copyLoop_copies (hparent : Parent s pgdir) (hsz : sz ≤ KERNBASE)
    (hpresent : ∀ n < sizePages sz, mapping s.mem pgdir n ≠ none) (hn : n ≤ sizePages sz)
    (hfuel : sizePages sz < fuel + n) (hspace : Space k s₁ d s.freelist)
    (hframe : Frame s.freelist s.mem s₁.mem) (hcopied : Copied pgdir d n s s₁) :
    Ends (fun r s' => Frame s.freelist s.mem s'.mem ∧ (r = none ∧ s'.freelist.Perm s.freelist ∨
        r = some d ∧ Space k s' d s.freelist ∧ Copied pgdir d (sizePages sz) s s'))
      (fun _ => False) (copyLoop k pgdir d sz fuel (n * PGSIZE) s₁) := by
  have hpages : sizePages sz ≤ NUPAGES := sizePages_le hsz
  induction fuel generalizing n s₁ with
  | zero => omega
  | succ fuel ih =>
    rw [copyLoop]
    by_cases hend : n < sizePages sz
    · have hlt : n < NUPAGES := by omega
      have hpage : n < NPAGES := hlt.trans (by decide)
      obtain ⟨x, hx⟩ := Option.ne_none_iff_exists'.1 (hpresent n hend)
      have hx₁ : mapping s₁.mem pgdir n = some x :=
        (mapping_congr ((hparent.same hframe).2 n hpage)).trans hx
      obtain ⟨hpte, hflag⟩ := mapping_eq_some.1 hx₁
      obtain ⟨t, ht, hword⟩ := Option.map_eq_some_iff.1 hpte
      have howns := hspace.owns
      rw [if_pos (lt_sizePages.1 hend), run_bind_ok (walk_some false hpage ht)]
      dsimp only
      rw [run_load_bind, hword, if_neg (by rw [hflag]; decide)]
      cases hfree : s₁.freelist with
      | nil =>
        -- no memory for the page
        obtain ⟨s', hrun, hperm, hframe'⟩ := freevm_frees howns
        rw [run_bind_ok (kalloc_nil hfree)]
        dsimp only
        rw [run_bind_ok hrun]
        exact ends_ok.2 ⟨hframe.trans hframe', .inl ⟨rfl, hperm⟩⟩
      | cons p next =>
        have hmem : p ∈ s₁.freelist := by
          rw [hfree]
          exact List.mem_cons_self
        have hp := howns.valid p (howns.free_mem hmem)
        have hflags : PTE_FLAGS x < PGSIZE := Nat.mod_lt x (by decide)
        have hmove : Frame [p] s₁.mem (memmove s₁.mem p s₁.mem (P2V (PTE_ADDR x)) PGSIZE) :=
          Frame.of_memmove (a := 0) hp.page _ _ (by decide)
        rw [run_bind_ok (kalloc_cons hfree)]
        dsimp only
        rw [run_modify_bind]
        refine (mappages_put howns.apart hpage hfree hmove hflags (hcopied.rest n (le_refl n) hlt)).bind
          fun ok s₂ h₂ => ?_
        obtain ⟨hsame, used, hput⟩ := h₂
        have hframe₂ : Frame s.freelist s.mem s₂.mem :=
          hframe.trans (hput.frame.mono fun q hq => howns.rest_mem hq)
        cases ok with
        | true =>
          have hnext : (n * PGSIZE + PGSIZE) % UINT = (n + 1) * PGSIZE := by
            dsimp only [PGSIZE, UINT, NUPAGES] at *
            omega
          have haddr : P2V (PTE_ADDR (V2P p ||| PTE_FLAGS x ||| PTE_P)) = p := by
            rw [addr_entry (V2P_aligned hp.page).1 hflags, P2V_V2P hp.page.2]
          rw [if_pos rfl, hnext]
          refine ih hend (by omega) (hspace.of_mapping ?_ fun n' h1 h2 => ?_) hframe₂
            (hcopied.put howns hlt hx hmem hput fun a ha => ?_)
          · exact howns.put hput hlt (if_pos ⟨rfl, rfl⟩) haddr
              (fun n' _ hne => if_neg fun heq => hne heq.1) (hcopied.rest n (le_refl n) hlt)
          · exact hput.mapping_eq h2 (if_neg fun heq => by omega)
          · rw [hsame a ha, memmove_of_mem ha]
            exact hparent.content hframe hlt hx ha
        | false =>
          -- no memory for a page table
          have hgive := (hput.give howns.apart (.of_fill hp.page 1)).congr
            (fun n' _ => (if_neg fun heq => Bool.false_ne_true heq.2).symm) nofun
          obtain ⟨s', hrun, hperm, hframe'⟩ := freevm_frees (howns.entered hgive fun _ _ => rfl)
          rw [if_neg (by decide), run_bind_ok (kfree_valid hp), run_bind_ok hrun]
          refine ends_ok.2 ⟨(hframe₂.trans ?_).trans hframe', .inl ⟨rfl, hperm⟩⟩
          exact (Frame.of_fill hp.page 1).mono fun q hq =>
            List.mem_singleton.1 hq ▸ howns.free_mem hmem
    · obtain rfl : n = sizePages sz := by omega
      rw [if_neg fun ha => hend (lt_sizePages.2 ha)]
      exact ends_ok.2 ⟨hframe, .inr ⟨rfl, hspace, hcopied⟩⟩

/-- `copyuvm` copies the parent's pages, with their flags, to different pages that were free, and maps
no other user page; or all pages it has taken are free again. Only pages that were free have been
written to, and the parent's page tables are as they were. -/
theorem copyuvm_copies (hnodup : s.freelist.Nodup) (hvalid : ∀ p ∈ s.freelist, Valid k p)
    (hparent : Parent s pgdir) (hsz : sz ≤ KERNBASE)
    (hpresent : ∀ n < sizePages sz, mapping s.mem pgdir n ≠ none) :
    ∃ r s', copyuvm k pgdir sz s = .ok r s' ∧ Frame s.freelist s.mem s'.mem ∧
      (∀ n < NPAGES, pte s'.mem pgdir n = pte s.mem pgdir n) ∧
      (r = none ∧ s'.freelist.Perm s.freelist ∨
        ∃ d, r = some d ∧ Copied pgdir d (sizePages sz) s s' ∧ (users s'.mem d 0 NUPAGES).Nodup ∧
          (users s'.mem d 0 NUPAGES ++ (s'.freelist ++ d :: tables s'.mem d)).Perm s.freelist) := by
  have hends : Ends (fun r s' => Frame s.freelist s.mem s'.mem ∧ (r = none ∧ s'.freelist.Perm s.freelist ∨
      ∃ d, r = some d ∧ Space k s' d s.freelist ∧ Copied pgdir d (sizePages sz) s s'))
      (fun _ => False) (copyuvm k pgdir sz s) := by
    rw [copyuvm]
    refine (setupkvm_makes hnodup hvalid).bind fun r s₁ h => ?_
    obtain ⟨hframe, ⟨rfl, hperm⟩ | ⟨d, rfl, hspace, hempty⟩⟩ := h
    · exact ends_ok.2 ⟨hframe, .inl ⟨rfl, hperm⟩⟩
    · have hpages : sizePages sz ≤ NUPAGES := sizePages_le hsz
      have hloop := @copyLoop_copies _ d 0 sz (UINT / PGSIZE + 1) s s₁ k hparent hsz hpresent
        (Nat.zero_le _) (by dsimp only [UINT, PGSIZE, NUPAGES] at *; omega) hspace hframe
        ⟨fun i hi => absurd hi (Nat.not_lt_zero i), fun i _ => hempty i⟩
      rw [Nat.zero_mul] at hloop
      refine hloop.post fun r s' h => ?_
      obtain ⟨hframe', hnone | ⟨hr, hspace', hcopied⟩⟩ := h
      · exact ⟨hframe', .inl hnone⟩
      · exact ⟨hframe', .inr ⟨d, hr, hspace', hcopied⟩⟩
  obtain ⟨r, s', hrun, hframe, hresult⟩ := hends.returns
  refine ⟨r, s', hrun, hframe, (hparent.same hframe).2, ?_⟩
  obtain hnone | ⟨d, hr, hspace, hcopied⟩ := hresult
  · exact .inl hnone
  · exact .inr ⟨d, hr, hcopied, (List.nodup_append.1 hspace.owns.parts).1, hspace.owns.perm⟩

/-- 80 free pages, and two more. -/
def freePages : List ℕ := (List.range 80).map fun i => 0x80500000 + i * PGSIZE

def emptyParent : Kmem := ⟨0x80401000 :: 0x80402000 :: freePages, fun _ => 0⟩

/-- A process of one page. -/
def oneParent : Kmem :=
  let s := addTable emptyParent 0x80400000 0 0x80401000 (0x80402000 :: freePages)
  ⟨freePages, setWord s.mem (0x80401000 + 4 * (0 % NPTENTRIES)) (0x402000 ||| 6 ||| PTE_P)⟩

theorem valid_freePages : ∀ p ∈ freePages, Valid smallKernel p := by
  intro p hp
  obtain ⟨i, hi, rfl⟩ := List.mem_map.1 hp
  have hlt : i < 80 := List.mem_range.1 hi
  refine ⟨⟨?_, ?_⟩, ?_, ?_⟩ <;>
  · simp only [V2P, smallKernel, PGSIZE, UINT, KERNBASE, PHYSTOP]
    omega

theorem apart_emptyParent : Apart emptyParent 0x80400000 where
  dir := by decide
  free := by
    intro p hp
    obtain rfl | hp := List.mem_cons.1 hp
    · decide
    · obtain rfl | hp := List.mem_cons.1 hp
      · decide
      · exact (valid_freePages p hp).page
  nodup := by
    rw [emptyParent, tables_zero]
    decide +kernel

theorem entered_oneParent : ∃ w : ℕ → Option ℕ,
    Entered 0x80400000 emptyParent oneParent [0x80402000] [0x80401000] w ∧
      w 0 = some (0x402000 ||| 6 ||| PTE_P) ∧ ∀ n, n ≠ 0 → w n = none := by
  have hadd := entered_addTable apart_emptyParent rfl (by decide : 0 < NPTENTRIES) (table_zero _ 0)
  have hs := hadd.apart apart_emptyParent
  have htake := Entered.take hs rfl (.refl _ _)
  have ht : table (addTable emptyParent 0x80400000 0 0x80401000 (0x80402000 :: freePages)).mem 0x80400000
      0 = some 0x80401000 := table_addTable apart_emptyParent rfl
  have hstore := entered_store (htake.apart hs).directory (by decide : 0 < NPAGES) ht
    (by decide : (0x402000 ||| 6 ||| PTE_P) < UINT) (by decide)
  exact ⟨_, (hadd.trans htake).trans hstore, rfl, fun n hn => by simp [hn]⟩

theorem parent_oneParent : Parent oneParent 0x80400000 := by
  obtain ⟨w, hw, hzero, hother⟩ := entered_oneParent
  have hs := hw.apart apart_emptyParent
  have hnone : users emptyParent.mem 0x80400000 0 NUPAGES = [] :=
    List.filterMap_eq_nil_iff.2 fun n _ => by rw [userPage, emptyParent, mapping_zero]; rfl
  have husers := hw.users_put (Nat.zero_le 0) (by decide : 0 < NUPAGES) (by decide) hzero
    (fun n _ _ => hother n) (mapping_zero _ 0)
  refine ⟨hs.dir, fun p hp hmem => (List.nodup_append.1 hs.nodup).2.2 p hmem p hp rfl, ?_⟩
  intro p hp hmem
  rw [hnone] at husers
  obtain rfl : p = 0x80402000 := List.mem_singleton.1 (husers.mem_iff.1 hp)
  exact hw.got_notMem apart_emptyParent List.mem_cons_self (List.mem_append_left _ hmem)

theorem owns_oneParent : Owns smallKernel oneParent 0x80400000
    (0x80401000 :: 0x80402000 :: freePages ++ [0x80400000]) := by
  obtain ⟨w, hw, hzero, hother⟩ := entered_oneParent
  have hnone : users emptyParent.mem 0x80400000 0 NUPAGES = [] :=
    List.filterMap_eq_nil_iff.2 fun n _ => by rw [userPage, emptyParent, mapping_zero]; rfl
  have husers := hw.users_put (Nat.zero_le 0) (by decide : 0 < NUPAGES) (by decide) hzero
    (fun n _ _ => hother n) (mapping_zero _ 0)
  have hperm := hw.perm
  have hnodup := apart_emptyParent.nodup
  rw [hnone] at husers
  rw [emptyParent, tables_zero] at hperm hnodup
  refine ⟨(husers.append_right _).trans hperm.symm, hnodup, fun p hp => ?_⟩
  obtain hp | hp := List.mem_append.1 hp
  · obtain rfl | hp := List.mem_cons.1 hp
    · exact ⟨by decide, by decide, by decide⟩
    · obtain rfl | hp := List.mem_cons.1 hp
      · exact ⟨by decide, by decide, by decide⟩
      · exact valid_freePages p hp
  · rw [List.mem_singleton.1 hp]
    exact ⟨by decide, by decide, by decide⟩

/-- The page of the process is copied, or memory is exhausted before. -/
theorem copyuvm_copies_one : ∃ r s', copyuvm smallKernel 0x80400000 4096 oneParent = .ok r s' ∧
    (r = none ∧ s'.freelist.Perm freePages ∨
      ∃ d, r = some d ∧ Copied 0x80400000 d 1 oneParent s') := by
  obtain ⟨w, hw, hzero, -⟩ := entered_oneParent
  have hs := hw.apart apart_emptyParent
  obtain ⟨r, s', hrun, -, -, hresult⟩ := @copyuvm_copies 0x80400000 4096 oneParent smallKernel
    (List.nodup_append.1 hs.nodup).1 valid_freePages parent_oneParent (by decide) fun n hn => by
      have hone : n = 0 := by
        have hsize : sizePages 4096 = 1 := rfl
        omega
      rw [hone, hw.mapping_set (by decide) hzero]
      exact Option.some_ne_none _
  refine ⟨r, s', hrun, hresult.imp_right fun ⟨d, hd, hcopied, _⟩ => ⟨d, hd, hcopied⟩⟩

end Xv6Container.Paging
