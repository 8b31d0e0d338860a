import Xv6Container.Paging.Dealloc

/-! `allocuvm` grows the user part by pages of zeros, and takes everything back when memory runs out:
`deallocuvm` over the whole range that was asked for finds exactly the pages that have been mapped. The
page tables made for them stay, empty. -/

namespace Xv6Container.Paging

open Lib
open Memory (PGSIZE KERNBASE PHYSTOP DEVSPACE UINT NPTENTRIES V2P PGROUNDUP)
open Memory.Copyout (PTE_P PTE_U flag PTE_ADDR P2V PDX PTX memmove)

variable {m' : ℕ → UInt8} {pgdir n lo hi p perm fuel oldsz newsz : ℕ} {s s' s'' : Kmem} {k : Kernel}
  {got got' used next : List ℕ} {w : ℕ → Option ℕ}

/-! ### Pages that are taken and given back -/

namespace Entered

theorem perm_got (h : Entered pgdir s s' got used w) (hgot : got.Perm got') :
    Entered pgdir s s' got' used w :=
  ⟨h.free.trans (hgot.append_right _), h.tables, h.keeps, h.present, h.set, h.rest, h.frame⟩

/-- A page that has been taken is not free, and not used for the page tables. -/
theorem got_notMem (h : Entered pgdir s s' got used w) (hs : Apart s pgdir) (hp : p ∈ got) :
    p ∉ s'.freelist ++ pgdir :: Paging.tables s'.mem pgdir := fun hmem =>
  (List.nodup_append.1 (h.perm.nodup_iff.1 hs.nodup)).2.2 p hp p hmem rfl

theorem got_mem (h : Entered pgdir s s' got used w) (hp : p ∈ got) : p ∈ s.freelist :=
  h.free.mem_iff.2 (List.mem_append_left _ hp)

/-- A page is taken from the free list and filled. -/
theorem take (hs : Apart s pgdir) (hfree : s.freelist = p :: next) (hframe : Frame [p] s.mem m') :
    Entered pgdir s ⟨next, m'⟩ [p] [] fun _ => none := by
  have hdir : ∀ q ∈ pgdir :: Paging.tables s.mem pgdir, q ∉ [p] := by
    intro q hq hmem
    obtain rfl := List.mem_singleton.1 hmem
    exact (List.nodup_append.1 hs.nodup).2.2 q (by simp [hfree]) q hq rfl
  obtain ⟨htable, hpte⟩ := hframe.tables_eq hs.dir hdir
  constructor
  case free => rw [hfree]; exact .refl _
  case tables => rw [List.nil_append, tables_congr htable]
  case keeps => exact fun i hi t ht => (htable i hi).trans ht
  case present => exact fun n x hx => absurd hx (Option.some_ne_none x).symm
  case set => exact fun n hn x hx => absurd hx (Option.some_ne_none x).symm
  case rest => exact fun n hn _ => .inl (hpte n hn)
  case frame =>
    refine hframe.mono fun q hq => ?_
    rw [List.mem_singleton.1 hq, hfree]
    exact List.mem_cons_self

/-- A page that was taken goes back to the free list. -/
theorem give (h : Entered pgdir s s' (p :: got) used w) (hs : Apart s pgdir)
    (hframe : Frame [p] s'.mem m') : Entered pgdir s ⟨p :: s'.freelist, m'⟩ got used w := by
  have hout := h.got_notMem hs List.mem_cons_self
  have hdir : ∀ q ∈ pgdir :: Paging.tables s'.mem pgdir, q ∉ [p] := by
    intro q hq hmem
    obtain rfl := List.mem_singleton.1 hmem
    exact hout (List.mem_append_right _ hq)
  obtain ⟨htable, hpte⟩ := hframe.tables_eq hs.dir hdir
  constructor
  case free =>
    refine h.free.trans ?_
    rw [List.cons_append, ← List.append_assoc, ← List.append_assoc]
    exact List.perm_middle.symm
  case tables => rw [tables_congr htable]; exact h.tables
  case keeps => exact fun i hi t ht => (htable i hi).trans (h.keeps i hi t ht)
  case present => exact h.present
  case set => exact fun n hn x hx => (hpte n hn).trans (h.set n hn x hx)
  case rest =>
    intro n hn hx
    rw [hpte n hn]
    exact h.rest n hn hx
  case frame =>
    refine h.frame.trans (hframe.mono fun q hq => ?_)
    rw [List.mem_singleton.1 hq]
    exact List.mem_append_left _ (h.got_mem List.mem_cons_self)

/-- The pages of a range that was mapped for them are freed. -/
theorem undo (h : Entered pgdir s s' (got ++ users s'.mem pgdir lo hi) used w)
    (hf : Freed pgdir lo hi s' s'') (hw : ∀ n, ¬ (lo ≤ n ∧ n < hi) → w n = none)
    (habsent : ∀ n, lo ≤ n → n < hi → mapping s.mem pgdir n = none) :
    Entered pgdir s s'' got used fun _ => none := by
  constructor
  case free =>
    refine h.free.trans ?_
    rw [hf.free, List.append_assoc]
    refine List.Perm.append_left got ?_
    exact (List.perm_append_comm_assoc ..).trans
      (((List.reverse_perm _).symm.append_right _).append_left used)
  case tables => rw [tables_congr hf.table]; exact h.tables
  case keeps => exact fun i hi t ht => (hf.table i hi).trans (h.keeps i hi t ht)
  case present => exact fun n x hx => absurd hx (Option.some_ne_none x).symm
  case set => exact fun n hn x hx => absurd hx (Option.some_ne_none x).symm
  case rest =>
    intro n hn _
    by_cases hin : lo ≤ n ∧ n < hi
    · rw [hf.clear n hin.1 hin.2]
      cases hmap : mapping s'.mem pgdir n with
      | some x => exact .inr ⟨habsent n hin.1 hin.2, rfl⟩
      | none =>
        refine h.rest n hn (Option.eq_none_iff_forall_ne_some.2 fun x hx => ?_)
        exact Option.some_ne_none x ((h.mapping_set hn hx).symm.trans hmap)
    · rw [hf.rest n hn hin]
      exact h.rest n hn (hw n hin)
  case frame =>
    refine h.frame.trans (hf.frame.mono fun q hq => h.subset ?_)
    simp only [List.mem_append, List.mem_cons] at hq ⊢
    tauto

end Entered

/-- A page of the free list is filled and mapped as page `n`, or there is no memory for a page table. -/
theorem mappages_put (hs : Apart s pgdir) (hn : n < NPAGES) (hfree : s.freelist = p :: next)
    (hframe : Frame [p] s.mem m') (hperm : perm < PGSIZE) (habsent : mapping s.mem pgdir n = none) :
    Ends (fun ok s' => (∀ a < PGSIZE, s'.mem (p + a) = m' (p + a)) ∧
        ∃ used, Entered pgdir s s' [p] used fun n' =>
          if n' = n ∧ ok = true then some (V2P p ||| perm ||| PTE_P) else none)
      (fun _ => False) (mappages pgdir (n * PGSIZE) PGSIZE (V2P p) perm ⟨next, m'⟩) := by
  have htake := Entered.take hs hfree hframe
  have hpage : IsPage p := hs.free p (by simp [hfree])
  obtain ⟨haligned, hlt⟩ := V2P_aligned hpage
  refine (mappages_page (htake.apart hs) hn haligned hlt hperm
    ((htake.mapping_eq hn rfl).trans habsent)).post fun ok s' h => ?_
  obtain ⟨used, -, hentered⟩ := h
  refine ⟨fun a ha => hentered.frame.page hpage (htake.got_notMem hs List.mem_cons_self) ha, used, ?_⟩
  exact (htake.trans hentered).congr (fun n' _ => by rw [Option.or_none]) hentered.present

/-! ### The new pages -/

/-- The entry of a page that `allocuvm` maps. -/
def newEntry (p : ℕ) : ℕ := V2P p ||| (PTE_W ||| PTE_U) ||| PTE_P

/-- The pages from `lo` to `hi` have been mapped to pages of zeros from the free list, and nothing else
has. -/
structure Extended (pgdir lo hi : ℕ) (s s' : Kmem) : Prop where
  entered : ∃ used, Entered pgdir s s' (users s'.mem pgdir lo hi) used fun n =>
    if lo ≤ n ∧ n < hi then mapping s'.mem pgdir n else none
  zero : ∀ n, lo ≤ n → n < hi → ∃ p ∈ s.freelist, mapping s'.mem pgdir n = some (newEntry p) ∧
    ∀ a < PGSIZE, s'.mem (p + a) = 0

theorem userPage_newEntry (hp : IsPage p) (h : mapping s.mem pgdir n = some (newEntry p)) :
    userPage s.mem pgdir n = some p := by
  rw [userPage, h, Option.map_some, newEntry, addr_entry (V2P_aligned hp).1 (by decide),
    P2V_V2P hp.2]

theorem mapping_present {m : ℕ → UInt8} {x : ℕ} (h : mapping m pgdir n = some x) :
    flag x PTE_P = true := (mapping_eq_some.1 h).2

namespace Extended

theorem refl (pgdir : ℕ) (h : hi ≤ lo) (s : Kmem) : Extended pgdir lo hi s s := by
  refine ⟨⟨[], ?_⟩, fun n h1 h2 => by omega⟩
  rw [users_nil h]
  exact (Entered.refl pgdir s).congr (fun n _ => if_neg (by omega)) fun n x hx => by
    rw [if_neg (by omega)] at hx
    cases hx

theorem apart (h : Extended pgdir lo hi s s') (hs : Apart s pgdir) : Apart s' pgdir := by
  obtain ⟨used, hentered⟩ := h.entered
  exact hentered.apart hs

theorem others (h : Extended pgdir lo hi s s') (hn : n < NPAGES) (hout : ¬ (lo ≤ n ∧ n < hi)) :
    mapping s'.mem pgdir n = mapping s.mem pgdir n := by
  obtain ⟨used, hentered⟩ := h.entered
  exact hentered.mapping_eq hn (if_neg hout)

theorem nodup (h : Extended pgdir lo hi s s') (hs : Apart s pgdir) :
    (users s'.mem pgdir lo hi).Nodup := by
  obtain ⟨used, hentered⟩ := h.entered
  exact (List.nodup_append.1 (hentered.perm.nodup_iff.1 hs.nodup)).1

/-- The next page. -/
theorem put (h : Extended pgdir lo n s s') (hs : Apart s pgdir) (hlo : lo ≤ n) (hn : n < NPAGES)
    (habsent : mapping s.mem pgdir n = none) (hp : IsPage p)
    (hput : Entered pgdir s' s'' [p] used fun n' =>
      if n' = n ∧ true = true then some (V2P p ||| (PTE_W ||| PTE_U) ||| PTE_P) else none)
    (hzero : ∀ a < PGSIZE, s''.mem (p + a) = 0) : Extended pgdir lo (n + 1) s s'' := by
  obtain ⟨used', hentered⟩ := h.entered
  have hnone : mapping s'.mem pgdir n = none := (h.others hn (by omega)).trans habsent
  have hnew : mapping s''.mem pgdir n = some (newEntry p) := hput.mapping_set hn (if_pos ⟨rfl, rfl⟩)
  have hsame : ∀ n' < NPAGES, n' ≠ n → mapping s''.mem pgdir n' = mapping s'.mem pgdir n' :=
    fun n' hn' hne => hput.mapping_eq hn' (if_neg fun heq => hne heq.1)
  have husers : users s''.mem pgdir lo (n + 1) = users s'.mem pgdir lo n ++ [p] := by
    have hlast := users_one_some hnew
    rw [newEntry, addr_entry (V2P_aligned hp).1 (by decide), P2V_V2P hp.2] at hlast
    rw [← users_append hlo (Nat.le_succ n), hlast,
      users_congr fun n' h1 h2 => hsame n' (by omega) (by omega)]
  refine ⟨⟨used' ++ used, ?_⟩, fun n' h1 h2 => ?_⟩
  · rw [husers]
    refine (hentered.trans hput).congr (fun n' hn' => ?_) fun n' x hx => ?_
    · by_cases heq : n' = n
      · subst heq
        rw [if_pos (by omega), if_pos ⟨rfl, rfl⟩, hnew, Option.some_or]
        rfl
      · rw [if_neg fun hand : n' = n ∧ true = true => heq hand.1, Option.none_or, hsame n' hn' heq]
        exact if_congr (by omega) rfl rfl
    · split_ifs at hx
      exact mapping_present hx
  · by_cases heq : n' = n
    · subst heq
      have hmem : p ∈ s'.freelist := hput.got_mem List.mem_cons_self
      refine ⟨p, hentered.free.mem_iff.2 ?_, hnew, hzero⟩
      exact List.mem_append_right _ (List.mem_append_right _ hmem)
    · obtain ⟨q, hq, hmap, hq0⟩ := h.zero n' h1 (by omega)
      refine ⟨q, hq, (hsame n' (by omega) heq).trans hmap, fun a ha => ?_⟩
      have hpage := hs.free q hq
      have huser : q ∈ users s'.mem pgdir lo n :=
        List.mem_filterMap.2 ⟨n', mem_pagesFrom.2 ⟨h1, by omega⟩, userPage_newEntry hpage hmap⟩
      exact (hput.frame.page hpage (hentered.got_notMem hs huser) ha).trans (hq0 a ha)

end Extended

/-! ### The undo -/

section Undo

variable (hs : Apart s pgdir) (hvalid : ∀ p ∈ s.freelist, Valid k p) (hnew : newsz < KERNBASE)
  (habsent : ∀ n, sizePages oldsz ≤ n → n < NUPAGES → mapping s.mem pgdir n = none)
include hs hvalid hnew habsent

/-- `deallocuvm` frees what has been mapped of the range, up to page `n`. -/
theorem dealloc_undo {s₁ : Kmem} (hlt : oldsz < newsz) (hn : n ≤ sizePages newsz)
    (h : Entered pgdir s s₁ (got ++ users s₁.mem pgdir (sizePages oldsz) n) used w)
    (hlo : sizePages oldsz ≤ n) (hw : ∀ n', ¬ (sizePages oldsz ≤ n' ∧ n' < n) → w n' = none) :
    ∃ s', deallocuvm k pgdir newsz oldsz s₁ = .ok oldsz s' ∧
      Entered pgdir s s' got used fun _ => none := by
  have hpages : sizePages newsz ≤ NUPAGES := sizePages_le hnew.le
  have husers : users s₁.mem pgdir (sizePages oldsz) (sizePages newsz) =
      users s₁.mem pgdir (sizePages oldsz) n := by
    have hrest : users s₁.mem pgdir n (sizePages newsz) = [] := by
      refine List.filterMap_eq_nil_iff.2 fun n' hn' => ?_
      obtain ⟨h1, h2⟩ := mem_pagesFrom.1 hn'
      have hpage : n' < NPAGES := by
        dsimp only [NUPAGES, NPAGES] at *
        omega
      rw [userPage, h.mapping_eq hpage (hw n' (by omega)), habsent n' (by omega) (by omega)]
      rfl
    rw [← users_append hlo hn, hrest, List.append_nil]
  rw [← husers] at h
  have hfree : Freeable k s₁.mem pgdir (users s₁.mem pgdir (sizePages oldsz) (sizePages newsz)) := by
    intro p hp
    have hgot := List.mem_append_right got hp
    exact ⟨hvalid p (h.got_mem hgot),
      fun hmem => h.got_notMem hs hgot (List.mem_append_right _ hmem)⟩
  obtain ⟨s', hvisit, hfreed⟩ := visitPages_freed (h.apart hs).directory
    (hpages.trans (by decide)) hfree
  refine ⟨s', ?_, h.undo hfreed (fun n' hn' => hw n' (by omega)) fun n' h1 h2 =>
    habsent n' h1 (by omega)⟩
  rw [deallocuvm_eq hlt hnew.le, run_bind_ok hvisit]
  rfl

/-- The loop. -/
theorem allocLoop_grows {s₁ : Kmem} (hlo : sizePages oldsz ≤ n) (hn : n ≤ sizePages newsz)
    (hfuel : sizePages newsz < fuel + n) (hle : oldsz ≤ newsz)
    (h : Extended pgdir (sizePages oldsz) n s s₁) :
    Ends (fun r s' => r = newsz ∧ Extended pgdir (sizePages oldsz) (sizePages newsz) s s' ∨
        r = 0 ∧ ∃ used, Entered pgdir s s' [] used fun _ => none)
      (fun _ => False) (allocLoop k pgdir oldsz newsz fuel (n * PGSIZE) s₁) := by
  have hpages : sizePages newsz ≤ NUPAGES := sizePages_le hnew.le
  induction fuel generalizing n s₁ with
  | zero => omega
  | succ fuel ih =>
    rw [allocLoop]
    by_cases hend : n < sizePages newsz
    · have ha := lt_sizePages.1 hend
      have hlt : oldsz < newsz := by
        have hmem := mt lt_sizePages.2 (Nat.not_lt.2 hlo)
        omega
      have hpage : n < NPAGES := by
        dsimp only [NUPAGES, NPAGES] at *
        omega
      have hnone := habsent n hlo (by omega)
      obtain ⟨used, hentered⟩ := h.entered
      have hs₁ := hentered.apart hs
      have hmap : mapping s₁.mem pgdir n = none := (h.others hpage (by omega)).trans hnone
      rw [if_pos ha]
      cases hfree : s₁.freelist with
      | nil =>
        -- no memory for the page
        have hnil : Entered pgdir s s₁ ([] ++ users s₁.mem pgdir (sizePages oldsz) n) used _ := hentered
        obtain ⟨s', hrun, hundone⟩ := dealloc_undo hs hvalid hnew habsent hlt hn hnil hlo
          fun n' hn' => if_neg hn'
        rw [run_bind_ok (kalloc_nil hfree)]
        dsimp only
        rw [run_bind_ok hrun]
        exact ends_ok.2 (.inr ⟨rfl, used, hundone⟩)
      | cons p next =>
        have hmem : p ∈ s.freelist := by
          refine hentered.free.mem_iff.2 (List.mem_append_right _ (List.mem_append_right _ ?_))
          rw [hfree]
          exact List.mem_cons_self
        have hp := hvalid p hmem
        rw [run_bind_ok (kalloc_cons hfree)]
        dsimp only
        rw [run_memset_bind]
        refine (mappages_put hs₁ hpage hfree (.of_fill hp.page 0) (by decide) hmap).bind
          fun ok s₂ h₂ => ?_
        obtain ⟨hsame, used', hput⟩ := h₂
        cases ok with
        | true =>
          have hnext : (n * PGSIZE + PGSIZE) % UINT = (n + 1) * PGSIZE := by
            dsimp only [PGSIZE, UINT, NUPAGES] at *
            omega
          rw [if_pos rfl, hnext]
          refine ih (by omega) hend (by omega) (h.put hs hlo hpage hnone hp.page hput fun a ha' => ?_)
          exact (hsame a ha').trans (fill_of_mem (by omega) (by omega))
        | false =>
          -- no memory for a page table
          have husers : users s₂.mem pgdir (sizePages oldsz) n = users s₁.mem pgdir (sizePages oldsz) n :=
            hput.users_eq hpage.le fun n' _ _ => if_neg fun hand => Bool.false_ne_true hand.2
          have hboth := (hentered.trans hput).perm_got List.perm_append_comm
          rw [← husers] at hboth
          obtain ⟨s₃, hrun, hundone⟩ := dealloc_undo hs hvalid hnew habsent hlt hn hboth hlo
            fun n' hn' => by rw [if_neg (by simp), if_neg hn', Option.or_none]
          rw [if_neg (by decide), run_bind_ok hrun, run_bind_ok (kfree_valid hp)]
          exact ends_ok.2 (.inr ⟨rfl, _, hundone.give hs (.of_fill hp.page 1)⟩)
    · obtain rfl : n = sizePages newsz := by omega
      rw [if_neg fun ha => hend (lt_sizePages.2 ha)]
      exact ends_ok.2 (.inl ⟨rfl, h⟩)

theorem allocuvm_grows (hle : oldsz ≤ newsz) :
    Ends (fun r s' => r = newsz ∧ Extended pgdir (sizePages oldsz) (sizePages newsz) s s' ∨
        r = 0 ∧ ∃ used, Entered pgdir s s' [] used fun _ => none)
      (fun _ => False) (allocuvm k pgdir oldsz newsz s) := by
  have hmono : sizePages oldsz ≤ sizePages newsz := by
    unfold sizePages
    exact Nat.div_le_div_right (by omega)
  have hpages : sizePages newsz ≤ NUPAGES := sizePages_le hnew.le
  rw [allocuvm, if_neg (by omega), if_neg (by omega), PGROUNDUP_eq (by omega)]
  refine allocLoop_grows hs hvalid hnew habsent (le_refl _) hmono ?_ hle (.refl pgdir (le_refl _) s)
  dsimp only [UINT, PGSIZE, NUPAGES] at *
  omega

end Undo

/-- The user part is as it was, and every page is back on the free list but for new page tables, which
are empty. -/
structure Undone (pgdir : ℕ) (s s' : Kmem) : Prop where
  mappings : ∀ n < NPAGES, mapping s'.mem pgdir n = mapping s.mem pgdir n
  pages : ∃ used, s.freelist.Perm (used ++ s'.freelist) ∧
    (tables s'.mem pgdir).Perm (used ++ tables s.mem pgdir)
  kept : ∀ i < NPTENTRIES, ∀ t, table s.mem pgdir i = some t → table s'.mem pgdir i = some t
  empty : ∀ n < NPAGES, table s.mem pgdir (n / NPTENTRIES) = none → mapping s'.mem pgdir n = none
  frame : Frame (s.freelist ++ pgdir :: tables s.mem pgdir) s.mem s'.mem

theorem Entered.undone (h : Entered pgdir s s' [] used fun _ => none) : Undone pgdir s s' where
  mappings _ hn := h.mapping_eq hn rfl
  pages := ⟨used, h.free, h.tables⟩
  kept := h.keeps
  empty n hn ht := by
    rw [h.mapping_eq hn rfl, mapping, pte_of_none ht]
    rfl
  frame := h.frame

/-- `allocuvm` maps the pages from `oldsz` to `newsz` to different pages of zeros, or it fails and takes
back all that it has done but for empty page tables. -/
theorem allocuvm_undoes (hs : Apart s pgdir) (hvalid : ∀ p ∈ s.freelist, Valid k p)
    (hle : oldsz ≤ newsz) (hnew : newsz < KERNBASE)
    (habsent : ∀ n, sizePages oldsz ≤ n → n < NUPAGES → mapping s.mem pgdir n = none) :
    ∃ r s', allocuvm k pgdir oldsz newsz s = .ok r s' ∧ Apart s' pgdir ∧
      (r = 0 → Undone pgdir s s') ∧
      (r ≠ 0 → r = newsz ∧ Extended pgdir (sizePages oldsz) (sizePages newsz) s s' ∧
        (users s'.mem pgdir (sizePages oldsz) (sizePages newsz)).Nodup ∧
        ∀ n < NPAGES, ¬ (sizePages oldsz ≤ n ∧ n < sizePages newsz) →
          mapping s'.mem pgdir n = mapping s.mem pgdir n) := by
  obtain ⟨r, s', hrun, ⟨rfl, h⟩ | ⟨rfl, used, h⟩⟩ :=
    (allocuvm_grows hs hvalid hnew habsent hle).returns
  · refine ⟨r, s', hrun, h.apart hs, fun hzero => ?_, fun _ => ⟨rfl, h, h.nodup hs, fun n => h.others⟩⟩
    -- nothing was asked for
    obtain ⟨used, hentered⟩ := h.entered
    have hnil : sizePages r ≤ sizePages oldsz := by
      rw [hzero]
      exact Nat.zero_le _
    rw [users_nil hnil] at hentered
    exact (hentered.congr (fun n _ => (if_neg (by omega)).symm) nofun).undone
  · exact ⟨0, s', hrun, h.apart hs, fun _ => h.undone, fun hne => absurd rfl hne⟩

/-- Three pages are asked for; with the page table that is one too many. -/
theorem allocuvm_undoes_three : ∃ r s', allocuvm smallKernel 0x80400000 0 12288 emptyDir = .ok r s' ∧
    (r = 0 → Undone 0x80400000 emptyDir s') ∧
    (r ≠ 0 → r = 12288 ∧ Extended 0x80400000 0 3 emptyDir s') := by
  obtain ⟨r, s', hrun, -, hzero, hsome⟩ := @allocuvm_undoes _ 0 12288 emptyDir smallKernel
    apart_emptyDir
    (by
      intro p hp
      simp only [emptyDir, List.mem_cons, List.not_mem_nil, or_false] at hp
      obtain rfl | rfl | rfl := hp <;> exact ⟨by decide, by decide, by decide⟩)
    (by decide) (by decide) fun n _ _ => mapping_zero _ n
  exact ⟨r, s', hrun, hzero, fun hr => ⟨(hsome hr).1, (hsome hr).2.1⟩⟩

end Xv6Container.Paging
