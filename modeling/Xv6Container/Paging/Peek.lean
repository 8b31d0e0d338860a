import Xv6Container.Paging.Copy

/-! The bytes of an address space by user address. A write through the kernel address of a page changes
the bytes of that page and no others, as no page is mapped twice; what is done to pages that do not
belong to the address space changes none. -/

namespace Xv6Container.Paging

open Lib
open Memory (PGSIZE KERNBASE PHYSTOP DEVSPACE UINT NPTENTRIES V2P PGROUNDUP)
open Memory.Copyout (PTE_P PTE_U flag PTE_ADDR P2V PDX PTX memmove)

variable {m m' q : ℕ → UInt8} {pgdir lo hi n a p x off buf len oldsz : ℕ} {s s' : Kmem} {k : Kernel}
  {used L P : List ℕ}

/-- The byte at a user address. -/
def peek (m : ℕ → UInt8) (pgdir a : ℕ) : Option UInt8 :=
  (userPage m pgdir (a / PGSIZE)).map fun p => m (p + a % PGSIZE)

/-- The two memories have the same address space. -/
structure Same (pgdir : ℕ) (m m' : ℕ → UInt8) : Prop where
  mapping : ∀ n < NPAGES, mapping m' pgdir n = mapping m pgdir n
  peek : ∀ a < KERNBASE, peek m' pgdir a = peek m pgdir a

theorem page_lt (ha : a < KERNBASE) : a / PGSIZE < NUPAGES ∧ a / PGSIZE < NPAGES ∧ a % PGSIZE < PGSIZE := by
  dsimp only [KERNBASE, PGSIZE, NUPAGES, NPAGES] at *
  omega

theorem userPage_mem {m : ℕ → UInt8} (hn : n < NUPAGES) (hp : userPage m pgdir n = some p) :
    p ∈ users m pgdir 0 NUPAGES :=
  List.mem_filterMap.2 ⟨n, mem_pagesFrom.2 ⟨Nat.zero_le n, hn⟩, hp⟩

theorem isPage_userPage {m : ℕ → UInt8} (hp : userPage m pgdir n = some p) : IsPage p := by
  obtain ⟨x, -, rfl⟩ := Option.map_eq_some_iff.1 hp
  exact isPage_P2V x

theorem peek_of_page {m : ℕ → UInt8} (hp : userPage m pgdir (a / PGSIZE) = some p) :
    peek m pgdir a = some (m (p + a % PGSIZE)) := by
  rw [peek, hp, Option.map_some]

/-- The byte of a page whose entry and content are the same. -/
theorem peek_congr (hmap : mapping m' pgdir (a / PGSIZE) = mapping m pgdir (a / PGSIZE))
    (hbyte : ∀ p, userPage m pgdir (a / PGSIZE) = some p → m' (p + a % PGSIZE) = m (p + a % PGSIZE)) :
    peek m' pgdir a = peek m pgdir a := by
  rw [peek, peek, userPage_congr hmap]
  cases hp : userPage m pgdir (a / PGSIZE) with
  | none => rfl
  | some p => rw [Option.map_some, Option.map_some, hbyte p hp]

namespace Same

/-- Other pages have been written to. -/
theorem of_frame (hdir : IsPage pgdir) (h : Frame P m m')
    (hP : ∀ p ∈ users m pgdir 0 NUPAGES ++ pgdir :: tables m pgdir, p ∉ P) : Same pgdir m m' := by
  obtain ⟨-, hpte⟩ := h.tables_eq hdir fun p hp => hP p (List.mem_append_right _ hp)
  have hmap : ∀ n < NPAGES, Paging.mapping m' pgdir n = Paging.mapping m pgdir n :=
    fun n hn => mapping_congr (hpte n hn)
  refine ⟨hmap, fun a ha => ?_⟩
  obtain ⟨huser, hpage, hlt⟩ := page_lt ha
  refine peek_congr (hmap _ hpage) fun p hp => ?_
  exact h.page (isPage_userPage hp) (hP p (List.mem_append_left _ (userPage_mem huser hp))) hlt

end Same

/-- Bytes are written to a page of the address space. -/
structure Written (pgdir va : ℕ) (q : ℕ → UInt8) (buf len : ℕ) (m m' : ℕ → UInt8) : Prop where
  mapping : ∀ n < NPAGES, mapping m' pgdir n = mapping m pgdir n
  peek : ∀ a < KERNBASE, peek m' pgdir a =
    if va ≤ a ∧ a < va + len then some (q (buf + (a - va))) else peek m pgdir a

namespace Written

variable {q' m'' : ℕ → UInt8} {va va' buf' len' : ℕ}

theorem congr (h : Written pgdir va q buf len m m') (hq : ∀ i < len, q (buf + i) = q' (buf' + i)) :
    Written pgdir va q' buf' len m m' := by
  refine ⟨h.mapping, fun a ha => ?_⟩
  rw [h.peek a ha]
  split_ifs with hin
  · rw [hq _ (by omega)]
  · rfl

/-- Nothing more is written. -/
theorem stay (h : Written pgdir va q buf len m m') (h' : Written pgdir va' q' buf' 0 m' m'') :
    Written pgdir va q buf len m m'' :=
  ⟨fun n hn => (h'.mapping n hn).trans (h.mapping n hn), fun a ha =>
    ((h'.peek a ha).trans (if_neg (by omega))).trans (h.peek a ha)⟩

/-- The next bytes are written. -/
theorem append (h : Written pgdir va q buf len m m')
    (h' : Written pgdir (va + len) q (buf + len) len' m' m'') :
    Written pgdir va q buf (len + len') m m'' := by
  refine ⟨fun n hn => (h'.mapping n hn).trans (h.mapping n hn), fun a ha => ?_⟩
  rw [h'.peek a ha, h.peek a ha]
  by_cases hlow : va ≤ a ∧ a < va + len
  · rw [if_neg (by omega), if_pos hlow, if_pos (by omega)]
  · by_cases hhigh : va + len ≤ a ∧ a < va + len + len'
    · have hdist : buf + len + (a - (va + len)) = buf + (a - va) := by omega
      rw [if_pos hhigh, if_pos (by omega), hdist]
    · rw [if_neg hhigh, if_neg hlow, if_neg (by omega)]

theorem nil (pgdir va : ℕ) (q : ℕ → UInt8) (buf : ℕ) (m : ℕ → UInt8) : Written pgdir va q buf 0 m m :=
  ⟨fun _ _ => rfl, fun _ _ => (if_neg (by omega)).symm⟩

end Written

theorem Owns.frame_memmove (h : Owns k s pgdir L) (hn : n < NUPAGES)
    (hp : userPage s.mem pgdir n = some p) (hlen : off + len ≤ PGSIZE) (q : ℕ → UInt8) (buf : ℕ) :
    Frame [p] s.mem (memmove s.mem (p + off) q buf len) ∧ p ∈ L ∧
      p ∉ s.freelist ++ pgdir :: tables s.mem pgdir :=
  ⟨.of_memmove (isPage_userPage hp) q buf hlen, h.user_mem (userPage_mem hn hp),
    h.user_notMem (userPage_mem hn hp)⟩

/-- A write within the page `n`. -/
theorem Owns.write (h : Owns k s pgdir L) (hn : n < NUPAGES) (hp : userPage s.mem pgdir n = some p)
    (hlen : off + len ≤ PGSIZE) :
    Written pgdir (n * PGSIZE + off) q buf len s.mem (memmove s.mem (p + off) q buf len) := by
  obtain ⟨hframe, -, hout⟩ := h.frame_memmove hn hp hlen q buf
  obtain ⟨-, hpte⟩ := hframe.tables_eq h.apart.dir fun t ht hmem => by
    obtain rfl := List.mem_singleton.1 hmem
    exact hout (List.mem_append_right _ ht)
  have hmap : ∀ n' < NPAGES, mapping (memmove s.mem (p + off) q buf len) pgdir n' =
      mapping s.mem pgdir n' := fun n' hn' => mapping_congr (hpte n' hn')
  refine ⟨hmap, fun a ha => ?_⟩
  obtain ⟨huser, hpage, hlt⟩ := page_lt ha
  by_cases heq : a / PGSIZE = n
  · subst heq
    have hp' : userPage (memmove s.mem (p + off) q buf len) pgdir (a / PGSIZE) = some p :=
      (userPage_congr (hmap _ hpage)).trans hp
    have hiff : p + off ≤ p + a % PGSIZE ∧ p + a % PGSIZE < p + off + len ↔
        a / PGSIZE * PGSIZE + off ≤ a ∧ a < a / PGSIZE * PGSIZE + off + len := by
      dsimp only [PGSIZE]
      omega
    have hdist : p + a % PGSIZE - (p + off) = a - (a / PGSIZE * PGSIZE + off) := by
      dsimp only [PGSIZE]
      omega
    rw [peek_of_page hp', peek_of_page hp, memmove, hdist]
    by_cases hin : a / PGSIZE * PGSIZE + off ≤ a ∧ a < a / PGSIZE * PGSIZE + off + len
    · rw [if_pos hin, if_pos (hiff.2 hin)]
    · rw [if_neg hin, if_neg fun hin' => hin (hiff.1 hin')]
  · have hrange : ¬ (n * PGSIZE + off ≤ a ∧ a < n * PGSIZE + off + len) := by
      dsimp only [PGSIZE] at *
      omega
    rw [if_neg hrange]
    refine peek_congr (hmap _ hpage) fun p' hp' => hframe.page (isPage_userPage hp') ?_ hlt
    rw [List.mem_singleton]
    rintro rfl
    have hnodup : (users s.mem pgdir 0 NUPAGES).Nodup := (List.nodup_append.1 h.parts).1
    exact heq (filterMap_inj hnodup (mem_pagesFrom.2 ⟨Nat.zero_le _, huser⟩)
      (mem_pagesFrom.2 ⟨Nat.zero_le _, hn⟩) hp' hp)

/-- The write leaves the address space. -/
theorem Space.write (h : Space k s pgdir L) (hn : n < NUPAGES) (hp : userPage s.mem pgdir n = some p)
    (hlen : off + len ≤ PGSIZE) :
    Space k { s with mem := memmove s.mem (p + off) q buf len } pgdir L ∧
      Frame L s.mem (memmove s.mem (p + off) q buf len) := by
  obtain ⟨hframe, hmem, hout⟩ := h.owns.frame_memmove hn hp hlen q buf
  have howns : Owns k { s with mem := memmove s.mem (p + off) q buf len } pgdir L := h.owns.frame hframe
    (fun t ht hmem' => hout (List.mem_append_right _ (List.mem_singleton.1 hmem' ▸ ht))) rfl
  refine ⟨h.of_mapping howns fun n' _ h2 => (h.owns.write hn hp hlen).mapping n' h2,
    hframe.mono fun p' hp' => ?_⟩
  rwa [List.mem_singleton.1 hp']

/-! ### An address space in place of another -/

/-- An address space made of free pages stays when the old one is freed. -/
theorem freevm_old {s₀ : Kmem} {old : ℕ} {L' : List ℕ} (hold : Owns k s₀ old L')
    (hnew : Space k s pgdir s₀.freelist) (hframe : Frame s₀.freelist s₀.mem s.mem) :
    ∃ t, freevm k old s = .ok () t ∧ Space k t pgdir L' ∧ Same pgdir s.mem t.mem := by
  have hdir : IsPage pgdir := hnew.owns.apart.dir
  -- the old address space is as it was
  have hsame : Same old s₀.mem s.mem := by
    refine .of_frame hold.apart.dir hframe fun p hp hmem => ?_
    obtain hp | hp := List.mem_append.1 hp
    · exact hold.user_notMem hp (List.mem_append_left _ hmem)
    · exact (List.nodup_append.1 hold.apart.nodup).2.2 p hmem p hp rfl
  have husers : users s.mem old 0 NUPAGES = users s₀.mem old 0 NUPAGES :=
    users_congr fun n _ hn => hsame.mapping n (hn.trans (by decide))
  have htables : tables s.mem old = tables s₀.mem old := by
    refine tables_congr (hframe.tables_eq hold.apart.dir fun p hp hmem => ?_).1
    exact (List.nodup_append.1 hold.apart.nodup).2.2 p hmem p hp rfl
  have hall : L'.Perm ((users s.mem pgdir 0 NUPAGES ++ pgdir :: tables s.mem pgdir) ++
      (users s.mem old 0 NUPAGES ++ (s.freelist ++ old :: tables s.mem old))) := by
    refine hold.perm.symm.trans ?_
    rw [husers, htables]
    refine List.perm_iff_count.2 fun a => ?_
    have hfree := List.perm_iff_count.1 hnew.owns.perm a
    simp only [List.count_append, List.count_cons] at hfree ⊢
    omega
  have hparts := List.nodup_append.1 (hall.nodup_iff.1 hold.nodup)
  have howns : Owns k s old (users s.mem old 0 NUPAGES ++ (s.freelist ++ old :: tables s.mem old)) :=
    ⟨.refl _, hparts.2.1, fun p hp => hold.valid p (hall.mem_iff.2 (List.mem_append_right _ hp))⟩
  obtain ⟨t, hrun, hperm, hframe'⟩ := freevm_frees howns
  have hout : ∀ p ∈ users s.mem pgdir 0 NUPAGES ++ pgdir :: tables s.mem pgdir,
      p ∉ users s.mem old 0 NUPAGES ++ (s.freelist ++ old :: tables s.mem old) :=
    fun p hp hmem => hparts.2.2 p hp p hmem rfl
  have hsame' := Same.of_frame hdir hframe' hout
  have htables' : tables t.mem pgdir = tables s.mem pgdir :=
    tables_congr (hframe'.tables_eq hdir fun p hp => hout p (List.mem_append_right _ hp)).1
  have husers' : users t.mem pgdir 0 NUPAGES = users s.mem pgdir 0 NUPAGES :=
    users_congr fun n _ hn => hsame'.mapping n (hn.trans (by decide))
  refine ⟨t, hrun, hnew.of_mapping ⟨?_, hold.nodup, hold.valid⟩ fun n _ h2 => hsame'.mapping n h2, hsame'⟩
  rw [htables', husers']
  refine .trans ?_ hall.symm
  refine List.perm_iff_count.2 fun a => ?_
  have hfree := List.perm_iff_count.1 hperm a
  simp only [List.count_append, List.count_cons] at hfree ⊢
  omega

/-! ### Growth -/

/-- The user part is the pages below `n`, and the user may reach all of them. -/
structure UserPart (m : ℕ → UInt8) (pgdir n : ℕ) : Prop where
  present : ∀ i < n, ∃ x, mapping m pgdir i = some x ∧ flag x PTE_U = true
  absent : ∀ i, n ≤ i → i < NUPAGES → mapping m pgdir i = none

theorem UserPart.of_mapping (h : UserPart m pgdir n) (hn : n ≤ NUPAGES)
    (hmap : ∀ i < NPAGES, mapping m' pgdir i = mapping m pgdir i) : UserPart m' pgdir n := by
  have hlt : NUPAGES < NPAGES := by decide
  refine ⟨fun i hi => ?_, fun i h1 h2 => (hmap i (h2.trans hlt)).trans (h.absent i h1 h2)⟩
  rw [hmap i ((hi.trans_le hn).trans hlt)]
  exact h.present i hi

theorem UserPart.page (h : UserPart m pgdir n) {i : ℕ} (hi : i < n) :
    ∃ p, userPage m pgdir i = some p := by
  obtain ⟨x, hx, -⟩ := h.present i hi
  exact ⟨P2V (PTE_ADDR x), by rw [userPage, hx]; rfl⟩

section Extend

variable (h : Space k s pgdir L) (hu : UserPart s.mem pgdir lo) (hlo : lo ≤ hi) (hhi : hi ≤ NUPAGES)
  (he : Extended pgdir lo hi s s')
include hu hlo hhi he

theorem Extended.users_eq :
    users s'.mem pgdir 0 NUPAGES = users s.mem pgdir 0 NUPAGES ++ users s'.mem pgdir lo hi := by
  have hlt : NUPAGES < NPAGES := by decide
  have hlow : users s'.mem pgdir 0 lo = users s.mem pgdir 0 lo :=
    users_congr fun n _ h2 => he.others (by omega) (by omega)
  have hnone : ∀ {m : ℕ → UInt8} {j : ℕ}, (∀ n, j ≤ n → n < NUPAGES → mapping m pgdir n = none) →
      users m pgdir j NUPAGES = [] := by
    intro m j hj
    refine List.filterMap_eq_nil_iff.2 fun n hn => ?_
    obtain ⟨h1, h2⟩ := mem_pagesFrom.1 hn
    rw [userPage, hj n h1 h2]
    rfl
  have htop : users s'.mem pgdir hi NUPAGES = [] := hnone fun n h1 h2 =>
    (he.others (h2.trans hlt) (by omega)).trans (hu.absent n (by omega) h2)
  have hold : users s.mem pgdir lo NUPAGES = [] := hnone hu.absent
  rw [← users_append (Nat.zero_le lo) (hlo.trans hhi), ← users_append hlo hhi, htop, hlow,
    ← users_append (Nat.zero_le lo) (hlo.trans hhi), hold, List.append_nil, List.append_nil]

include h

theorem Extended.space : Space k s' pgdir L ∧ Frame L s.mem s'.mem ∧ UserPart s'.mem pgdir hi := by
  have hlt : NUPAGES < NPAGES := by decide
  obtain ⟨used, hentered⟩ := he.entered
  have howns : Owns k s' pgdir L := by
    refine ⟨.trans ?_ h.owns.perm, h.owns.nodup, h.owns.valid⟩
    rw [he.users_eq hu hlo hhi, List.append_assoc]
    exact hentered.perm.symm.append_left _
  refine ⟨h.of_mapping howns fun n h1 h2 => he.others h2 (by omega),
    hentered.frame.mono fun p hp => h.owns.rest_mem hp, fun i hi => ?_, fun i h1 h2 => ?_⟩
  · by_cases hin : lo ≤ i
    · obtain ⟨p, hp, hmap, -⟩ := he.zero i hin hi
      have hpage := (h.owns.apart.free p hp)
      refine ⟨_, hmap, ?_⟩
      rw [newEntry, user_entry (V2P_aligned hpage).1]
      rfl
    · rw [he.others (by omega) (by omega)]
      exact hu.present i (by omega)
  · rw [he.others (by omega) (by omega)]
    exact hu.absent i (by omega) h2

omit hu hlo hhi in
/-- The new pages are zero, the others as they were. -/
theorem Extended.peek_eq (ha : a < KERNBASE) : peek s'.mem pgdir a =
    if lo * PGSIZE ≤ a ∧ a < hi * PGSIZE then some 0 else peek s.mem pgdir a := by
  obtain ⟨huser, hpage, hlt⟩ := page_lt ha
  obtain ⟨used, hentered⟩ := he.entered
  by_cases hin : lo * PGSIZE ≤ a ∧ a < hi * PGSIZE
  · rw [if_pos hin]
    obtain ⟨p, hp, hmap, hzero⟩ := he.zero (a / PGSIZE) (by dsimp only [PGSIZE] at *; omega)
      (by dsimp only [PGSIZE] at *; omega)
    rw [peek_of_page (userPage_newEntry (h.owns.apart.free p hp) hmap), hzero _ hlt]
  · rw [if_neg hin]
    refine peek_congr (he.others hpage (by dsimp only [PGSIZE] at *; omega)) fun p hp => ?_
    exact hentered.frame.page (isPage_userPage hp) (h.owns.user_notMem (userPage_mem huser hp)) hlt

end Extend

/-- `allocuvm` in an address space whose user part has the size `oldsz`. -/
theorem Space.allocuvm (h : Space k s pgdir L) (hu : UserPart s.mem pgdir (sizePages oldsz))
    (newsz : ℕ) :
    Ends (fun r s' => Space k s' pgdir L ∧ Frame L s.mem s'.mem ∧
        (r ≠ 0 → newsz < KERNBASE ∧ r = max oldsz newsz ∧ UserPart s'.mem pgdir (sizePages r) ∧
          ∀ a < KERNBASE, peek s'.mem pgdir a = if sizePages oldsz * PGSIZE ≤ a ∧ a < sizePages r * PGSIZE
            then some 0 else peek s.mem pgdir a))
      (fun _ => False) (allocuvm k pgdir oldsz newsz s) := by
  by_cases hnew : newsz < KERNBASE
  · by_cases hle : oldsz ≤ newsz
    · have hmono : sizePages oldsz ≤ sizePages newsz := by
        unfold sizePages
        exact Nat.div_le_div_right (by omega)
      have hpages := sizePages_le hnew.le
      have hvalid : ∀ p ∈ s.freelist, Valid k p := fun p hp => h.owns.valid p (h.owns.free_mem hp)
      refine (allocuvm_grows h.owns.apart hvalid hnew hu.absent hle).post fun r s' hr => ?_
      obtain ⟨rfl, he⟩ | ⟨rfl, used, hentered⟩ := hr
      · obtain ⟨hspace, hframe, hpart⟩ := he.space h hu hmono hpages
        exact ⟨hspace, hframe, fun _ => ⟨hnew, (Nat.max_eq_right hle).symm, hpart,
          fun a ha => he.peek_eq h ha⟩⟩
      · refine ⟨h.of_mapping (h.owns.entered hentered fun _ _ => rfl) fun n _ h2 =>
          hentered.mapping_eq h2 rfl, hentered.frame.mono fun p hp => h.owns.rest_mem hp,
          fun hne => absurd rfl hne⟩
    · rw [Paging.allocuvm, if_neg (by omega), if_pos (by omega)]
      refine ends_ok.2 ⟨h, .refl _ _, fun _ => ⟨hnew, (Nat.max_eq_left (by omega)).symm, hu, fun a _ => ?_⟩⟩
      rw [if_neg (by omega)]
  · rw [Paging.allocuvm, if_pos (by omega)]
    exact ends_ok.2 ⟨h, .refl _ _, fun hne => absurd rfl hne⟩

/-! ### The guard page -/

theorem mapping_lt {m : ℕ → UInt8} (hx : mapping m pgdir n = some x) : x < UINT := by
  obtain ⟨t, -, rfl⟩ := Option.map_eq_some_iff.1 (mapping_eq_some.1 hx).1
  exact word_lt m _

/-- The word without `PTE_U`. -/
theorem clear_user (hx : x < UINT) : (x &&& (UINT - 1 - PTE_U)) < UINT ∧
    flag (x &&& (UINT - 1 - PTE_U)) PTE_P = flag x PTE_P ∧
    flag (x &&& (UINT - 1 - PTE_U)) PTE_U = false ∧
    PTE_ADDR (x &&& (UINT - 1 - PTE_U)) = PTE_ADDR x := by
  have hpresent : (x &&& (UINT - 1 - PTE_U)) % 2 ^ 1 = x % 2 := by
    rw [Nat.and_mod_two_pow]
    change x % 2 &&& (2 ^ 1 - 1) = x % 2
    rw [Nat.and_two_pow_sub_one_eq_mod]
    omega
  have huser : (x &&& (UINT - 1 - PTE_U)) / 2 ^ 2 % 2 ^ 1 = 0 := by
    rw [Nat.and_div_two_pow, Nat.and_mod_two_pow]
    exact Nat.and_zero _
  have haddr : (x &&& (UINT - 1 - PTE_U)) / 2 ^ 12 = x / 2 ^ 12 := by
    rw [Nat.and_div_two_pow]
    change x / 2 ^ 12 &&& (2 ^ 20 - 1) = _
    rw [Nat.and_two_pow_sub_one_eq_mod, Nat.mod_eq_of_lt]
    dsimp only [UINT] at hx
    omega
  refine ⟨Nat.and_le_left.trans_lt hx, ?_, ?_, ?_⟩
  · unfold flag
    rw [Nat.div_one, Nat.div_one]
    exact congrArg (· == 1) hpresent
  · unfold flag
    exact beq_false_of_ne fun hone => absurd (hone.symm.trans huser) (by decide)
  · exact congrArg (· * PGSIZE) haddr

/-- `clearpteu` takes a page from the user. -/
theorem Space.clearpteu (h : Space k s pgdir L) (hn : n < NUPAGES)
    (hx : mapping s.mem pgdir n = some x) :
    ∃ s', clearpteu pgdir (n * PGSIZE) s = .ok () s' ∧ Space k s' pgdir L ∧
      Frame L s.mem s'.mem ∧ (∃ y, mapping s'.mem pgdir n = some y ∧ flag y PTE_U = false) ∧
      (∀ i < NPAGES, i ≠ n → mapping s'.mem pgdir i = mapping s.mem pgdir i) ∧
      ∀ a < KERNBASE, peek s'.mem pgdir a = peek s.mem pgdir a := by
  have hlt : n < NPAGES := hn.trans (by decide)
  obtain ⟨hpte, hflag⟩ := mapping_eq_some.1 hx
  obtain ⟨t, ht, hword⟩ := Option.map_eq_some_iff.1 hpte
  obtain ⟨hbound, hpresent, huser, haddr⟩ := clear_user (mapping_lt hx)
  generalize hy : (x &&& (UINT - 1 - PTE_U)) = y at *
  have hentered := entered_store h.owns.apart.directory hlt ht hbound (hpresent.trans hflag)
  have hrun : Paging.clearpteu pgdir (n * PGSIZE) s =
      .ok () { s with mem := setWord s.mem (t + 4 * (n % NPTENTRIES)) y } := by
    rw [Paging.clearpteu, run_bind_ok (walk_some false hlt ht)]
    dsimp only
    rw [run_load_bind, hword, hy, run_store]
  generalize ({ s with mem := setWord s.mem (t + 4 * (n % NPTENTRIES)) y } : Kmem) = s' at *
  have hnew : mapping s'.mem pgdir n = some y := hentered.mapping_set hlt (if_pos rfl)
  have hother : ∀ i < NPAGES, i ≠ n → mapping s'.mem pgdir i = mapping s.mem pgdir i :=
    fun i hi hne => hentered.mapping_eq hi (if_neg hne)
  have hpage : ∀ i < NPAGES, userPage s'.mem pgdir i = userPage s.mem pgdir i := by
    intro i hi
    by_cases hin : i = n
    · rw [hin, userPage, userPage, hnew, hx, Option.map_some, Option.map_some, haddr]
    · exact userPage_congr (hother i hi hin)
  refine ⟨s', hrun, h.of_mapping ?_ fun i h1 h2 => hother i h2 (by omega),
    hentered.frame.mono fun p hp => h.owns.rest_mem hp, ⟨y, hnew, huser⟩, hother, fun a ha => ?_⟩
  · refine ⟨.trans ?_ h.owns.perm, h.owns.nodup, h.owns.valid⟩
    have husers : users s'.mem pgdir 0 NUPAGES = users s.mem pgdir 0 NUPAGES :=
      List.filterMap_congr fun i hi => hpage i ((mem_pagesFrom.1 hi).2.trans (by decide))
    rw [husers]
    exact hentered.perm.symm.append_left _
  · obtain ⟨hnu, hnp, hoff⟩ := page_lt ha
    rw [peek, peek, hpage _ hnp]
    cases hp : userPage s.mem pgdir (a / PGSIZE) with
    | none => rfl
    | some p =>
      have hout := h.owns.user_notMem (userPage_mem hnu hp)
      rw [Option.map_some, Option.map_some, hentered.frame.page (isPage_userPage hp) hout hoff]

end Xv6Container.Paging
