import Xv6Container.Lib.Slots
import Xv6Container.Paging.Vm

/-! What a page directory in memory says: the page table of each 4 MB, and the entry of each page.
Pages are numbered by address, page `n` is at `n * PGSIZE`. -/

namespace Xv6Container.Paging

open Lib
open Memory (PGSIZE KERNBASE PHYSTOP DEVSPACE UINT NPTENTRIES V2P PGROUNDUP)
open Memory.Copyout (PTE_P PTE_U flag PTE_ADDR P2V PDX PTX memmove)

variable {m m' : ℕ → UInt8} {pgdir p t : ℕ} {i j n a w pa perm : ℕ} {s : Kmem} {k : Kernel}
  {α : Type}

@[simp] theorem run_load_bind (a : ℕ) (f : ℕ → Run α) : (load a >>= f) s = f (word s.mem a) s := rfl

@[simp] theorem run_store (a w : ℕ) : store a w s = .ok () { s with mem := setWord s.mem a w } := rfl

@[simp] theorem run_store_bind (a w : ℕ) (f : Unit → Run α) :
    (store a w >>= f) s = f () { s with mem := setWord s.mem a w } := rfl

@[simp] theorem run_memset_bind (a : ℕ) (v : UInt8) (n : ℕ) (f : Unit → Run α) :
    (memset a v n >>= f) s = f () { s with mem := fill s.mem a v n } := rfl

theorem kalloc_nil (h : s.freelist = []) : kalloc s = .ok none s := by
  rw [kalloc, run_get_bind, h]
  rfl

theorem kalloc_cons {p : ℕ} {next : List ℕ} (h : s.freelist = p :: next) :
    kalloc s = .ok (some p) ⟨next, s.mem⟩ := by
  rw [kalloc, run_get_bind, h]
  rfl

/-- The number of pages of the address space, and of the user part. -/
abbrev NPAGES : ℕ := 0x100000
abbrev NUPAGES : ℕ := 0x80000

/-! ### Pages -/

/-- The first byte of a page. -/
def IsPage (p : ℕ) : Prop := p % PGSIZE = 0 ∧ p < UINT

instance (p : ℕ) : Decidable (IsPage p) := inferInstanceAs (Decidable (_ ∧ _))

/-- A page that `kfree` takes. -/
structure Valid (k : Kernel) (p : ℕ) : Prop where
  page : IsPage p
  image : k.kernelEnd ≤ p
  physical : V2P p < PHYSTOP

theorem Kernel.base_lt (k : Kernel) : KERNBASE < k.kernelEnd := by
  have h1 := k.text_lt
  have h2 := k.data_le
  dsimp only [KERNLINK, EXTMEM] at h1
  omega

theorem Valid.range (h : Valid k p) : KERNBASE < p ∧ p < KERNBASE + PHYSTOP := by
  have hbase := k.base_lt
  have himage := h.image
  have hphysical := h.physical
  have hpage := h.page.2
  unfold V2P at hphysical
  dsimp only [KERNBASE, PHYSTOP, UINT] at *
  omega

theorem P2V_V2P (h : p < UINT) : P2V (V2P p) = p := by
  unfold P2V V2P
  dsimp only [KERNBASE, UINT] at *
  omega

theorem isPage_P2V (w : ℕ) : IsPage (P2V (PTE_ADDR w)) := by
  unfold IsPage P2V PTE_ADDR
  dsimp only [KERNBASE, UINT, PGSIZE]
  omega

theorem V2P_aligned (h : IsPage p) : V2P p % PGSIZE = 0 ∧ V2P p < UINT := by
  unfold IsPage V2P at *
  dsimp only [KERNBASE, UINT, PGSIZE] at *
  omega

/-- The memory is the same but for the pages in `P`. -/
def Frame (P : List ℕ) (m m' : ℕ → UInt8) : Prop := ∀ a, PGROUNDDOWN a ∉ P → m' a = m a

theorem PGROUNDDOWN_add (hp : IsPage p) (ha : a < PGSIZE) : PGROUNDDOWN (p + a) = p := by
  unfold PGROUNDDOWN IsPage at *
  dsimp only [PGSIZE] at *
  omega

namespace Frame

theorem refl (P : List ℕ) (m : ℕ → UInt8) : Frame P m m := fun _ _ => rfl

theorem mono {P Q : List ℕ} (h : Frame P m m') (hPQ : ∀ p ∈ P, p ∈ Q) : Frame Q m m' :=
  fun a ha => h a fun hp => ha (hPQ _ hp)

theorem trans {P : List ℕ} {m'' : ℕ → UInt8} (h : Frame P m m') (h' : Frame P m' m'') :
    Frame P m m'' :=
  fun a ha => (h' a ha).trans (h a ha)

/-- A page that is not touched. -/
theorem page {P : List ℕ} (h : Frame P m m') (hp : IsPage p) (hP : p ∉ P) (ha : a < PGSIZE) :
    m' (p + a) = m (p + a) := by
  apply h
  rwa [PGROUNDDOWN_add hp ha]

theorem word {P : List ℕ} (h : Frame P m m') (hp : IsPage p) (hP : p ∉ P)
    (hi : i < NPTENTRIES) : word m' (p + 4 * i) = word m (p + 4 * i) := by
  refine word_congr fun b h1 h2 => ?_
  dsimp only [NPTENTRIES] at hi
  obtain ⟨c, rfl⟩ : ∃ c, b = p + c := ⟨b - p, by omega⟩
  exact h.page hp hP (by dsimp only [PGSIZE]; omega)

theorem of_fill (hp : IsPage p) (v : UInt8) : Frame [p] m (fill m p v PGSIZE) := by
  intro a ha
  refine fill_of_notMem fun hmem => ha ?_
  rw [List.mem_singleton]
  unfold PGROUNDDOWN IsPage at *
  dsimp only [PGSIZE] at *
  omega

theorem of_setWord (hp : IsPage p) (hi : i < NPTENTRIES) (w : ℕ) :
    Frame [p] m (setWord m (p + 4 * i) w) := by
  intro a ha
  refine setWord_of_notMem fun hmem => ha ?_
  rw [List.mem_singleton]
  unfold PGROUNDDOWN IsPage at *
  dsimp only [PGSIZE, NPTENTRIES] at *
  omega

theorem of_memmove (hp : IsPage p) (q : ℕ → UInt8) (buf : ℕ) {n : ℕ} (hn : a + n ≤ PGSIZE) :
    Frame [p] m (memmove m (p + a) q buf n) := by
  intro b hb
  refine if_neg fun hmem => hb ?_
  rw [List.mem_singleton]
  unfold PGROUNDDOWN IsPage at *
  dsimp only [PGSIZE] at *
  omega

end Frame

/-! ### Entries -/

/-- The word `pa | perm | PTE_P` of a page table. -/
theorem mod_entry (hpa : pa % PGSIZE = 0) (hperm : perm < PGSIZE) :
    (pa ||| perm ||| PTE_P) % PGSIZE = perm ||| PTE_P := by
  change _ % 2 ^ 12 = _
  change pa % 2 ^ 12 = 0 at hpa
  rw [Nat.or_mod_two_pow, Nat.or_mod_two_pow, hpa, Nat.zero_or, Nat.mod_eq_of_lt hperm]
  rfl

theorem addr_entry (hpa : pa % PGSIZE = 0) (hperm : perm < PGSIZE) :
    PTE_ADDR (pa ||| perm ||| PTE_P) = pa := by
  have hdiv : (pa ||| perm ||| PTE_P) / 2 ^ 12 = pa / 2 ^ 12 := by
    have hzero : perm / 2 ^ 12 = 0 := Nat.div_eq_of_lt hperm
    rw [Nat.or_div_two_pow, Nat.or_div_two_pow, hzero, Nat.or_zero]
    exact Nat.or_zero _
  change _ / 2 ^ 12 * 2 ^ 12 = pa
  change pa % 2 ^ 12 = 0 at hpa
  rw [hdiv]
  omega

theorem entry_lt (hpa : pa % PGSIZE = 0) (hpa' : pa < UINT) (hperm : perm < PGSIZE) :
    (pa ||| perm ||| PTE_P) < UINT := by
  have haddr := addr_entry hpa hperm
  unfold PTE_ADDR at haddr
  dsimp only [PGSIZE, UINT] at *
  omega

theorem present_entry (pa perm : ℕ) : flag (pa ||| perm ||| PTE_P) PTE_P = true := by
  rw [flag, beq_iff_eq]
  change (_ ||| 1) / 1 % 2 = 1
  rw [Nat.div_one, Nat.or_mod_two_eq_one]
  exact .inr rfl

/-- The entry lets the user in if the permissions do. -/
theorem user_entry (hpa : pa % PGSIZE = 0) : flag (pa ||| perm ||| PTE_P) PTE_U = flag perm PTE_U := by
  have hzero : pa / 2 ^ 2 % 2 = 0 := by
    dsimp only [PGSIZE] at hpa
    omega
  have hiff : (pa ||| perm ||| PTE_P) / 2 ^ 2 % 2 = 1 ↔ perm / 2 ^ 2 % 2 = 1 := by
    rw [Nat.or_div_two_pow, Nat.or_div_two_pow, Nat.or_mod_two_eq_one, Nat.or_mod_two_eq_one, hzero]
    simp
  rw [Bool.eq_iff_iff, flag, flag, beq_iff_eq, beq_iff_eq]
  exact hiff

/-- The word of a page directory for a new page table. -/
theorem pde_entry (hp : IsPage p) :
    flag (V2P p ||| PTE_P ||| PTE_W ||| PTE_U) PTE_P = true ∧
      P2V (PTE_ADDR (V2P p ||| PTE_P ||| PTE_W ||| PTE_U)) = p ∧
      (V2P p ||| PTE_P ||| PTE_W ||| PTE_U) < UINT := by
  obtain ⟨haligned, hlt⟩ := V2P_aligned hp
  have hword : V2P p ||| PTE_P ||| PTE_W ||| PTE_U = V2P p ||| 6 ||| PTE_P := by
    rw [Nat.or_assoc, Nat.or_assoc, Nat.or_assoc]
    rfl
  rw [hword]
  refine ⟨present_entry _ _, ?_, entry_lt haligned hlt (by decide)⟩
  rw [addr_entry haligned (by decide), P2V_V2P hp.2]

/-! ### Page tables -/

/-- The page table for the pages `1024 * i` and on. -/
def table (m : ℕ → UInt8) (pgdir : ℕ) (i : ℕ) : Option ℕ :=
  let w := word m (pgdir + 4 * i)
  if flag w PTE_P then some (P2V (PTE_ADDR w)) else none

/-- The entry of page `n`, present or not; there is none without a page table. -/
def pte (m : ℕ → UInt8) (pgdir : ℕ) (n : ℕ) : Option ℕ :=
  (table m pgdir (n / NPTENTRIES)).map fun t => word m (t + 4 * (n % NPTENTRIES))

/-- The entry of page `n`, if it is present. -/
def mapping (m : ℕ → UInt8) (pgdir : ℕ) (n : ℕ) : Option ℕ :=
  (pte m pgdir n).filter fun w => flag w PTE_P

/-- The numbers of the entries of a page directory. -/
@[irreducible] def dirSlots : List ℕ := List.range NPTENTRIES

/-- The numbers of the pages from `lo` to `hi`. -/
@[irreducible] def pagesFrom (lo hi : ℕ) : List ℕ := List.range' lo (hi - lo)

/-- The page tables. -/
def tables (m : ℕ → UInt8) (pgdir : ℕ) : List ℕ := dirSlots.filterMap (table m pgdir)

/-- The page that page `n` is mapped to, by kernel address. -/
def userPage (m : ℕ → UInt8) (pgdir : ℕ) (n : ℕ) : Option ℕ :=
  (mapping m pgdir n).map fun w => P2V (PTE_ADDR w)

/-- The pages that the pages from `lo` to `hi` are mapped to. -/
def users (m : ℕ → UInt8) (pgdir : ℕ) (lo hi : ℕ) : List ℕ :=
  (pagesFrom lo hi).filterMap (userPage m pgdir)

theorem mem_dirSlots : i ∈ dirSlots ↔ i < NPTENTRIES := by
  unfold dirSlots
  exact List.mem_range

theorem nodup_dirSlots : dirSlots.Nodup := by
  unfold dirSlots
  exact List.nodup_range

theorem mem_pagesFrom {lo hi : ℕ} : n ∈ pagesFrom lo hi ↔ lo ≤ n ∧ n < hi := by
  unfold pagesFrom
  rw [List.mem_range'_1]
  omega

theorem nodup_pagesFrom (lo hi : ℕ) : (pagesFrom lo hi).Nodup := by
  unfold pagesFrom
  exact List.nodup_range' _ (by decide)

theorem isPage_table (h : table m pgdir i = some t) : IsPage t := by
  dsimp only [table] at h
  split_ifs at h
  rw [← Option.some.inj h]
  exact isPage_P2V _

theorem table_congr (h : word m' (pgdir + 4 * i) = word m (pgdir + 4 * i)) :
    table m' pgdir i = table m pgdir i := by
  unfold table
  rw [h]

theorem mem_tables (hi : i < NPTENTRIES) (h : table m pgdir i = some t) : t ∈ tables m pgdir :=
  List.mem_filterMap.2 ⟨i, mem_dirSlots.2 hi, h⟩

theorem mapping_eq_some : mapping m pgdir n = some w ↔ pte m pgdir n = some w ∧ flag w PTE_P = true := by
  rw [mapping, Option.filter_eq_some_iff]

theorem mapping_congr (h : pte m' pgdir n = pte m pgdir n) : mapping m' pgdir n = mapping m pgdir n := by
  rw [mapping, mapping, h]

theorem userPage_congr (h : mapping m' pgdir n = mapping m pgdir n) :
    userPage m' pgdir n = userPage m pgdir n := by
  rw [userPage, userPage, h]

theorem pte_of_table (h : table m pgdir (n / NPTENTRIES) = some t) :
    pte m pgdir n = some (word m (t + 4 * (n % NPTENTRIES))) := by
  rw [pte, h, Option.map_some]

theorem pte_of_none (h : table m pgdir (n / NPTENTRIES) = none) : pte m pgdir n = none := by
  rw [pte, h, Option.map_none]

/-! ### Ranges of pages -/

variable {lo mid hi : ℕ}

theorem pagesFrom_nil (h : hi ≤ lo) : pagesFrom lo hi = [] := by
  unfold pagesFrom
  rw [Nat.sub_eq_zero_of_le h]
  rfl

theorem pagesFrom_cons (h : lo < hi) : pagesFrom lo hi = lo :: pagesFrom (lo + 1) hi := by
  have hsub : hi - lo = hi - (lo + 1) + 1 := by omega
  unfold pagesFrom
  rw [hsub]
  rfl

theorem pagesFrom_append (h1 : lo ≤ mid) (h2 : mid ≤ hi) :
    pagesFrom lo mid ++ pagesFrom mid hi = pagesFrom lo hi := by
  obtain ⟨a, rfl⟩ := Nat.exists_eq_add_of_le h1
  obtain ⟨b, rfl⟩ := Nat.exists_eq_add_of_le h2
  have hab : lo + a + b - lo = a + b := by omega
  unfold pagesFrom
  rw [hab, Nat.add_sub_cancel_left, Nat.add_sub_cancel_left, List.range'_append_1]

theorem users_nil (h : hi ≤ lo) : users m pgdir lo hi = [] := by
  rw [users, pagesFrom_nil h]
  rfl

theorem users_append (h1 : lo ≤ mid) (h2 : mid ≤ hi) :
    users m pgdir lo mid ++ users m pgdir mid hi = users m pgdir lo hi := by
  rw [users, users, users, ← pagesFrom_append h1 h2, List.filterMap_append]

theorem users_one_none (h : mapping m pgdir n = none) : users m pgdir n (n + 1) = [] := by
  rw [users, pagesFrom_cons (by omega), pagesFrom_nil (le_refl _),
    List.filterMap_cons_none (by rw [userPage, h]; rfl)]
  rfl

theorem users_one_some {x : ℕ} (h : mapping m pgdir n = some x) :
    users m pgdir n (n + 1) = [P2V (PTE_ADDR x)] := by
  rw [users, pagesFrom_cons (by omega), pagesFrom_nil (le_refl _),
    List.filterMap_cons_some (by rw [userPage, h]; rfl)]
  rfl

theorem users_congr {m' : ℕ → UInt8}
    (h : ∀ n, lo ≤ n → n < hi → mapping m' pgdir n = mapping m pgdir n) :
    users m' pgdir lo hi = users m pgdir lo hi := by
  refine List.filterMap_congr fun n hn => userPage_congr ?_
  obtain ⟨h1, h2⟩ := mem_pagesFrom.1 hn
  exact h n h1 h2

end Xv6Container.Paging
