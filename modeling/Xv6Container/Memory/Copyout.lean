import Mathlib.Data.UInt
import Xv6Container.Memory.Vm

/-! `copyout` writes bytes into an address space page by page. It finds each page with `walkpgdir`,
whose answer is a null pointer where the address space has no page table, and `uva2ka` follows that
pointer without a test: it then takes the word at address 0 of the running process for a page table
entry. `exec` calls it with a stack pointer that has wrapped around if an argument is longer than
the image, so the range may lie anywhere. -/

namespace Xv6Container.Memory.Copyout

/-! ### Page tables -/

abbrev PTE_P : ℕ := 0x001
abbrev PTE_U : ℕ := 0x004

/-- A bit of a page table entry is set. -/
def flag (pte bit : ℕ) : Bool := pte / bit % 2 == 1

def PTE_ADDR (pte : ℕ) : ℕ := pte / PGSIZE * PGSIZE

def P2V (a : ℕ) : ℕ := (a + KERNBASE) % UINT

def PDX (va : ℕ) : Fin 1024 := ⟨va / 0x400000 % 1024, Nat.mod_lt _ (by decide)⟩

def PTX (va : ℕ) : Fin 1024 := ⟨va / PGSIZE % 1024, Nat.mod_lt _ (by decide)⟩

/-- An entry that is present and user-accessible. -/
def user (pte : ℕ) : Prop := flag pte PTE_P = true ∧ flag pte PTE_U = true

instance (pte : ℕ) : Decidable (user pte) := inferInstanceAs (Decidable (_ ∧ _))

/-- The page tables of an address space, `none` where the entry of the page directory is not present.
The pages a user may reach come from `kalloc`, and none is mapped twice. -/
structure Pgdir where
  table : Fin 1024 → Option (Fin 1024 → ℕ)
  physical : ∀ i t j, table i = some t → user (t j) → PTE_ADDR (t j) < PHYSTOP
  once : ∀ i t j i' t' j', table i = some t → user (t j) → table i' = some t' → user (t' j') →
    PTE_ADDR (t j) = PTE_ADDR (t' j') → i = i' ∧ j = j'

/-- `walkpgdir(pgdir, va, 0)`: the entry of a page, `none` for a null pointer. -/
def walkpgdir (d : Pgdir) (va : ℕ) : Option ℕ := (d.table (PDX va)).map fun t => t (PTX va)

/-- `uva2ka`, with the word at address 0 of the running process; the first component says whether
the null pointer has been followed. -/
def uva2ka (d : Pgdir) (nullPte uva : ℕ) : Bool × ℕ :=
  let pte := walkpgdir d uva
  let word := pte.getD nullPte
  (pte.isNone,
    if flag word PTE_P = false then 0
    else if flag word PTE_U = false then 0
    else P2V (PTE_ADDR word))

/-- `n` bytes of `p` from `buf` on are written to `dst`. -/
def memmove (mem : ℕ → UInt8) (dst : ℕ) (p : ℕ → UInt8) (buf n : ℕ) : ℕ → UInt8 :=
  fun a => if dst ≤ a ∧ a < dst + n then p (buf + (a - dst)) else mem a

/-- The result of `copyout`, the memory after it by kernel address, and whether a null pointer has
been followed. -/
structure Result where
  ret : ℤ
  mem : ℕ → UInt8
  nullRead : Bool

/-- The loop of `copyout`, with fuel for one page each time. -/
def copyoutLoop (d : Pgdir) (nullPte : ℕ) (p : ℕ → UInt8) : ℕ → (ℕ → UInt8) → ℕ → ℕ → ℕ → Result
  | 0, mem, _, _, _ => ⟨0, mem, false⟩
  | fuel + 1, mem, va, buf, len =>
    if len > 0 then
      let va0 := va / PGSIZE * PGSIZE
      let (null, pa0) := uva2ka d nullPte va0
      if pa0 = 0 then ⟨-1, mem, null⟩
      else
        let n := min (PGSIZE - (va - va0)) len
        let r := copyoutLoop d nullPte p fuel (memmove mem (pa0 + (va - va0)) p buf n)
          ((va0 + PGSIZE) % UINT) (buf + n) (len - n)
        { r with nullRead := null || r.nullRead }
    else ⟨0, mem, false⟩

/-- `copyout(pgdir, va, p, len)` -/
def copyout (d : Pgdir) (nullPte : ℕ) (mem : ℕ → UInt8) (va : UInt32) (p : ℕ → UInt8)
    (len : UInt32) : Result :=
  copyoutLoop d nullPte p len.toNat mem va.toNat 0 len.toNat

/-! ### The address space -/

variable {d : Pgdir} {mem : ℕ → UInt8} {p : ℕ → UInt8} {nullPte u v va buf len fuel n : ℕ}

/-- The page of the address is present and user-accessible. -/
def Accessible (d : Pgdir) (v : ℕ) : Prop := ∃ pte, walkpgdir d v = some pte ∧ user pte

/-- The kernel address of a user address. -/
def ka (d : Pgdir) (v : ℕ) : ℕ := P2V (PTE_ADDR ((walkpgdir d v).getD 0)) + v % PGSIZE

/-- The byte number `i` of the range that begins at `va`. -/
def byteAt (va i : ℕ) : ℕ := (va + i) % UINT

/-- The copy of `len` bytes to `va` is as it should be: no null pointer is followed; the result is 0
exactly if all pages of the range are user-accessible, and then the bytes of the range are those of
`p` and no others have changed; else the result is -1 and only bytes of user-accessible pages have
changed. -/
structure CopyoutOk (d : Pgdir) (mem : ℕ → UInt8) (va : ℕ) (p : ℕ → UInt8) (len : ℕ) (r : Result) :
    Prop where
  walks : r.nullRead = false
  ret : (∀ i, i < len → Accessible d (byteAt va i)) ∧ r.ret = 0 ∨
    (∃ i, i < len ∧ ¬ Accessible d (byteAt va i)) ∧ r.ret = -1
  copied : r.ret = 0 → ∀ i, i < len → r.mem (ka d (byteAt va i)) = p i
  others : r.ret = 0 → ∀ a, (∀ i, i < len → a ≠ ka d (byteAt va i)) → r.mem a = mem a
  failed : r.ret = -1 → ∀ a, (∀ v, v < UINT → Accessible d v → a ≠ ka d v) → r.mem a = mem a

/-- The range has page tables up to the first page that is not user-accessible. -/
def Tabled (d : Pgdir) (va len : ℕ) : Prop :=
  ∀ i, i < len → (∀ j, j < i → Accessible d (byteAt va j)) → (walkpgdir d (byteAt va i)).isSome

theorem walkpgdir_congr (h : u / PGSIZE = v / PGSIZE) : walkpgdir d u = walkpgdir d v := by
  have hpdx : PDX u = PDX v := by
    unfold PDX
    congr 1
    dsimp only [PGSIZE] at h
    omega
  have hptx : PTX u = PTX v := by
    simp only [PTX, h]
  rw [walkpgdir, walkpgdir, hpdx, hptx]

theorem accessible_congr (h : u / PGSIZE = v / PGSIZE) : Accessible d u ↔ Accessible d v := by
  rw [Accessible, Accessible, walkpgdir_congr h]

/-- The entry of an accessible address, with its place. -/
theorem walkpgdir_some {pte : ℕ} (h : walkpgdir d v = some pte) :
    ∃ t, d.table (PDX v) = some t ∧ t (PTX v) = pte := by
  unfold walkpgdir at h
  rw [Option.map_eq_some_iff] at h
  exact h

theorem P2V_of_lt {a : ℕ} (h : a < PHYSTOP) : P2V a = a + KERNBASE := by
  unfold P2V
  dsimp only [PHYSTOP, KERNBASE, UINT] at *
  omega

theorem ka_of_walk {pte : ℕ} (h : walkpgdir d v = some pte) (hp : user pte) :
    PTE_ADDR pte < PHYSTOP ∧ ka d v = PTE_ADDR pte + KERNBASE + v % PGSIZE := by
  obtain ⟨t, ht, rfl⟩ := walkpgdir_some h
  have hlt := d.physical _ _ _ ht hp
  rw [ka, h, Option.getD_some, P2V_of_lt hlt]
  exact ⟨hlt, rfl⟩

/-- Two addresses of user-accessible pages lie at one kernel address only if they are the same. -/
theorem ka_inj (hu : Accessible d u) (hv : Accessible d v) (hu' : u < UINT) (hv' : v < UINT)
    (h : ka d u = ka d v) : u = v := by
  obtain ⟨pte, hpte, hp⟩ := hu
  obtain ⟨pte', hpte', hp'⟩ := hv
  obtain ⟨-, hk⟩ := ka_of_walk hpte hp
  obtain ⟨-, hk'⟩ := ka_of_walk hpte' hp'
  obtain ⟨t, ht, rfl⟩ := walkpgdir_some hpte
  obtain ⟨t', ht', rfl⟩ := walkpgdir_some hpte'
  rw [hk, hk'] at h
  have hoff : PTE_ADDR (t (PTX u)) = PTE_ADDR (t' (PTX v)) ∧ u % PGSIZE = v % PGSIZE := by
    unfold PTE_ADDR at h ⊢
    dsimp only [PGSIZE, KERNBASE] at h ⊢
    omega
  obtain ⟨hpdx, hptx⟩ := d.once _ _ _ _ _ _ ht hp ht' hp' hoff.1
  have h1 := congrArg Fin.val hpdx
  have h2 := congrArg Fin.val hptx
  have h3 := hoff.2
  dsimp only [PDX, PTX, PGSIZE, UINT] at *
  omega

/-! ### One page -/

theorem byteAt_lt (va i : ℕ) : byteAt va i < UINT := Nat.mod_lt _ (by decide)

/-- Two bytes of a range that is not longer than the address space. -/
theorem byteAt_inj {i j : ℕ} (hi : i < UINT) (hj : j < UINT) (h : byteAt va i = byteAt va j) :
    i = j := by
  unfold byteAt at h
  dsimp only [UINT] at *
  omega

/-- The bytes of the first page of a range, and where the rest of it begins. -/
structure Piece (va len n va' : ℕ) : Prop where
  pos : 0 < n
  le : n ≤ len
  fits : va % PGSIZE + n ≤ PGSIZE
  here : ∀ i, i < n → byteAt va i = va + i
  rest : ∀ i, i < len - n → byteAt va (n + i) = byteAt va' i

theorem piece_of (hva : va < UINT) (hlen : 0 < len) :
    Piece va len (min (PGSIZE - (va - va / PGSIZE * PGSIZE)) len)
      ((va / PGSIZE * PGSIZE + PGSIZE) % UINT) := by
  unfold PGSIZE UINT at *
  refine ⟨by omega, by omega, ?_, fun i hi => ?_, fun i hi => ?_⟩
  · dsimp only [PGSIZE]
    omega
  · unfold byteAt
    dsimp only [UINT]
    omega
  · unfold byteAt
    dsimp only [UINT]
    omega

theorem Piece.page {va' i : ℕ} (h : Piece va len n va') (hi : i < n) :
    byteAt va i / PGSIZE = va / PGSIZE := by
  have := h.fits
  rw [h.here i hi]
  dsimp only [PGSIZE] at *
  omega

/-- A byte of the range lies in the first page or in the rest. -/
theorem Piece.split {va' i : ℕ} (h : Piece va len n va') (hi : i < len) :
    i < n ∨ ∃ k, i = n + k ∧ k < len - n ∧ byteAt va i = byteAt va' k := by
  by_cases hn : i < n
  · exact .inl hn
  · refine .inr ⟨i - n, by omega, by omega, ?_⟩
    rw [← h.rest (i - n) (by omega)]
    congr 1
    omega

/-- The first page is user-accessible: the rest decides. -/
theorem Piece.tabled {va' : ℕ} (h : Piece va len n va') (hacc : Accessible d va) :
    Tabled d va len ↔ Tabled d va' (len - n) := by
  have hhere : ∀ i, i < n → Accessible d (byteAt va i) :=
    fun i hi => (accessible_congr (h.page hi)).2 hacc
  constructor
  · intro ht k hk hbefore
    rw [← h.rest k hk]
    refine ht (n + k) (by omega) fun j hj => ?_
    obtain hj' | ⟨l, rfl, hl, heq⟩ := h.split (i := j) (by omega)
    · exact hhere j hj'
    · rw [heq]
      exact hbefore l (by omega)
  · intro ht i hi hbefore
    obtain hi' | ⟨k, rfl, hk, heq⟩ := h.split hi
    · obtain ⟨pte, hpte, -⟩ := hhere i hi'
      rw [hpte]
      rfl
    · rw [heq]
      refine ht k hk fun j hj => ?_
      rw [← h.rest j (by omega)]
      exact hbefore (n + j) (by omega)

/-- What `memmove` writes into an accessible page. -/
theorem memmove_ka (mem : ℕ → UInt8) (p : ℕ → UInt8) (buf : ℕ) {va' : ℕ} (h : Piece va len n va')
    (hacc : Accessible d va) (a : ℕ) : memmove mem (ka d va) p buf n a = mem a ∧ (∀ i, i < n → a ≠ ka d (byteAt va i)) ∨
      ∃ i, i < n ∧ a = ka d (byteAt va i) ∧ memmove mem (ka d va) p buf n a = p (buf + i) := by
  have hka : ∀ i, i < n → ka d (byteAt va i) = ka d va + i := by
    intro i hi
    obtain ⟨pte, hpte, hp⟩ := hacc
    have hpage := h.page hi
    have hpte' : walkpgdir d (byteAt va i) = some pte := by
      rw [walkpgdir_congr hpage, hpte]
    rw [(ka_of_walk hpte' hp).2, (ka_of_walk hpte hp).2, h.here i hi]
    have := h.fits
    dsimp only [PGSIZE] at *
    omega
  unfold memmove
  by_cases ha : ka d va ≤ a ∧ a < ka d va + n
  · refine .inr ⟨a - ka d va, by omega, ?_, if_pos ha⟩
    rw [hka _ (by omega)]
    omega
  · refine .inl ⟨if_neg ha, fun i hi heq => ha ?_⟩
    rw [heq, hka i hi]
    omega

/-- The copy of the first page and then of the rest. -/
theorem Piece.copyoutOk {va' : ℕ} {r : Result} (h : Piece va len n va')
    (hlen : len ≤ UINT) (hacc : Accessible d va)
    (hr : CopyoutOk d (memmove mem (ka d va) p buf n) va' (fun i => p (buf + n + i)) (len - n) r) :
    CopyoutOk d mem va (fun i => p (buf + i)) len r := by
  have hhere : ∀ i, i < n → Accessible d (byteAt va i) :=
    fun i hi => (accessible_congr (h.page hi)).2 hacc
  constructor
  case walks => exact hr.walks
  case ret =>
    obtain ⟨hall, h0⟩ | ⟨⟨k, hk, hno⟩, h1⟩ := hr.ret
    · refine .inl ⟨fun i hi => ?_, h0⟩
      obtain hi' | ⟨k, rfl, hk, heq⟩ := h.split hi
      · exact hhere i hi'
      · rw [heq]
        exact hall k hk
    · refine .inr ⟨⟨n + k, by omega, ?_⟩, h1⟩
      rw [h.rest k hk]
      exact hno
  case copied =>
    intro h0 i hi
    have hsame : ∀ j, j < n → ∀ k, k < len → Accessible d (byteAt va k) →
        ka d (byteAt va j) = ka d (byteAt va k) → j = k := by
      intro j hj k hk hk' heq
      have := h.le
      exact byteAt_inj (by omega) (by omega)
        (ka_inj (hhere j hj) hk' (byteAt_lt ..) (byteAt_lt ..) heq)
    obtain hi' | ⟨k, rfl, hk, heq⟩ := h.split hi
    · -- the rest of the loop does not write here
      have hrest : ∀ k, k < len - n → ka d (byteAt va i) ≠ ka d (byteAt va' k) := by
        intro k hk heq
        rw [← h.rest k hk] at heq
        have hacc' : Accessible d (byteAt va (n + k)) := by
          obtain ⟨hall, -⟩ | ⟨-, h1⟩ := hr.ret
          · rw [h.rest k hk]
            exact hall k hk
          · rw [h0] at h1
            cases h1
        have := hsame i hi' (n + k) (by omega) hacc' heq
        omega
      rw [hr.others h0 _ hrest]
      obtain ⟨-, hno⟩ | ⟨j, hj, heq, hp⟩ := memmove_ka mem p buf h hacc
        (ka d (byteAt va i))
      · exact absurd rfl (hno i hi')
      · have := h.le
        rw [hp, ← hsame i hi' j (by omega) (hhere j hj) heq]
    · rw [heq, hr.copied h0 k hk, Nat.add_assoc]
  case others =>
    intro h0 a ha
    rw [hr.others h0 a fun k hk => ?_]
    · obtain ⟨hmem, -⟩ | ⟨i, hi, heq, -⟩ := memmove_ka mem p buf h hacc a
      · exact hmem
      · have := h.le
        exact absurd heq (ha i (by omega))
    · rw [← h.rest k hk]
      exact ha (n + k) (by omega)
  case failed =>
    intro h1 a ha
    rw [hr.failed h1 a ha]
    obtain ⟨hmem, -⟩ | ⟨i, hi, heq, -⟩ := memmove_ka mem p buf h hacc a
    · exact hmem
    · exact absurd heq (ha _ (byteAt_lt ..) (hhere i hi))

/-! ### The loop -/

theorem page_floor (va : ℕ) : va / PGSIZE * PGSIZE / PGSIZE = va / PGSIZE :=
  Nat.mul_div_cancel _ (by decide)

theorem uva2ka_none (h : walkpgdir d va = none) :
    (uva2ka d nullPte (va / PGSIZE * PGSIZE)).1 = true := by
  rw [uva2ka, walkpgdir_congr (page_floor va), h]
  rfl

theorem uva2ka_user {pte : ℕ} (h : walkpgdir d va = some pte) (hp : user pte) :
    uva2ka d nullPte (va / PGSIZE * PGSIZE) = (false, PTE_ADDR pte + KERNBASE) := by
  rw [uva2ka, walkpgdir_congr (page_floor va), h, Option.getD_some]
  simp only [hp.1, hp.2, Bool.true_eq_false, if_false, Option.isNone_some]
  rw [P2V_of_lt (ka_of_walk h hp).1]

theorem uva2ka_closed {pte : ℕ} (h : walkpgdir d va = some pte) (hp : ¬ user pte) :
    uva2ka d nullPte (va / PGSIZE * PGSIZE) = (false, 0) := by
  rw [uva2ka, walkpgdir_congr (page_floor va), h, Option.getD_some]
  dsimp only [Option.isNone_some]
  split_ifs with h1 h2
  · rfl
  · rfl
  · exact absurd ⟨by simpa using h1, by simpa using h2⟩ hp

/-- Nothing is left to copy. -/
theorem copyoutOk_zero : CopyoutOk d mem va p 0 ⟨0, mem, false⟩ where
  walks := rfl
  ret := .inl ⟨fun i hi => absurd hi (by omega), rfl⟩
  copied _ i hi := absurd hi (by omega)
  others _ _ _ := rfl
  failed h := nomatch h

/-- The loop is right exactly if it meets no missing page table. -/
theorem copyoutLoop_spec (d : Pgdir) (nullPte : ℕ) (mem p : ℕ → UInt8) (buf : ℕ) (hva : va < UINT)
    (hlen : len ≤ UINT) (hfuel : len ≤ fuel) :
    (Tabled d va len →
      CopyoutOk d mem va (fun i => p (buf + i)) len (copyoutLoop d nullPte p fuel mem va buf len)) ∧
    (¬ Tabled d va len → (copyoutLoop d nullPte p fuel mem va buf len).nullRead = true) := by
  induction fuel generalizing mem va buf len with
  | zero =>
    obtain rfl : len = 0 := by omega
    exact ⟨fun _ => copyoutOk_zero, fun h => absurd (fun i hi => absurd hi (by omega)) h⟩
  | succ fuel ih =>
    rw [copyoutLoop]
    by_cases hpos : len > 0
    · rw [if_pos hpos]
      dsimp only
      have hpiece := piece_of hva hpos
      have hzero : byteAt va 0 = va := Nat.mod_eq_of_lt hva
      cases hwalk : walkpgdir d va with
      | none =>
        -- the null pointer is followed, whatever comes then
        have hnull : (uva2ka d nullPte (va / PGSIZE * PGSIZE)).1 = true := uva2ka_none hwalk
        refine ⟨fun ht => ?_, fun _ => ?_⟩
        · have := ht 0 hpos fun j hj => absurd hj (by omega)
          rw [hzero, hwalk] at this
          cases this
        · split_ifs
          · exact hnull
          · rw [hnull, Bool.true_or]
      | some pte =>
        by_cases hp : user pte
        · have hacc : Accessible d va := ⟨pte, hwalk, hp⟩
          have hka : PTE_ADDR pte + KERNBASE + (va - va / PGSIZE * PGSIZE) = ka d va := by
            rw [(ka_of_walk hwalk hp).2]
            dsimp only [PGSIZE]
            omega
          have hpos' := hpiece.pos
          rw [uva2ka_user hwalk hp, if_neg (by dsimp only [KERNBASE]; omega)]
          dsimp only
          rw [hka, hpiece.tabled hacc]
          simp only [Bool.false_or]
          exact ⟨fun ht => hpiece.copyoutOk hlen hacc
              ((ih _ _ (Nat.mod_lt _ (by decide)) (by omega) (by omega)).1 ht),
            (ih _ _ (Nat.mod_lt _ (by decide)) (by omega) (by omega)).2⟩
        · rw [uva2ka_closed hwalk hp]
          have hno : ¬ Accessible d va := by
            rintro ⟨pte', hpte', hp'⟩
            rw [hwalk] at hpte'
            exact hp (Option.some_inj.1 hpte' ▸ hp')
          refine ⟨fun _ => ⟨rfl, .inr ⟨⟨0, hpos, ?_⟩, rfl⟩, nofun, nofun, fun _ _ _ => rfl⟩, ?_⟩
          · rw [hzero]
            exact hno
          · intro ht
            refine absurd (fun i hi hbefore => ?_) ht
            obtain rfl | hi' := Nat.eq_zero_or_pos i
            · rw [hzero, hwalk]
              rfl
            · have := hbefore 0 hi'
              rw [hzero] at this
              exact absurd this hno
    · obtain rfl : len = 0 := by omega
      rw [if_neg hpos]
      exact ⟨fun _ => copyoutOk_zero, fun h => absurd (fun i hi => absurd hi (by omega)) h⟩

theorem copyoutLoop_ok_iff (d : Pgdir) (nullPte : ℕ) (mem p : ℕ → UInt8) (hva : va < UINT)
    (hlen : len ≤ UINT) :
    CopyoutOk d mem va p len (copyoutLoop d nullPte p len mem va 0 len) ↔ Tabled d va len := by
  have hspec := copyoutLoop_spec d nullPte mem p 0 hva hlen (le_refl len)
  simp only [Nat.zero_add] at hspec
  constructor
  · intro h
    by_contra hno
    have hwalks := h.walks
    rw [hspec.2 hno] at hwalks
    cases hwalks
  · exact hspec.1

/-- `copyout` is right exactly if the range has page tables up to the first page that is not
user-accessible. -/
theorem copyout_ok_iff (d : Pgdir) (nullPte : ℕ) (mem : ℕ → UInt8) (va : UInt32) (p : ℕ → UInt8)
    (len : UInt32) : CopyoutOk d mem va.toNat p len.toNat (copyout d nullPte mem va p len) ↔
      Tabled d va.toNat len.toNat :=
  copyoutLoop_ok_iff d nullPte mem p va.toNat_lt len.toNat_lt.le

/-! ### The arguments of `exec` -/

/-- Where `exec` puts a string of `n` bytes below `sp`. -/
def argSp (sp n : UInt32) : UInt32 := (sp - (n + 1)) &&& ~~~3

/-- The address space of a new image of size `sz`: page tables below `sz`, and in the kernel half for
the ranges of `kmap`, which no user may reach. -/
structure Image (d : Pgdir) (sz : ℕ) : Prop where
  low : ∀ i : Fin 1024, i.val < 512 → ((d.table i).isSome ↔ i.val * 0x400000 < sz)
  kernel : ∀ i : Fin 1024, 512 ≤ i.val → ((d.table i).isSome ↔
    i.val * 0x400000 < KERNBASE + PHYSTOP ∨ DEVSPACE ≤ i.val * 0x400000)
  closed : ∀ i t j, 512 ≤ i.val → d.table i = some t → ¬ user (t j)

/-- The mask `~3` rounds down. -/
theorem and_not_three (x : UInt32) : (x &&& ~~~3).toNat = x.toNat / 4 * 4 := by
  have hmask : (~~~3 : UInt32).toNat = (2 ^ 30 - 1) <<< 2 := rfl
  have hshift : x.toNat / 4 * 4 = (x.toNat >>> 2) <<< 2 := by
    rw [Nat.shiftRight_eq_div_pow, Nat.shiftLeft_eq]
  rw [UInt32.toNat_and, hmask, hshift]
  apply Nat.eq_of_testBit_eq
  intro i
  have hback : 2 ≤ i → 2 + (i - 2) = i := by omega
  rw [Nat.testBit_and, Nat.testBit_shiftLeft, Nat.testBit_shiftLeft, Nat.testBit_two_pow_sub_one,
    Nat.testBit_shiftRight]
  by_cases hi : i < 32
  · by_cases h2 : i ≥ 2
    · have hlt : i - 2 < 30 := by omega
      simp [h2, hlt, hback h2]
    · simp [h2]
  · have hx : x.toNat < 2 ^ i :=
      lt_of_lt_of_le x.toNat_lt (Nat.pow_le_pow_right (by decide) (by omega))
    simp [Nat.testBit_lt_two_pow hx, hback (by omega)]

theorem argSp_toNat {sp n : UInt32} (hn : n.toNat < PHYSTOP) :
    (argSp sp n).toNat = (sp.toNat + (UINT - (n.toNat + 1))) % UINT / 4 * 4 := by
  have hone : (1 : UInt32).toNat = 1 := rfl
  rw [argSp, and_not_three, UInt32.toNat_sub, UInt32.toNat_add, hone]
  dsimp only [PHYSTOP, UINT] at *
  omega

/-- `exec` may copy a string exactly if the stack pointer does not wrap around beyond the devices. -/
theorem exec_copy_ok_iff {sz : ℕ} {sp n : UInt32} (h : Image d sz) (hsp : sp.toNat ≤ sz)
    (hsz : sz ≤ KERNBASE) (hn : n.toNat < PHYSTOP) :
    CopyoutOk d mem (argSp sp n).toNat p (n.toNat + 1)
        (copyoutLoop d nullPte p (n.toNat + 1) mem (argSp sp n).toNat 0 (n.toNat + 1)) ↔
      n.toNat < sp.toNat + (UINT - DEVSPACE) := by
  have hva : (argSp sp n).toNat = _ := argSp_toNat hn
  have hlt := (argSp sp n).toNat_lt
  generalize (argSp sp n).toNat = va at hva hlt
  rw [copyoutLoop_ok_iff d nullPte mem p hlt (by dsimp only [PHYSTOP, UINT] at *; omega)]
  have hzero : byteAt va 0 = va := Nat.mod_eq_of_lt hlt
  have hisSome : ∀ v, (walkpgdir d v).isSome = (d.table (PDX v)).isSome := by
    intro v
    rw [walkpgdir, Option.isSome_map]
  dsimp only [PHYSTOP, KERNBASE, DEVSPACE, UINT] at *
  by_cases hfit : n.toNat < sp.toNat
  · -- the string lies in the image
    refine ⟨fun _ => by omega, fun _ i hi _ => ?_⟩
    have hpdx : (PDX (byteAt va i)).val = (va + i) / 0x400000 := by
      dsimp only [PDX, byteAt, UINT]
      omega
    rw [hisSome, h.low _ (by omega)]
    omega
  · have hpdx : (PDX va).val = va / 0x400000 := by
      dsimp only [PDX]
      omega
    have hkernel : 512 ≤ (PDX va).val := by omega
    constructor
    · intro ht
      have hsome := ht 0 (by omega) fun j hj => absurd hj (by omega)
      rw [hzero, hisSome, h.kernel _ hkernel] at hsome
      dsimp only [PHYSTOP, KERNBASE, DEVSPACE] at hsome
      omega
    · intro hwrap i hi hbefore
      obtain rfl | hi' := Nat.eq_zero_or_pos i
      · rw [hzero, hisSome, h.kernel _ hkernel]
        dsimp only [PHYSTOP, KERNBASE, DEVSPACE]
        omega
      · -- the first page belongs to the kernel
        obtain ⟨pte, hpte, hp⟩ := hbefore 0 hi'
        rw [hzero] at hpte
        obtain ⟨t, ht, rfl⟩ := walkpgdir_some hpte
        exact absurd hp (h.closed _ _ _ hkernel ht)

/-- The pages of an image of one page of text, the inaccessible page, and the stack. -/
def smallPages (j : ℕ) : ℕ :=
  if j = 0 then 0x100007 else if j = 1 then 0x101003 else if j = 2 then 0x102007 else 0

/-- An entry of `kmap`, present and writable. -/
def kernelPte (i j : ℕ) : ℕ := (if i < 568 then i - 512 else i) * 0x400000 + j * PGSIZE + 3

def smallTable (i : Fin 1024) : Option (Fin 1024 → ℕ) :=
  if i.val = 0 then some fun j => smallPages j
  else if 512 ≤ i.val ∧ i.val < 568 ∨ 1016 ≤ i.val then some fun j => kernelPte i j
  else none

theorem not_user_kernelPte (i j : ℕ) : ¬ user (kernelPte i j) := by
  rintro ⟨-, h⟩
  simp only [flag, kernelPte, PTE_U, PGSIZE, beq_iff_eq] at h
  omega

/-- Only two pages of the small image are user-accessible. -/
theorem smallTable_user {i : Fin 1024} {t : Fin 1024 → ℕ} {j : Fin 1024}
    (ht : smallTable i = some t) (hp : user (t j)) :
    i.val = 0 ∧ (j.val = 0 ∧ t j = 0x100007 ∨ j.val = 2 ∧ t j = 0x102007) := by
  unfold smallTable at ht
  split_ifs at ht with h0 hk
  · cases ht
    refine ⟨h0, ?_⟩
    dsimp only
    dsimp only at hp
    unfold smallPages at hp ⊢
    split_ifs at hp ⊢ with h1 h2 h3
    · exact .inl ⟨h1, rfl⟩
    · exact absurd hp (by decide)
    · exact .inr ⟨h3, rfl⟩
    · exact absurd hp (by decide)
  · cases ht
    exact absurd hp (not_user_kernelPte i j)

def smallImage : Pgdir where
  table := smallTable
  physical i t j ht hp := by
    obtain ⟨-, ⟨-, h⟩ | ⟨-, h⟩⟩ := smallTable_user ht hp <;> rw [h] <;> decide
  once i t j i' t' j' ht hp ht' hp' h := by
    obtain ⟨hi, hj⟩ := smallTable_user ht hp
    obtain ⟨hi', hj'⟩ := smallTable_user ht' hp'
    refine ⟨Fin.ext (hi.trans hi'.symm), Fin.ext ?_⟩
    obtain ⟨hj, ht⟩ | ⟨hj, ht⟩ := hj <;> obtain ⟨hj', ht'⟩ | ⟨hj', ht'⟩ := hj' <;>
      rw [ht, ht'] at h
    · rw [hj, hj']
    · exact absurd h (by decide)
    · exact absurd h (by decide)
    · rw [hj, hj']

theorem smallImage_image : Image smallImage 0x3000 where
  low i hi := by
    change (smallTable i).isSome = true ↔ _
    unfold smallTable
    split_ifs
    · simp
      omega
    · omega
    · simp
      omega
  kernel i hi := by
    change (smallTable i).isSome = true ↔ _
    unfold smallTable
    dsimp only [KERNBASE, PHYSTOP, DEVSPACE]
    split_ifs
    · omega
    · simp
      omega
    · simp
      omega
  closed i t j hi ht hp := by
    have := (smallTable_user ht hp).1
    omega

/-- `exec` copies an argument of 40000000 bytes onto the stack of the small image: the stack pointer
wraps around to an address without a page table, and `copyout` follows a null pointer. -/
theorem exec_follows_null : Image smallImage 0x3000 ∧
    ¬ CopyoutOk smallImage (fun _ => 0) (argSp 0x3000 40000000).toNat (fun _ => 97) 40000001
      (copyout smallImage 0 (fun _ => 0) (argSp 0x3000 40000000) (fun _ => 97) 40000001) := by
  refine ⟨smallImage_image, fun h => ?_⟩
  have htabled := (copyoutLoop_ok_iff _ _ _ _ (argSp 0x3000 40000000).toNat_lt (by decide)).1 h
  have := htabled 0 (by decide) fun j hj => absurd hj (by omega)
  exact absurd this (by decide)

end Xv6Container.Memory.Copyout
